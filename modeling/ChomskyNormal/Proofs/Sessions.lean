import ChomskyNormal.Proofs.FixedPoints

/-!
# Sessions

A session holds a grammar and the fresh names handed out so far, and applies one operation after
another. A wrapper that is remembered may be dropped from the grammar by a later operation. It is
not missed: once binarized, a grammar keeps short alternatives, and these ask for no wrapper. So no
operation of a session fails, and rules and nonterminals stay in step.
-/

namespace ChomskyNormal

structure Session where
  grammar : Grammar
  names : FreshNames

inductive Operation where
  | pass (p : Pass)
  | binarizeWithNames
  | renewNames
  | normalize
  deriving DecidableEq

def Operation.apply (s : Session) : Operation → Except GrammarError Session
  | .pass p => do
    let g ← p.apply s.grammar
    return { s with grammar := g }
  | .binarizeWithNames => do
    let (grammar, names) ← s.grammar.binarizeWith s.names
    return { grammar, names }
  | .renewNames => .ok { s with names := {} }
  | .normalize => do
    let g ← s.grammar.normalize
    return { s with grammar := g }

namespace Grammar

variable {g : Grammar}

/-- Well formed, with a rule for each nonterminal, in the order of the nonterminals. -/
structure InStep (g : Grammar) : Prop where
  wellFormed : g.WellFormed
  keys : g.rules.keys = g.nonterminals

def AllShort (g : Grammar) : Prop := ∀ name, ∀ right ∈ g.alternatives name, Alternative.Short right

theorem inStep_of_build {start : String} {nonterminals terminals : List String}
    {productions : List (String × Alternative)}
    (built : build start nonterminals terminals productions = .ok g) :
    g.InStep :=
  ⟨(build_eq_ok_iff.1 built).2, keys_of_build built⟩

theorem short_of_mem_variants {nullable : OrderedSet String} {right variant : Alternative}
    (short : Alternative.Short right) (mem : variant ∈ variants nullable right) :
    Alternative.Short variant := by
  have sub := sublist_of_mem_variants mem
  by_cases shorter : variant.length = right.length
  · exact sub.eq_of_length shorter ▸ short
  · have le := sub.length_le
    refine .inl ?_
    rcases short with short | normal
    · omega
    · rcases Alternative.isNormal_iff.1 normal with ⟨_, rfl⟩ | ⟨_, _, rfl⟩
      · simp only [List.length_singleton] at le
        exact le
      · simp only [List.length_cons, List.length_nil] at le shorter
        omega

theorem inStep_thinned (inStep : g.InStep) (keepsEmpty : Bool) : (g.thinned keepsEmpty).InStep where
  wellFormed := wellFormed_thinned inStep.wellFormed keepsEmpty
  keys := by
    rw [thinned, epsilonFreeRules, OrderedMap.keys_mapValues]
    exact inStep.keys

theorem allShort_thinned (short : g.AllShort) (keepsEmpty : Bool) :
    (g.thinned keepsEmpty).AllShort := by
  intro name variant mem
  rcases mem_alternatives_thinned.1 mem with ⟨_, right, mem, mem'⟩ | ⟨rfl, _⟩
  · exact short_of_mem_variants (short name right mem) mem'
  · exact .inl (by simp)

theorem inStep_adopt (inStep : g.InStep) {start : String} (fresh : ¬ g.Declares start) :
    (g.adopt start).InStep where
  wellFormed := wellFormed_adopt inStep.wellFormed fresh
  keys := by
    have declared : start ∈ g.nonterminals.insert start := OrderedSet.mem_insert.2 (.inr rfl)
    simp only [adopt, addProduction, declare, OrderedMap.keys_modify, OrderedMap.keys_insert,
      inStep.keys, OrderedSet.insert_of_mem declared]

theorem allShort_adopt (short : g.AllShort) (start : String) : (g.adopt start).AllShort := by
  intro name right mem
  rw [mem_alternatives_adopt] at mem
  split at mem
  · rcases mem with rfl | rfl <;> exact .inl (by simp)
  · exact short name right mem

theorem exists_inStep_eliminateEpsilon (inStep : g.InStep) :
    ∃ h, g.eliminateEpsilon = .ok h ∧ h.InStep ∧ (g.AllShort → h.AllShort) := by
  by_cases replaced : g.start ∈ g.nullable ∧ g.start ∈ g.mentioned
  · have fresh : ¬ (g.thinned false).Declares (g.primed g.start) := g.not_declares_primed g.start
    exact ⟨_, eliminateEpsilon_of_replaced replaced,
      inStep_adopt (inStep_thinned inStep false) fresh,
        fun short => allShort_adopt (allShort_thinned short false) _⟩
  · exact ⟨_, eliminateEpsilon_of_kept replaced, inStep_thinned inStep _,
      fun short => allShort_thinned short _⟩

theorem inStep_eliminateUnits (inStep : g.InStep) : g.eliminateUnits.InStep where
  wellFormed := wellFormed_eliminateUnits inStep.wellFormed
  keys := by
    rw [eliminateUnits, OrderedMap.keys_mapValues]
    exact inStep.keys

theorem allShort_eliminateUnits (short : g.AllShort) : g.eliminateUnits.AllShort := by
  intro name right mem
  have ⟨⟨other, _, mem⟩, _⟩ := mem_alternatives_eliminateUnits.1 mem
  exact short other right mem

theorem keys_retainNonterminals (keys : g.rules.keys = g.nonterminals) (keep : String → Bool) :
    (g.retainNonterminals keep).rules.keys = (g.retainNonterminals keep).nonterminals := by
  apply OrderedSet.toList_injective
  rw [retainNonterminals, OrderedMap.keys_filterKeys, keys, OrderedSet.toList_filter]
  apply List.filter_congr
  intro name mem
  have declared : name ∈ g.nonterminals := mem
  simp only [OrderedSet.mem_filter, declared, true_and, Bool.decide_eq_true]

theorem inStep_eliminateUseless (inStep : g.InStep) : g.eliminateUseless.InStep where
  wellFormed := wellFormed_eliminateUseless inStep.wellFormed
  keys := by
    have ⟨kept, e⟩ := g.eliminateUseless_eq
    have pruned : g.prune.rules.keys = g.prune.nonterminals := by
      rw [prune, OrderedMap.keys_mapValues]
      exact inStep.keys
    rw [e]
    exact keys_retainNonterminals (keys_retainNonterminals pruned _) _

theorem allShort_eliminateUseless (wf : g.WellFormed) (short : g.AllShort) :
    g.eliminateUseless.AllShort :=
  fun name right mem => short name right (alternatives_eliminateUseless_sub wf name right mem)

theorem binarizeWith_of_short (short : g.AllShort) (names : FreshNames) :
    g.binarizeWith names = .ok (g.withoutRules.addProductions g.productions, names) := by
  have all : ∀ production ∈ g.productions, Alternative.Short production.2 :=
    fun production mem => short production.1 production.2 (mem_productions.1 mem)
  rw [binarizeWith_eq, foldlM_addShortened all]
  rfl

theorem exists_inStep_binarizeWith (inStep : g.InStep) {names : FreshNames}
    (unused : (∀ terminal, names.wrappers.get? terminal = none) ∨ g.AllShort) :
    ∃ h names', g.binarizeWith names = .ok (h, names') ∧ h.InStep ∧ h.AllShort := by
  -- Either no wrapper is remembered, and the new ones fit the grammar, or none is asked for.
  rcases unused with none | short
  · have fits : Draft.Fits ⟨g, names⟩ [] := by
      intro terminal name h
      rw [none terminal] at h
      contradiction
    have ⟨h, names', e, conservative, _, shortened, _⟩ := exists_binarizeWith inStep.wellFormed fits
    exact ⟨h, names', e, ⟨conservative.wellFormed, shortened.keys⟩, shortened.rights⟩
  · have ⟨h, e, conservative, _, shortened⟩ := exists_binarize inStep.wellFormed
    have same := Except.ok.inj ((binarize_of_short short).symm.trans e)
    exact ⟨h, names, same ▸ binarizeWith_of_short short names,
      ⟨conservative.wellFormed, shortened.keys⟩, shortened.rights⟩

theorem exists_inStep_pass (inStep : g.InStep) (pass : Pass) :
    ∃ h, pass.apply g = .ok h ∧ h.InStep ∧ (g.AllShort → h.AllShort) := by
  cases pass with
  | epsilon => exact exists_inStep_eliminateEpsilon inStep
  | unit => exact ⟨_, rfl, inStep_eliminateUnits inStep, allShort_eliminateUnits⟩
  | useless =>
    exact ⟨_, rfl, inStep_eliminateUseless inStep, allShort_eliminateUseless inStep.wellFormed⟩
  | binarize =>
    have ⟨h, e, conservative, _, shortened⟩ := exists_binarize inStep.wellFormed
    exact ⟨h, e, ⟨conservative.wellFormed, shortened.keys⟩, fun _ => shortened.rights⟩

theorem exists_inStep_normalize (inStep : g.InStep) :
    ∃ c, g.normalize = .ok c ∧ c.InStep ∧ c.AllShort := by
  have ⟨c, e, wf, normalized, keys, _⟩ := exists_normalize inStep.wellFormed
  exact ⟨c, e, ⟨wf, keys⟩, fun _ _ mem => normalized.short mem⟩

end Grammar

namespace Session

/-- The names of the session hold no wrapper, or the grammar asks for none. -/
structure Sound (s : Session) : Prop where
  inStep : s.grammar.InStep
  unused : (∀ terminal, s.names.wrappers.get? terminal = none) ∨ s.grammar.AllShort

theorem sound_of_inStep {g : Grammar} (inStep : g.InStep) : Sound ⟨g, {}⟩ :=
  ⟨inStep, .inl fun _ => rfl⟩

theorem Sound.exists_apply {s : Session} (sound : s.Sound) (operation : Operation) :
    ∃ t, operation.apply s = .ok t ∧ t.Sound := by
  cases operation with
  | pass p =>
    have ⟨h, e, inStep, short⟩ := Grammar.exists_inStep_pass sound.inStep p
    refine ⟨{ s with grammar := h }, ?_, inStep, sound.unused.imp id short⟩
    rw [Operation.apply, e]
    rfl
  | binarizeWithNames =>
    have ⟨h, names, e, inStep, short⟩ :=
      Grammar.exists_inStep_binarizeWith sound.inStep sound.unused
    refine ⟨⟨h, names⟩, ?_, inStep, .inr short⟩
    rw [Operation.apply, e]
    rfl
  | renewNames => exact ⟨{ s with names := {} }, rfl, sound.inStep, .inl fun _ => rfl⟩
  | normalize =>
    have ⟨h, e, inStep, short⟩ := Grammar.exists_inStep_normalize sound.inStep
    refine ⟨{ s with grammar := h }, ?_, inStep, .inr short⟩
    rw [Operation.apply, e]
    rfl

theorem Sound.exists_run {s : Session} (sound : s.Sound) (operations : List Operation) :
    ∃ t, operations.foldlM Operation.apply s = .ok t ∧ t.Sound :=
  exists_foldlM (p := fun _ t => t.Sound)
    (fun operation _ _ sound => sound.exists_apply operation) operations s sound

end Session

theorem Pass.foldlM_of_trace {g : Grammar} {passes : List Pass} {steps : List (Pass × Grammar)}
    (traced : Pass.trace g passes = .ok steps) :
    passes.foldlM Pass.apply g = .ok ((steps.getLast?.map Prod.snd).getD g) := by
  induction passes generalizing g steps with
  | nil =>
    cases traced
    rfl
  | cons pass passes ih =>
    rw [Pass.trace] at traced
    rw [List.foldlM_cons]
    cases e : pass.apply g with
    | error fault =>
      rw [e] at traced
      contradiction
    | ok h =>
      rw [e] at traced
      cases e' : Pass.trace h passes with
      | error fault =>
        simp only [bind, Except.bind, e'] at traced
        contradiction
      | ok later =>
        simp only [bind, Except.bind, e', pure, Except.pure, Except.ok.injEq] at traced
        subst traced
        refine (ih e').trans ?_
        rw [List.getLast?_cons]
        cases later.getLast? <;> rfl

namespace Grammar

theorem exists_normalizationSteps {g : Grammar} (wf : g.WellFormed) :
    ∃ c steps, g.normalize = .ok c ∧
    g.normalizationSteps = .ok steps ∧ steps.getLast?.map Prod.snd = some c := by
  have run : ∀ done, done <+: Pass.all → ∃ h, done.foldlM Pass.apply g = .ok h ∧ True := by
    intro done sub
    have order : Pass.UnitAfterEpsilon Pass.all := Pass.unitAfterEpsilon_epsilon_cons _
    have ⟨h, e, _⟩ := Pass.exists_run wf (.inr (order.of_prefix sub))
    exact ⟨h, e, trivial⟩
  have ⟨steps, traced, names, _⟩ := Pass.exists_trace run
  have ⟨last, found⟩ : ∃ last, steps.getLast? = some last := by
    cases steps with
    | nil => contradiction
    | cons first others => exact ⟨_, List.getLast?_cons⟩
  have result := Pass.foldlM_of_trace traced
  rw [found, ← normalize_eq wf] at result
  refine ⟨last.2, steps, result, ?_, by rw [found]; rfl⟩
  rw [normalizationSteps, validate_eq_ok_iff.2 wf]
  exact traced

theorem error_of_validate {g : Grammar} {fault : GrammarError}
    (invalid : g.validate = .error fault) :
    g.normalize = .error fault ∧ g.normalizationSteps = .error fault := by
  rw [normalize, normalizationSteps, invalid]
  exact ⟨rfl, rfl⟩

theorem normalize_iff_steps (g : Grammar) :
    (∀ fault, g.normalize = .error fault ↔ g.validate = .error fault) ∧
      (∀ fault, g.normalizationSteps = .error fault ↔ g.validate = .error fault) ∧
      (g.validate = .ok () → ∃ c steps, g.normalize = .ok c ∧ g.normalizationSteps = .ok steps ∧
        steps.getLast?.map Prod.snd = some c) := by
  cases valid : g.validate with
  | error fault =>
    have ⟨e, e'⟩ := error_of_validate valid
    simp only [e, e', Except.error.injEq, reduceCtorEq, false_implies, implies_true, and_self]
  | ok =>
    have ⟨c, steps, e, e', last⟩ := exists_normalizationSteps (validate_eq_ok_iff.1 valid)
    simp only [e, e', reduceCtorEq, implies_true, true_and]
    exact fun _ => ⟨c, steps, rfl, rfl, last⟩

end Grammar

/-- Every session that starts from a grammar that has been built runs to its end, valid and in step
all along. The second half is about all grammars, whether or not they can be built. -/
theorem exists_session_of_build {start : String} {nonterminals terminals : List String}
    {productions : List (String × Alternative)} {g : Grammar}
    (built : Grammar.build start nonterminals terminals productions = .ok g)
    (operations : List Operation) :
    (∀ done, done <+: operations → ∃ s, done.foldlM Operation.apply (⟨g, {}⟩ : Session) = .ok s ∧
      s.grammar.validate = .ok () ∧ s.grammar.rules.keys.toList = s.grammar.nonterminals.toList ∧
        s.grammar.nonterminals.toList.Nodup) ∧
      ∀ h : Grammar, (∀ fault, h.normalize = .error fault ↔ h.validate = .error fault) ∧
        (∀ fault, h.normalizationSteps = .error fault ↔ h.validate = .error fault) ∧
        (h.validate = .ok () → ∃ c steps, h.normalize = .ok c ∧ h.normalizationSteps = .ok steps ∧
          steps.getLast?.map Prod.snd = some c) := by
  refine ⟨fun done _ => ?_, fun h => h.normalize_iff_steps⟩
  have ⟨s, e, sound⟩ := (Session.sound_of_inStep (Grammar.inStep_of_build built)).exists_run done
  exact ⟨s, e, Grammar.validate_eq_ok_iff.2 sound.inStep.wellFormed,
    congrArg OrderedSet.toList sound.inStep.keys, s.grammar.nonterminals.nodup⟩

def detached : Grammar :=
  (Grammar.bare "S" ["S", "A"] ["a", "b", "c"]).addProductions
    [("S", [.terminal "c"]), ("A", [.terminal "a", .terminal "b"])]

theorem exists_session_detached :
    Grammar.build "S" ["S", "A"] ["a", "b", "c"]
      [("S", [.terminal "c"]), ("A", [.terminal "a", .terminal "b"])] = .ok detached ∧
    ∃ s, [Operation.binarizeWithNames, .pass .useless, .binarizeWithNames, .normalize].foldlM
        Operation.apply (⟨detached, {}⟩ : Session) = .ok s ∧
      s.grammar.validate = .ok () ∧ s.grammar.rules.keys.toList = s.grammar.nonterminals.toList :=
  have built := Grammar.build_eq_ok_iff.2 ⟨rfl, Grammar.validate_eq_ok_iff.1 (by decide)⟩
  have ⟨s, e, valid, keys, _⟩ := (exists_session_of_build built
    [.binarizeWithNames, .pass .useless, .binarizeWithNames, .normalize]).1 _ (List.prefix_refl _)
  ⟨built, s, e, valid, keys⟩

end ChomskyNormal
