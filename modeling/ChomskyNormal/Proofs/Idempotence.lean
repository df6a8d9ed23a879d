import ChomskyNormal.Proofs.Normalization

/-!
# Idempotence

What a pass establishes is a condition under which it leaves every grammar literally as it is, with
the order of names, rules and alternatives. So a second run of a pass changes nothing.
-/

namespace ChomskyNormal

namespace Grammar

variable {g : Grammar}

theorem mem_nullable_iff_nil_mem (empty : g.EmptyOnlyAtStart) {name : String} :
    name ∈ g.nullable ↔ [] ∈ g.alternatives name :=
  mem_nullable_iff.trans (derives_nil_iff_mem empty)

theorem not_mem_nullable_of_mentioned (empty : g.EmptyOnlyAtStart) {name : String}
    (mentioned : name ∈ g.mentioned) :
    name ∉ g.nullable := by
  intro mem
  obtain ⟨rfl, alone⟩ := empty name ((mem_nullable_iff_nil_mem empty).1 mem)
  exact alone mentioned

theorem eliminateEpsilon_of_emptyOnlyAtStart (empty : g.EmptyOnlyAtStart) :
    g.eliminateEpsilon = .ok (g.thinned (g.start ∈ g.nullable)) :=
  eliminateEpsilon_of_kept fun replaced => not_mem_nullable_of_mentioned empty replaced.2 replaced.1

theorem variants_of_mentioned (empty : g.EmptyOnlyAtStart) {name : String} {right : Alternative}
    (mem : right ∈ g.alternatives name) : variants g.nullable right = [right] := by
  apply variants_of_not_nullable
  intro other hs
  exact not_mem_nullable_of_mentioned empty (mem_mentioned.2 ⟨name, right, mem, hs⟩)

theorem nonemptyVariants_of_singletons {nullable : OrderedSet String}
    {rights : OrderedSet Alternative}
    (alone : ∀ right ∈ rights, variants nullable right = [right]) :
    nonemptyVariants nullable rights = rights.filter (· ≠ []) := by
  have same : rights.toList.flatMap (variants nullable) = rights.toList :=
    (List.flatMap_congr alone).trans (List.flatMap_singleton' _)
  rw [nonemptyVariants, same]
  exact OrderedSet.ofList_toList (rights.filter (· ≠ []))

def EmptyLast (g : Grammar) : Prop :=
  ∀ name, [] ∈ g.alternatives name →
    ∃ others : OrderedSet Alternative, [] ∉ others ∧ g.alternatives name = others.insert []

theorem eliminateEpsilon_eq_self (empty : g.EmptyOnlyAtStart) (last : g.EmptyLast) :
    g.eliminateEpsilon = .ok g := by
  have rules : g.epsilonFreeRules (g.start ∈ g.nullable) = g.rules := by
    rw [epsilonFreeRules]
    refine OrderedMap.mapValues_eq_self ?_
    rintro ⟨left, rights⟩ mem
    have own := alternatives_of_mem_entries mem
    have nonempty : nonemptyVariants g.nullable rights = rights.filter (· ≠ []) :=
      nonemptyVariants_of_singletons fun right hr => variants_of_mentioned empty (own ▸ hr)
    simp only [nonempty, mem_nullable_iff_nil_mem empty, Bool.and_eq_true, decide_eq_true_eq]
    by_cases nil : [] ∈ g.alternatives left
    · have start := (empty left nil).1
      obtain ⟨others, new, split⟩ := last left nil
      rw [if_pos ⟨start, start ▸ nil⟩, ← own, split, OrderedSet.filter_insert_ne new]
    · have other : ¬ (left = g.start ∧ [] ∈ g.alternatives g.start) := fun both =>
        nil (both.1 ▸ both.2)
      rw [if_neg other]
      exact OrderedSet.filter_eq_self fun right hr => decide_eq_true fun same =>
        nil (own ▸ same ▸ hr)
  rw [eliminateEpsilon_of_emptyOnlyAtStart empty, thinned, rules]

theorem emptyLast_thinned (g : Grammar) (keepsEmpty : Bool) : (g.thinned keepsEmpty).EmptyLast := by
  intro name mem
  have absent (rights : OrderedSet Alternative) : [] ∉ nonemptyVariants g.nullable rights :=
    fun mem => (mem_nonemptyVariants.1 mem).1 rfl
  simp only [alternatives, thinned, epsilonFreeRules, OrderedMap.get?_mapValues] at mem ⊢
  cases e : g.rules.get? name with
  | none => simp [e] at mem
  | some rights =>
    simp only [e, Option.map_some, Option.getD_some] at mem ⊢
    split at mem
    · next keeps => exact ⟨_, absent rights, if_pos keeps⟩
    · exact absurd mem (absent rights)

theorem emptyLast_adopt (g : Grammar) (start : String) :
    ((g.thinned false).adopt start).EmptyLast := by
  intro name mem
  have own := mem
  rw [mem_alternatives_adopt] at own
  split at own
  · next same =>
    subst same
    refine ⟨(∅ : OrderedSet Alternative).insert [.nonterminal g.start], by simp, ?_⟩
    have bare : ((g.thinned false).declare name).alternatives name = ∅ := by
      simp [alternatives, declare, OrderedMap.get?_insert]
    change (addProduction (addProduction _ _ _) _ _).alternatives name = _
    rw [alternatives_addProduction, if_pos rfl, alternatives_addProduction, if_pos rfl, bare]
    rfl
  · exact absurd own (not_mem_alternatives_nil_thinned name)

theorem eq_of_unitChain (free : g.UnitFree) {name other : String} (chain : g.UnitChain name other) :
    name = other := by
  rcases Relation.ReflTransGen.cases_head chain with rfl | ⟨target, unit, _⟩
  · rfl
  · exact absurd unit (free name target)

theorem eliminateUnits_eq_self (free : g.UnitFree)
    (starts : ∀ name, [] ∈ g.alternatives name → name = g.start) :
    g.eliminateUnits = g := by
  have rules : g.rules.mapValues (fun left _ => g.unitFreeRights left) = g.rules := by
    refine OrderedMap.mapValues_eq_self fun (left, rights) mem => ?_
    have own := alternatives_of_mem_entries mem
    have closure : (g.unitClosure left).toList = [left] :=
      OrderedSet.toList_eq_singleton_iff.2 fun other =>
      mem_unitClosure_iff.trans
        ⟨fun chain => (eq_of_unitChain free chain).symm, fun same => same ▸ .refl⟩
    have kept : ∀ right ∈ rights.toList,
        (unitTarget? right).isNone && (left = g.start || right ≠ []) := by
      intro right hr
      have hr : right ∈ g.alternatives left := own ▸ hr
      rw [Bool.and_eq_true, Bool.or_eq_true, Option.isNone_iff_eq_none, decide_eq_true_eq,
        decide_eq_true_eq]
      constructor
      · cases e : unitTarget? right with
        | none => rfl
        | some target => exact absurd (unitTarget?_eq_some_iff.1 e ▸ hr) (free left target)
      · by_cases nil : right = []
        · exact .inl (starts left (nil ▸ hr))
        · exact .inr nil
    change g.unitFreeRights left = rights
    rw [unitFreeRights, closure, List.flatMap_singleton, own, List.filter_eq_self.2 kept,
      OrderedSet.ofList_toList]
  rw [eliminateUnits, rules]

theorem retainNonterminals_eq_self {keep : String → Bool}
    (lefts : ∀ name ∈ g.rules.keys, name ∈ g.nonterminals)
    (keeps : ∀ name ∈ g.nonterminals, name = g.start ∨ keep name) :
    g.retainNonterminals keep = g := by
  have names : g.nonterminals.filter (fun name => name = g.start || keep name) = g.nonterminals :=
    OrderedSet.filter_eq_self fun name mem => by simpa using keeps name mem
  have rules : g.rules.filterKeys (· ∈ g.nonterminals) = g.rules :=
    OrderedMap.filterKeys_eq_self fun name mem => decide_eq_true (lefts name mem)
  simp only [retainNonterminals, names, rules]

theorem prune_eq_self
    (productive : ∀ name, ∀ right ∈ g.alternatives name, ∀ other, .nonterminal other ∈ right →
    g.Productive other) : g.prune = g := by
  have rules : g.prune.rules = g.rules := by
    dsimp only [prune]
    refine OrderedMap.mapValues_eq_self ?_
    intro (left, rights) mem
    refine OrderedSet.filter_eq_self fun right hr => usable_iff.2 fun other hs => ?_
    exact productive left right (alternatives_of_mem_entries mem ▸ hr) other hs
  calc
    g.prune = { g with rules := g.prune.rules } := rfl
    _ = g := by rw [rules]

theorem dropUnusedTerminals_eq_self (used : g.TerminalsUsed) : g.dropUnusedTerminals = g := by
  rw [dropUnusedTerminals]
  split
  · rfl
  next inhabited =>
    have all : ∀ terminal ∈ g.terminals, g.Uses terminal := by
      refine used.resolve_right fun none => inhabited (List.isEmpty_iff.2 ?_)
      refine List.eq_nil_iff_forall_not_mem.2 fun terminal mem => none terminal ?_
      exact mem_usedTerminals_iff.1 (OrderedSet.mem_ofList.1 mem)
    have names : g.terminals.filter (fun name => name ∈ OrderedSet.ofList g.usedTerminals) =
        g.terminals :=
      OrderedSet.filter_eq_self fun name mem => by simpa [mem_usedTerminals_iff] using all name mem
    rw [names]

theorem eliminateUseless_eq_self (wf : g.WellFormed) (useful : g.AllUseful ∨ g.StartAlone)
    (used : g.TerminalsUsed) :
    g.eliminateUseless = g := by
  have pruned : g.prune = g := by
    apply prune_eq_self
    intro name right mem other hs
    cases useful with
    | inl useful => exact (useful other (wf.rights_declared name right mem _ hs)).2
    | inr alone => exact absurd mem (alone.2 name right)
  have needed : ∀ name ∈ g.nonterminals, name = g.start ∨ g.Reachable name ∧ g.Productive name :=
    fun name mem => (useful.imp (fun useful => useful name mem) fun alone => alone.1 name mem).symm
  have first : g.dropUnproductive = g := by
    rw [dropUnproductive_eq, pruned]
    refine retainNonterminals_eq_self wf.lefts_declared fun name mem =>
      (needed name mem).imp_right fun h => ?_
    exact decide_eq_true (mem_productive_iff.2 h.2)
  have second : g.dropUnreachable = g := by
    refine retainNonterminals_eq_self wf.lefts_declared fun name mem =>
      (needed name mem).imp_right fun h => ?_
    exact decide_eq_true (mem_reachable_iff.2 h.1)
  rw [eliminateUseless, first, second, dropUnusedTerminals_eq_self used]

theorem foldlM_addShortened {productions : List (String × Alternative)}
    (short : ∀ production ∈ productions, Alternative.Short production.2) (d : Draft) :
    productions.foldlM (fun d production => Draft.addShortened d production.1 production.2) d =
      .ok ⟨d.grammar.addProductions productions, d.names⟩ := by
  induction productions generalizing d with
  | nil => rfl
  | cons production productions ih =>
    obtain ⟨first, others⟩ := List.forall_mem_cons.1 short
    rw [List.foldlM_cons, Draft.addShortened_of_short d first]
    exact ih others (d.addProduction production.1 production.2)

theorem binarize_of_short (short : ∀ name, ∀ right ∈ g.alternatives name, Alternative.Short right) :
    g.binarize = .ok (g.withoutRules.addProductions g.productions) := by
  have all : ∀ production ∈ g.productions, Alternative.Short production.2 :=
    fun production mem => short production.1 production.2 (mem_productions.1 mem)
  rw [binarize, binarizeWith_eq, foldlM_addShortened all]
  rfl

theorem addProductions_withoutRules (keys : g.rules.keys = g.nonterminals) :
    g.withoutRules.addProductions g.productions = g := by
  have bare : g.withoutRules.rules.keys = g.rules.keys := by
    rw [keys, withoutRules, OrderedMap.keys_ofKeys]
  have known : ∀ production ∈ g.productions, production.1 ∈ g.withoutRules.rules.keys :=
    fun production mem => bare ▸ mem_keys_of_mem_alternatives (mem_productions.1 mem)
  refine eq_of_alternatives (start_addProductions ..) (nonterminals_addProductions ..)
    (terminals_addProductions ..)
    ((keys_addProductions known).trans bare) fun name _ => ?_
  rw [alternatives_addProductions, filter_productions, withoutRules, alternatives_of_ofKeys rfl]
  exact OrderedSet.ofList_toList _

theorem binarize_eq_self (short : g.Shortened) : g.binarize = .ok g := by
  rw [binarize_of_short short.rights, addProductions_withoutRules short.keys]

theorem eliminateEpsilon_twice (wf : g.WellFormed) :
    ∃ h, g.eliminateEpsilon = .ok h ∧ h.eliminateEpsilon = .ok h := by
  have ⟨h, e, _, empty, _⟩ := exists_eliminateEpsilon wf
  refine ⟨h, e, eliminateEpsilon_eq_self empty ?_⟩
  by_cases replaced : g.start ∈ g.nullable ∧ g.start ∈ g.mentioned
  · rw [eliminateEpsilon_of_replaced replaced] at e
    exact Except.ok.inj e ▸ g.emptyLast_adopt _
  · rw [eliminateEpsilon_of_kept replaced] at e
    exact Except.ok.inj e ▸ g.emptyLast_thinned _

theorem eliminateUnits_twice (g : Grammar) :
    g.eliminateUnits.eliminateUnits = g.eliminateUnits := by
  refine eliminateUnits_eq_self g.unitFree_eliminateUnits fun name mem => ?_
  have ⟨_, _, kept⟩ := mem_alternatives_eliminateUnits.1 mem
  exact kept.resolve_right fun nonempty => nonempty rfl

theorem eliminateUseless_twice (wf : g.WellFormed) :
    g.eliminateUseless.eliminateUseless = g.eliminateUseless :=
  eliminateUseless_eq_self (wellFormed_eliminateUseless wf) (useful_eliminateUseless wf)
    (terminalsUsed_dropUnusedTerminals _)

end Grammar

namespace Pass

open Grammar

theorem exists_apply_twice {g : Grammar} (valid : g.validate = .ok ()) (pass : Pass) :
    ∃ h, pass.apply g = .ok h ∧ pass.apply h = .ok h := by
  have wf := validate_eq_ok_iff.1 valid
  cases pass with
  | epsilon => exact eliminateEpsilon_twice wf
  | unit => exact ⟨_, rfl, congrArg Except.ok (eliminateUnits_twice g)⟩
  | useless => exact ⟨_, rfl, congrArg Except.ok (eliminateUseless_twice wf)⟩
  | binarize =>
    have ⟨h, e, _, _, short⟩ := exists_binarize wf
    exact ⟨h, e, binarize_eq_self short⟩

theorem exists_apply_twice_crowded : crowded.validate = .ok () ∧
    ∀ pass : Pass, ∃ h, pass.apply crowded = .ok h ∧ pass.apply h = .ok h :=
  ⟨validate_crowded, exists_apply_twice validate_crowded⟩

end Pass

end ChomskyNormal
