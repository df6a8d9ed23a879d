import ChomskyNormal.Proofs.PassOrder

/-!
# The normal form of a grammar

Each pass establishes one property and keeps those of the passes before it: the empty alternative is
left to the start symbol alone, then there are no unit alternatives, then no useless symbols, then
no long alternatives. In the end the grammar is in normal form. If there is no word in the language,
nothing is left of the grammar but its start symbol and its terminals.
-/

namespace ChomskyNormal

theorem Alternative.isNormal_iff {right : Alternative} : Alternative.isNormal right = true ↔
    (∃ terminal, right = [.terminal terminal]) ∨
    ∃ first second, right = [.nonterminal first, .nonterminal second] := by
  constructor
  · intro h
    match right, h with
    | [.terminal terminal], _ => exact .inl ⟨terminal, rfl⟩
    | [.nonterminal first, .nonterminal second], _ => exact .inr ⟨first, second, rfl⟩
  · intro h
    cases h with
    | inl h =>
      obtain ⟨terminal, rfl⟩ := h
      rfl
    | inr h =>
      obtain ⟨first, second, rfl⟩ := h
      rfl

namespace Grammar

variable {g h : Grammar}

theorem isNormal_iff : g.isNormal = true ↔
    ∀ name, ∀ right ∈ g.alternatives name,
      Alternative.isNormal right = true ∨ right = [] ∧ name = g.start := by
  simp only [isNormal, List.all_eq_true, Prod.forall, mem_productions, Bool.or_eq_true,
    Bool.and_eq_true, List.isEmpty_iff, decide_eq_true_eq]

def UnitFree (g : Grammar) : Prop := ∀ name target, [.nonterminal target] ∉ g.alternatives name

theorem unitFree_eliminateUnits (g : Grammar) : g.eliminateUnits.UnitFree :=
  unit_not_mem_alternatives_eliminateUnits

theorem Conservative.unitFree (c : Conservative g h) (free : g.UnitFree) : h.UnitFree :=
  fun name target mem => free name target ((c.unit name target).1 mem)

theorem isNormal_of_shortened (empty : g.EmptyOnlyAtStart) (free : g.UnitFree)
    (short : g.Shortened) :
    g.isNormal = true := by
  rw [isNormal_iff]
  intro name right mem
  rcases short.rights name right mem with small | normal
  · match right, small with
    | [], _ => exact .inr ⟨rfl, (empty name mem).1⟩
    | [.terminal terminal], _ => exact .inl rfl
    | [.nonterminal target], _ => exact absurd mem (free name target)
  · exact .inl normal

theorem binarize_of_startAlone (alone : g.StartAlone) : g.binarize = .ok g.withoutRules := by
  have none : g.productions = [] := by
    apply List.eq_nil_iff_forall_not_mem.2
    intro (left, right) mem
    exact alone.2 left right (mem_productions.1 mem)
  rw [binarize, binarizeWith, none]
  rfl

theorem startAlone_withoutRules (alone : g.StartAlone) : g.withoutRules.StartAlone :=
  ⟨alone.1, fun _ _ => mem_alternatives_withoutRules⟩

theorem startAlone_iff (wf : g.WellFormed) (useful : g.AllUseful ∨ g.StartAlone) :
    g.StartAlone ↔ ∀ word, ¬ g.Generates word := by
  constructor
  · intro alone word d
    obtain ⟨right, mem, _⟩ := derives_nonterminal_iff.1 d
    exact alone.2 g.start right mem
  · intro none
    apply useful.resolve_left
    intro useful
    obtain ⟨_, word, d⟩ := useful g.start wf.start_declared
    exact none word d

structure Normalized (g : Grammar) : Prop where
  normal : g.isNormal = true
  empty : [] ∈ g.alternatives g.start → g.start ∉ g.mentioned
  useful : g.AllUseful ∨ g.StartAlone
  used : g.TerminalsUsed

theorem Normalized.emptyOnlyAtStart (n : g.Normalized) : g.EmptyOnlyAtStart := by
  intro name mem
  rcases isNormal_iff.1 n.normal name [] mem with normal | ⟨_, rfl⟩
  · exact nomatch normal
  · exact ⟨rfl, n.empty mem⟩

theorem Normalized.unitFree (n : g.Normalized) : g.UnitFree := by
  intro name target mem
  rcases isNormal_iff.1 n.normal name _ mem with normal | ⟨e, _⟩
  · exact nomatch normal
  · exact nomatch e

theorem exists_normalized_binarize (wf : g.WellFormed) (empty : g.EmptyOnlyAtStart)
    (free : g.UnitFree) (useful : g.AllUseful ∨ g.StartAlone) (used : g.TerminalsUsed) :
    ∃ h, g.binarize = .ok h ∧ h.WellFormed ∧ h.Normalized ∧ h.rules.keys = h.nonterminals := by
  obtain ⟨h, e, conservative, keeps, short⟩ := exists_binarize wf
  have empty' := conservative.emptyOnlyAtStart empty
  refine ⟨h, e, conservative.wellFormed, ?_, short.keys⟩
  exact {
    normal := isNormal_of_shortened empty' (conservative.unitFree free) short
    empty := fun mem => (empty' h.start mem).2
    useful := by
      apply useful.imp keeps
      intro alone
      rw [binarize_of_startAlone alone, Except.ok.injEq] at e
      rw [← e]
      exact startAlone_withoutRules alone
    used := conservative.terminalsUsed used }

theorem useful_eliminateUseless (wf : g.WellFormed) :
    g.eliminateUseless.AllUseful ∨ g.eliminateUseless.StartAlone := by
  by_cases productive : g.Productive g.start
  · exact .inl (allUseful_eliminateUseless wf productive)
  · exact .inr (startAlone_eliminateUseless wf productive)

theorem normalize_eq (wf : g.WellFormed) : g.normalize = Pass.all.foldlM Pass.apply g := by
  rw [normalize, validate_eq_ok_iff.2 wf]
  rfl

theorem normalize_of_eliminateEpsilon (wf : g.WellFormed) (e : g.eliminateEpsilon = .ok h) :
    g.normalize = h.eliminateUnits.eliminateUseless.binarize := by
  rw [normalize_eq wf]
  simp only [Pass.all, List.foldlM_cons, List.foldlM_nil, Pass.apply, e, bind, Except.bind]
  cases h.eliminateUnits.eliminateUseless.binarize with
  | error => rfl
  | ok => rfl

theorem exists_normalize (wf : g.WellFormed) :
    ∃ c, g.normalize = .ok c ∧ c.WellFormed ∧ c.Normalized ∧
    c.rules.keys = c.nonterminals ∧ ∀ word, c.Generates word ↔ g.Generates word := by
  obtain ⟨h, e, wfh, emptyh, _⟩ := exists_eliminateEpsilon wf
  have wfu := wellFormed_eliminateUnits wfh
  have emptyu := emptyOnlyAtStart_eliminateUnits emptyh
  have free : h.eliminateUnits.eliminateUseless.UnitFree := fun name target mem =>
    h.unitFree_eliminateUnits name target (alternatives_eliminateUseless_sub wfu name _ mem)
  obtain ⟨c, e', wfc, normalized, keys⟩ :=
    exists_normalized_binarize (wellFormed_eliminateUseless wfu)
    (emptyOnlyAtStart_eliminateUseless wfu emptyu) free (useful_eliminateUseless wfu)
    (terminalsUsed_dropUnusedTerminals _)
  have result : g.normalize = .ok c := (normalize_of_eliminateEpsilon wf e).trans e'
  obtain ⟨c', run, _, _, same⟩ := Pass.exists_run wf
    (.inr (Pass.unitAfterEpsilon_epsilon_cons [.unit, .useless, .binarize]))
  have unique : c' = c := Except.ok.inj (run.symm.trans ((normalize_eq wf).symm.trans result))
  exact ⟨c, result, wfc, normalized, keys, unique ▸ same⟩

theorem normalized_normalize (valid : g.validate = .ok ()) :
    ∃ c, g.normalize = .ok c ∧ c.validate = .ok () ∧
    c.Normalized ∧ (c.StartAlone ↔ ∀ word, ¬ g.Generates word) := by
  obtain ⟨c, e, wf, normalized, _, same⟩ := exists_normalize (validate_eq_ok_iff.1 valid)
  refine ⟨c, e, validate_eq_ok_iff.2 wf, normalized, ?_⟩
  rw [startAlone_iff wf normalized.useful]
  simp only [same]

theorem normalized_normalize_crowded : crowded.validate = .ok () ∧ ∃ c, crowded.normalize = .ok c ∧
    c.validate = .ok () ∧ c.Normalized ∧ (c.StartAlone ↔ ∀ word, ¬ crowded.Generates word) :=
  ⟨validate_crowded, normalized_normalize validate_crowded⟩

end Grammar

end ChomskyNormal
