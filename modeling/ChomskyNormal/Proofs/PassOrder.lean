import ChomskyNormal.NormalForm
import ChomskyNormal.Proofs.Binary
import ChomskyNormal.Proofs.UnitFree

/-!
# Passes in any order

The epsilon pass leaves the empty alternative to a start symbol that stands on no right side, and no
other pass spoils that. The unit pass depends on it; all other passes keep the language of every
well-formed grammar. So the passes can be applied in any order in which no unit pass comes before
the first epsilon pass.
-/

namespace ChomskyNormal

namespace Pass

variable {g : Grammar}

theorem exists_apply (wf : g.WellFormed) (pass : Pass) (ready : pass = .unit → g.EmptyOnlyAtStart) :
    ∃ h, pass.apply g = .ok h ∧ h.WellFormed ∧
      (pass = .epsilon ∨ g.EmptyOnlyAtStart → h.EmptyOnlyAtStart) ∧
      ∀ word, h.Generates word ↔ g.Generates word := by
  cases pass with
  | epsilon =>
    obtain ⟨h, e, wf', empty, same⟩ := Grammar.exists_eliminateEpsilon wf
    exact ⟨h, e, wf', fun _ => empty, same⟩
  | unit =>
    have empty := ready rfl
    exact ⟨_, rfl, Grammar.wellFormed_eliminateUnits wf,
      fun _ => Grammar.emptyOnlyAtStart_eliminateUnits empty,
        fun word => Grammar.derives_eliminateUnits_iff empty⟩
  | useless =>
    refine ⟨_, rfl, Grammar.wellFormed_eliminateUseless wf, fun empty => ?_,
      fun word => Grammar.generates_eliminateUseless_iff wf⟩
    exact Grammar.emptyOnlyAtStart_eliminateUseless wf (empty.resolve_left (by simp))
  | binarize =>
    obtain ⟨h, e, conservative, _, _⟩ := Grammar.exists_binarize wf
    refine ⟨h, e, conservative.wellFormed, fun empty => ?_,
      fun word => conservative.generates_iff wf⟩
    exact conservative.emptyOnlyAtStart (empty.resolve_left (by simp))

/-- No unit pass comes before the first epsilon pass. -/
def UnitAfterEpsilon (passes : List Pass) : Prop :=
  ∀ before after, passes = before ++ unit :: after → epsilon ∈ before

theorem UnitAfterEpsilon.of_prefix {done passes : List Pass} (order : UnitAfterEpsilon passes)
    (h : done <+: passes) : UnitAfterEpsilon done := by
  obtain ⟨rest, rfl⟩ := h
  intro before after e
  exact order before (after ++ rest) (by rw [e, List.append_assoc, List.cons_append])

theorem UnitAfterEpsilon.tail {pass : Pass} {passes : List Pass}
    (order : UnitAfterEpsilon (pass :: passes)) (other : pass ≠ epsilon) :
    UnitAfterEpsilon passes := by
  intro before after e
  have mem := order (pass :: before) after (by rw [e, List.cons_append])
  exact (List.mem_cons.1 mem).resolve_left other.symm

theorem unitAfterEpsilon_epsilon_cons (passes : List Pass) :
    UnitAfterEpsilon (epsilon :: passes) := by
  intro before after e
  match before, e with
  | [], e => exact nomatch (List.cons.inj e).1
  | pass :: _, e =>
    rw [← (List.cons.inj e).1]
    exact .head _

theorem UnitAfterEpsilon.cons {pass : Pass} {passes : List Pass} (order : UnitAfterEpsilon passes)
    (other : pass ≠ unit) : UnitAfterEpsilon (pass :: passes) := by
  intro before after e
  match before, e with
  | [], e => exact absurd (List.cons.inj e).1 other
  | _ :: before, e => exact .tail _ (order before after (List.cons.inj e).2)

theorem exists_run {passes : List Pass} (wf : g.WellFormed)
    (order : g.EmptyOnlyAtStart ∨ UnitAfterEpsilon passes) :
    ∃ h, passes.foldlM apply g = .ok h ∧ h.WellFormed ∧
      (epsilon ∈ passes ∨ g.EmptyOnlyAtStart → h.EmptyOnlyAtStart) ∧
        ∀ word, h.Generates word ↔ g.Generates word := by
  induction passes generalizing g with
  | nil => exact ⟨g, rfl, wf, fun empty => empty.resolve_left (by simp), fun _ => Iff.rfl⟩
  | cons pass passes ih =>
    have ready : pass = .unit → g.EmptyOnlyAtStart := by
      intro e
      apply order.resolve_right
      intro order
      have := order [] passes (by rw [e, List.nil_append])
      contradiction
    obtain ⟨h, e, wf', empty, same⟩ := exists_apply wf pass ready
    have order' : h.EmptyOnlyAtStart ∨ UnitAfterEpsilon passes := by
      by_cases first : pass = epsilon
      · exact .inl (empty (.inl first))
      · exact order.imp (fun h => empty (.inr h)) fun h => h.tail first
    obtain ⟨k, e', wf'', empty', same'⟩ := ih wf' order'
    refine ⟨k, ?_, wf'', fun h => ?_, fun word => (same' word).trans (same word)⟩
    · rw [List.foldlM_cons, e]
      exact e'
    · rw [List.mem_cons, or_assoc, or_left_comm] at h
      exact empty' (h.imp id fun h => empty (h.imp Eq.symm id))

theorem exists_trace {passes : List Pass} {p : Grammar → Prop}
    (run : ∀ done, done <+: passes → ∃ h, done.foldlM apply g = .ok h ∧ p h) :
    ∃ steps, trace g passes = .ok steps ∧ steps.map Prod.fst = passes ∧
      ∀ step ∈ steps, p step.2 := by
  induction passes generalizing g with
  | nil => exact ⟨[], rfl, rfl, by simp⟩
  | cons pass passes ih =>
    obtain ⟨h, e, ph⟩ : ∃ h, pass.apply g = .ok h ∧ p h := by
      obtain ⟨h, e, ph⟩ := run [pass] ⟨passes, rfl⟩
      exact ⟨h, by simpa using e, ph⟩
    obtain ⟨steps, e', names, all⟩ := ih fun done sub => by
      obtain ⟨k, e', pk⟩ := run (pass :: done) (List.cons_prefix_cons.2 ⟨rfl, sub⟩)
      rw [List.foldlM_cons, e] at e'
      exact ⟨k, e', pk⟩
    refine ⟨(pass, h) :: steps, ?_, by simp [names], ?_⟩
    · rw [trace, e]
      change (do let later ← trace h passes; return (pass, h) :: later : Except GrammarError _) = _
      rw [e']
      rfl
    · exact List.forall_mem_cons.2 ⟨ph, all⟩

end Pass

namespace Grammar

variable {g : Grammar}

theorem generates_after_passes (valid : g.validate = .ok ()) {passes : List Pass}
    (order : Pass.UnitAfterEpsilon passes) :
    (∀ done, done <+: passes → ∃ h, done.foldlM Pass.apply g = .ok h ∧ ∀ word, h.Generates word ↔
      g.Generates word) ∧
      ∃ steps, g.normalizationSteps = .ok steps ∧ steps.map Prod.fst = Pass.all ∧
        ∀ step ∈ steps, ∀ word, step.2.Generates word ↔ g.Generates word := by
  have wf := validate_eq_ok_iff.1 valid
  have run : ∀ passes, Pass.UnitAfterEpsilon passes → ∀ done, done <+: passes →
      ∃ h, done.foldlM Pass.apply g = .ok h ∧ ∀ word, h.Generates word ↔ g.Generates word := by
    intro passes order done sub
    obtain ⟨h, e, _, _, same⟩ := Pass.exists_run wf (.inr (order.of_prefix sub))
    exact ⟨h, e, same⟩
  refine ⟨run passes order, ?_⟩
  obtain ⟨steps, e, names, same⟩ :=
    Pass.exists_trace (run Pass.all (Pass.unitAfterEpsilon_epsilon_cons _))
  refine ⟨steps, ?_, names, same⟩
  rw [normalizationSteps, valid]
  exact e

def crowded : Grammar :=
  let names := OrderedSet.ofList ["S", "S'", "V1", "T_a"]
  addProductions ⟨"S", names, .ofList ["a", "b"], .ofKeys names ∅⟩
    [("S", [.nonterminal "V1", .nonterminal "S", .terminal "a", .nonterminal "T_a"]), ("S", []),
      ("S'", [.nonterminal "S'", .terminal "b"]), ("V1", [.nonterminal "S"]),
      ("V1", [.nonterminal "T_a"]),
      ("T_a", [.terminal "a"])]

theorem validate_crowded : crowded.validate = .ok () := by decide

theorem generates_after_passes_crowded : crowded.validate = .ok () ∧
    Pass.UnitAfterEpsilon [.binarize, .epsilon, .unit, .useless, .unit] ∧
      ∀ done, done <+: [Pass.binarize, .epsilon, .unit, .useless, .unit] →
        ∃ h, done.foldlM Pass.apply crowded = .ok h ∧ ∀ word, h.Generates word ↔
          crowded.Generates word :=
  have order := (Pass.unitAfterEpsilon_epsilon_cons [.unit, .useless, .unit]).cons (by decide)
  ⟨validate_crowded, order, (generates_after_passes validate_crowded order).1⟩

end Grammar

end ChomskyNormal
