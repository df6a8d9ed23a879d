import ChomskyNormal.Proofs.Membership

/-!
# Recognition in normal form

Normal form lets the start symbol keep the empty alternative even if it stands on right sides. A
cell of the chart combines nonempty spans only, so the chart never erases an inner start symbol:
everything it accepts is in the language, and of the language it misses the nonempty words that need
such an erasure.
-/

namespace ChomskyNormal

namespace Grammar

variable {g : Grammar}

theorem generates_of_withoutEmpty {word : List String} (d : g.withoutEmpty.Generates word) :
    g.Generates word :=
  Derives.mono (fun _ _ mem => (mem_alternatives_withoutEmpty.1 mem).1) d

theorem generates_nil_iff_of_normal (normal : g.isNormal = true) :
    g.Generates [] ↔ [] ∈ g.alternatives g.start := by
  -- A derivation of the empty word ends in empty alternatives, and in normal form there is only
  -- one.
  refine ⟨fun d => ?_, fun mem => derives_nonterminal_iff.2 ⟨[], mem, .nil⟩⟩
  by_contra absent
  have nonempty : ∀ name, [] ∉ g.alternatives name := by
    intro name mem
    rcases isNormal_iff.1 normal name [] mem with pair | ⟨_, start⟩
    · exact nomatch pair
    · exact absent (start ▸ mem)
  exact ne_nil_of_derives nonempty d (by simp) rfl

theorem emptyOnlyAtStart_of_normal (normal : g.isNormal = true)
    (alone : [] ∈ g.alternatives g.start → g.start ∉ g.mentioned) : g.EmptyOnlyAtStart := by
  intro name mem
  rcases isNormal_iff.1 normal name [] mem with pair | ⟨_, start⟩
  · exact nomatch pair
  · exact ⟨start, alone (start ▸ mem)⟩

/-- The empty word aside, the chart accepts what is derived without empty alternatives. So it
decides the language of `g` at `word` exactly when the word, if it is a nonempty one of the
language, has such a derivation, and at every word if a start symbol with the empty alternative is
on no right side. -/
theorem accepts_iff_generates (normal : g.isNormal = true) (word : List String) : ∃ accepted,
    g.accepts word = .ok accepted ∧ (accepted = true → g.Generates word) ∧
      ((accepted = true ↔ g.Generates word) ↔
        (word ≠ [] → g.Generates word → g.withoutEmpty.Generates word)) ∧
      (([] ∈ g.alternatives g.start → g.start ∉ g.mentioned) →
        (accepted = true ↔ g.Generates word)) := by
  have ⟨accepted, e, chart⟩ := exists_accepts normal word
  have sound : accepted = true → g.Generates word := by
    intro h
    rcases chart.1 h with ⟨nil, mem⟩ | ⟨_, d⟩
    · exact nil ▸ (generates_nil_iff_of_normal normal).2 mem
    · exact generates_of_withoutEmpty d
  have complete : (g.Generates word → accepted = true) ↔
      (word ≠ [] → g.Generates word → g.withoutEmpty.Generates word) := by
    by_cases nil : word = []
    · have all : g.Generates word → accepted = true := fun d =>
        chart.2 (.inl ⟨nil, (generates_nil_iff_of_normal normal).1 (nil ▸ d)⟩)
      exact ⟨fun _ nonempty => absurd nil nonempty, fun _ => all⟩
    · have accepted_iff : accepted = true ↔ g.withoutEmpty.Generates word := by
        simpa only [nil, false_and, false_or, ne_eq, not_false_eq_true, true_and] using chart
      rw [accepted_iff]
      exact ⟨fun h _ => h, fun h => h nil⟩
  have exact_iff : (accepted = true ↔ g.Generates word) ↔
      (word ≠ [] → g.Generates word → g.withoutEmpty.Generates word) :=
    ⟨fun same => complete.1 same.2, fun derived => ⟨sound, complete.2 derived⟩⟩
  refine ⟨accepted, e, sound, exact_iff, fun alone => exact_iff.2 fun nonempty d => ?_⟩
  exact (derives_withoutEmpty_iff (emptyOnlyAtStart_of_normal normal alone)).2 ⟨nonempty, d⟩

def paired : Grammar :=
  let names := OrderedSet.ofList ["S", "A"]
  addProductions ⟨"S", names, .ofList ["a"], .ofKeys names ∅⟩
    [("S", [.nonterminal "A", .nonterminal "A"]), ("S", []), ("A", [.terminal "a"])]

theorem accepts_paired_iff_generates : paired.isNormal = true ∧
    ([] ∈ paired.alternatives paired.start → paired.start ∉ paired.mentioned) ∧
      ∃ accepted, paired.accepts ["a", "a"] = .ok accepted ∧
        (accepted = true ↔ paired.Generates ["a", "a"]) :=
  have normal : paired.isNormal = true := by decide
  have alone : [] ∈ paired.alternatives paired.start → paired.start ∉ paired.mentioned := by decide
  have ⟨accepted, e, _, _, decides⟩ := accepts_iff_generates normal ["a", "a"]
  ⟨normal, alone, accepted, e, decides alone⟩

def tailed : Grammar :=
  let names := OrderedSet.ofList ["S", "A"]
  addProductions ⟨"S", names, .ofList ["a"], .ofKeys names ∅⟩
    [("S", [.nonterminal "A", .nonterminal "S"]), ("S", []), ("A", [.terminal "a"])]

/-- Of `A S` the first derives `a` and the second nothing, but no pair of cells covers a single
`a`. -/
theorem tailed_not_accepts_generated :
    tailed.validate = .ok () ∧ tailed.isNormal = true ∧ tailed.accepts ["a"] = .ok false ∧
    tailed.Generates ["a"] := by
  refine ⟨by decide, by decide, by decide, ?_⟩
  have inner : tailed.Generates [] := derives_nonterminal_iff.2 ⟨[], by decide, .nil⟩
  have first : tailed.Derives [.nonterminal "A"] ["a"] :=
    derives_nonterminal_iff.2 ⟨[.terminal "a"], by decide, .terminal .nil⟩
  exact derives_nonterminal_iff.2 ⟨_, by decide, derives_cons_iff.2 ⟨["a"], [], rfl, first, inner⟩⟩

end Grammar

end ChomskyNormal
