import ChomskyNormal.NormalForm
import ChomskyNormal.Proofs.EpsilonFree
import ChomskyNormal.Proofs.Search

/-!
# Unit elimination

An alternative that is taken over along a chain of unit alternatives derives nothing new. Nothing is
lost either as long as the empty alternative belongs to the start symbol alone, and no right side
leads there.
-/

namespace ChomskyNormal

namespace Grammar

variable {g : Grammar}

abbrev UnitChain (g : Grammar) : String → String → Prop := Relation.ReflTransGen g.LeadsUnit

theorem mem_keys_of_unitChain {name other : String} (chain : g.UnitChain name other)
    {right : Alternative} (mem : right ∈ g.alternatives other) : name ∈ g.rules.keys := by
  rcases Relation.ReflTransGen.cases_head chain with rfl | ⟨_, unit, _⟩
  · exact mem_keys_of_mem_alternatives mem
  · exact mem_keys_of_mem_alternatives unit

theorem mem_unitFreeRights {name : String} {right : Alternative} : right ∈ g.unitFreeRights name ↔
    (∃ other, g.UnitChain name other ∧ right ∈ g.alternatives other) ∧
      unitTarget? right = none ∧ (name = g.start ∨ right ≠ []) := by
  simp only [unitFreeRights, OrderedSet.mem_ofList, List.mem_filter, List.mem_flatMap,
    OrderedSet.mem_toList, mem_unitClosure_iff, Bool.and_eq_true, Bool.or_eq_true,
      decide_eq_true_eq, Option.isNone_iff_eq_none]

theorem mem_alternatives_eliminateUnits {name : String} {right : Alternative} :
    right ∈ g.eliminateUnits.alternatives name ↔
      (∃ other, g.UnitChain name other ∧ right ∈ g.alternatives other) ∧
        unitTarget? right = none ∧ (name = g.start ∨ right ≠ []) := by
  rw [← mem_unitFreeRights, alternatives, eliminateUnits, OrderedMap.get?_mapValues]
  cases e : g.rules.get? name with
  | some => rfl
  | none =>
    have absent := OrderedMap.get?_eq_none_iff.1 e
    constructor
    · intro mem
      simp at mem
    · intro mem
      obtain ⟨⟨_, chain, mem⟩, _⟩ := mem_unitFreeRights.1 mem
      exact absurd (mem_keys_of_unitChain chain mem) absent

theorem derives_of_unitChain {name other : String} (chain : g.UnitChain name other)
    {word : List String} (d : g.Derives [.nonterminal other] word) :
    g.Derives [.nonterminal name] word := by
  induction chain with
  | refl => exact d
  | tail _ unit ih => exact ih (derives_nonterminal_iff.2 ⟨_, unit, d⟩)

theorem derives_of_derives_eliminateUnits {form : List Symbol} {word : List String}
    (d : g.eliminateUnits.Derives form word) : g.Derives form word := by
  apply d.simulate
  intro name right mem word d
  obtain ⟨⟨other, chain, mem⟩, _⟩ := mem_alternatives_eliminateUnits.1 mem
  exact derives_of_unitChain chain (derives_nonterminal_iff.2 ⟨right, mem, d⟩)

theorem mentioned_of_unitChain {name other : String} (chain : g.UnitChain name other)
    (h : name ∈ g.mentioned) : other ∈ g.mentioned := by
  rcases Relation.ReflTransGen.cases_tail chain with rfl | ⟨left, _, unit⟩
  · exact h
  · exact mem_mentioned.2 ⟨left, _, unit, .head _⟩

theorem derives_eliminateUnits_iff (empty : g.EmptyOnlyAtStart) {form : List Symbol}
    {word : List String} :
    g.eliminateUnits.Derives form word ↔ g.Derives form word := by
  refine ⟨derives_of_derives_eliminateUnits, fun d => d.simulate fun name right mem word d => ?_⟩
  cases e : unitTarget? right with
  | none =>
    have kept : name = g.start ∨ right ≠ [] := by
      by_cases h : right = []
      · exact .inl (empty name (h ▸ mem)).1
      · exact .inr h
    exact derives_nonterminal_iff.2
      ⟨right, mem_alternatives_eliminateUnits.2 ⟨⟨name, .refl, mem⟩, e, kept⟩, d⟩
  | some target =>
    obtain rfl := unitTarget?_eq_some_iff.1 e
    obtain ⟨right, mem', d⟩ := derives_nonterminal_iff.1 d
    obtain ⟨⟨other, chain, mem'⟩, unit, _⟩ := mem_alternatives_eliminateUnits.1 mem'
    -- The chain starts on a right side, so it does not end at an empty alternative.
    have nonempty : right ≠ [] := by
      intro same
      subst same
      obtain ⟨rfl, alone⟩ := empty other mem'
      exact alone (mentioned_of_unitChain chain (mem_mentioned.2 ⟨name, _, mem, .head _⟩))
    exact derives_nonterminal_iff.2 ⟨right, mem_alternatives_eliminateUnits.2
      ⟨⟨other, .head mem chain, mem'⟩, unit, .inr nonempty⟩, d⟩

theorem wellFormed_eliminateUnits (wf : g.WellFormed) : g.eliminateUnits.WellFormed where
  nonterminals_inhabited := wf.nonterminals_inhabited
  terminals_inhabited := wf.terminals_inhabited
  disjoint := wf.disjoint
  start_declared := wf.start_declared
  lefts_declared := by
    intro name mem
    rw [eliminateUnits, OrderedMap.keys_mapValues] at mem
    exact wf.lefts_declared name mem
  rights_declared := by
    intro name right mem symbol hs
    obtain ⟨⟨other, _, mem⟩, _⟩ := mem_alternatives_eliminateUnits.1 mem
    exact wf.rights_declared other right mem symbol hs

theorem emptyOnlyAtStart_eliminateUnits (empty : g.EmptyOnlyAtStart) :
    g.eliminateUnits.EmptyOnlyAtStart := by
  intro name mem
  obtain ⟨⟨other, _, mem⟩, _, start | nonempty⟩ := mem_alternatives_eliminateUnits.1 mem
  · refine ⟨start, fun h => (empty other mem).2 ?_⟩
    obtain ⟨left, right, mem', hs⟩ := mem_mentioned.1 h
    obtain ⟨⟨source, _, mem'⟩, _⟩ := mem_alternatives_eliminateUnits.1 mem'
    exact mem_mentioned.2 ⟨source, right, mem', hs⟩
  · exact absurd rfl nonempty

theorem unit_not_mem_alternatives_eliminateUnits (name target : String) :
    [.nonterminal target] ∉ g.eliminateUnits.alternatives name := by
  intro mem
  obtain ⟨_, unit, _⟩ := mem_alternatives_eliminateUnits.1 mem
  exact nomatch unit

/-- Words can be lost only where the empty alternative stands elsewhere, or its owner on a right
side. -/
theorem eliminateUnits_exact (g : Grammar) :
    (∀ name target, [.nonterminal target] ∉ g.eliminateUnits.alternatives name) ∧
      (∀ name word, g.eliminateUnits.Derives [.nonterminal name] word →
        g.Derives [.nonterminal name] word) ∧
      (g.EmptyOnlyAtStart → ∀ name word,
        g.eliminateUnits.Derives [.nonterminal name] word ↔ g.Derives [.nonterminal name] word) :=
  ⟨unit_not_mem_alternatives_eliminateUnits, fun _ _ => derives_of_derives_eliminateUnits,
    fun empty _ _ => derives_eliminateUnits_iff empty⟩

def circular : Grammar :=
  let names := OrderedSet.ofList ["S", "A", "B", "C"]
  addProductions ⟨"S", names, .ofList ["a", "b"], .ofKeys names ∅⟩
    [("S", []), ("S", [.nonterminal "A"]), ("A", [.nonterminal "B"]),
      ("A", [.terminal "a", .nonterminal "A"]), ("B", [.nonterminal "C"]),
        ("C", [.nonterminal "A"]), ("C", [.terminal "b"])]

theorem eliminateUnits_exact_circular : circular.EmptyOnlyAtStart ∧ ∀ name word,
    circular.eliminateUnits.Derives [.nonterminal name] word ↔
      circular.Derives [.nonterminal name] word := by
  have empty : circular.EmptyOnlyAtStart := by
    intro name mem
    have start : name = "S" := by
      rcases mem_alternatives_addProductions.1 mem with mem | mem
      · exact absurd mem (not_mem_alternatives_of_ofKeys rfl)
      · simpa using mem
    exact ⟨start, by decide⟩
  exact ⟨empty, (eliminateUnits_exact circular).2.2 empty⟩

end Grammar

end ChomskyNormal
