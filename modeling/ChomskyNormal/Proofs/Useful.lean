import ChomskyNormal.NormalForm
import ChomskyNormal.Proofs.EpsilonFree
import ChomskyNormal.Proofs.Search

/-!
# Elimination of useless symbols

A derivation of a word from the start symbol uses productive and reachable nonterminals only, so
dropping the others loses no word. What stays is productive and reachable in the grammar that is
left, unless no word is derived at all: then the start symbol stays alone.
-/

namespace ChomskyNormal

namespace Grammar

variable {g : Grammar}

theorem mem_retainNonterminals {keep : String → Bool} {name : String} :
    name ∈ (g.retainNonterminals keep).nonterminals ↔
      name ∈ g.nonterminals ∧ (name = g.start ∨ keep name) := by
  simp [retainNonterminals]

theorem mem_alternatives_retainNonterminals {keep : String → Bool} {name : String}
    {right : Alternative} :
    right ∈ (g.retainNonterminals keep).alternatives name ↔
      name ∈ (g.retainNonterminals keep).nonterminals ∧ right ∈ g.alternatives name := by
  simp only [alternatives, retainNonterminals, OrderedMap.get?_filterKeys, decide_eq_true_eq]
  split
  · next h => simp only [h, true_and]
  · next h => simp [h]

theorem mem_keys_retainNonterminals {keep : String → Bool} {name : String} :
    name ∈ (g.retainNonterminals keep).rules.keys ↔
      name ∈ g.rules.keys ∧ name ∈ (g.retainNonterminals keep).nonterminals := by
  rw [retainNonterminals, OrderedMap.keys_filterKeys, OrderedSet.mem_filter, decide_eq_true_eq]

theorem wellFormed_retainNonterminals (wf : g.WellFormed) {keep : String → Bool}
    (closed : ∀ name, name = g.start ∨ keep name → ∀ right ∈ g.alternatives name,
      ∀ other, .nonterminal other ∈ right → keep other) :
        (g.retainNonterminals keep).WellFormed where
  nonterminals_inhabited := ⟨g.start, mem_retainNonterminals.2 ⟨wf.start_declared, .inl rfl⟩⟩
  terminals_inhabited := wf.terminals_inhabited
  disjoint := fun name mem => wf.disjoint name (mem_retainNonterminals.1 mem).1
  start_declared := mem_retainNonterminals.2 ⟨wf.start_declared, .inl rfl⟩
  lefts_declared := fun _ mem => (mem_keys_retainNonterminals.1 mem).2
  rights_declared := by
    intro name right mem symbol hs
    obtain ⟨stays, mem⟩ := mem_alternatives_retainNonterminals.1 mem
    have declared := wf.rights_declared name right mem symbol hs
    cases symbol with
    | terminal => exact declared
    | nonterminal other =>
      exact mem_retainNonterminals.2 ⟨declared,
        .inr (closed name (mem_retainNonterminals.1 stays).2 right mem other hs)⟩

def prune (g : Grammar) : Grammar :=
  { g with rules := g.rules.mapValues fun _ rights => rights.filter fun right =>
      (right.filterMap Symbol.nonterminal?).all fun name => name ∈ g.productive }

theorem usable_iff {right : Alternative} :
    ((right.filterMap Symbol.nonterminal?).all fun name => decide (name ∈ g.productive)) ↔
      ∀ other, .nonterminal other ∈ right → g.Productive other := by
  simp only [List.all_eq_true, List.mem_filterMap, decide_eq_true_eq, mem_productive_iff]
  constructor
  · exact fun h other mem => h other ⟨_, mem, rfl⟩
  · intro h other ⟨symbol, mem, e⟩
    cases symbol with
    | terminal => simp [Symbol.nonterminal?] at e
    | nonterminal => exact h other (Option.some.inj e ▸ mem)

theorem mem_alternatives_prune {name : String} {right : Alternative} :
    right ∈ g.prune.alternatives name ↔
      right ∈ g.alternatives name ∧ ∀ other, .nonterminal other ∈ right → g.Productive other := by
  simp only [alternatives, prune, OrderedMap.get?_mapValues]
  cases g.rules.get? name with
  | none => simp
  | some rights => simp only [Option.map_some, Option.getD_some, OrderedSet.mem_filter, usable_iff]

theorem derives_prune_iff {form : List Symbol} {word : List String} :
    g.prune.Derives form word ↔ g.Derives form word := by
  constructor
  · exact fun d => d.mono fun name right mem => (mem_alternatives_prune.1 mem).1
  · intro d
    refine d.restrict (p := fun _ => True) (fun name _ right mem word d => ?_) fun _ _ => trivial
    exact ⟨mem_alternatives_prune.2 ⟨mem, fun other hs => d.exists_of_mem hs⟩, fun _ _ => trivial⟩

theorem productive_of_mem_prune {name : String} {right : Alternative}
    (mem : right ∈ g.prune.alternatives name) :
    g.Productive name := by
  obtain ⟨mem, all⟩ := mem_alternatives_prune.1 mem
  obtain ⟨word, d⟩ := exists_derives_of_productive all
  exact ⟨word, derives_nonterminal_iff.2 ⟨right, mem, d⟩⟩

theorem wellFormed_prune (wf : g.WellFormed) : g.prune.WellFormed where
  nonterminals_inhabited := wf.nonterminals_inhabited
  terminals_inhabited := wf.terminals_inhabited
  disjoint := wf.disjoint
  start_declared := wf.start_declared
  lefts_declared := by
    intro name mem
    rw [prune, OrderedMap.keys_mapValues] at mem
    exact wf.lefts_declared name mem
  rights_declared := fun name right mem =>
    wf.rights_declared name right (mem_alternatives_prune.1 mem).1

theorem dropUnproductive_eq :
    g.dropUnproductive = g.prune.retainNonterminals fun name => name ∈ g.productive :=
  rfl

theorem mem_dropUnproductive {name : String} :
    name ∈ g.dropUnproductive.nonterminals ↔
      name ∈ g.nonterminals ∧ (name = g.start ∨ g.Productive name) := by
  rw [dropUnproductive_eq, mem_retainNonterminals, decide_eq_true_eq, mem_productive_iff]
  rfl

theorem mem_alternatives_dropUnproductive (wf : g.WellFormed) {name : String}
    {right : Alternative} :
    right ∈ g.dropUnproductive.alternatives name ↔ right ∈ g.prune.alternatives name := by
  rw [dropUnproductive_eq, mem_alternatives_retainNonterminals, mem_retainNonterminals,
    decide_eq_true_eq, mem_productive_iff]
  constructor
  · exact And.right
  · exact fun mem =>
      ⟨⟨(wellFormed_prune wf).left_declared mem, .inr (productive_of_mem_prune mem)⟩, mem⟩

theorem derives_dropUnproductive_iff (wf : g.WellFormed) {form : List Symbol} {word : List String} :
    g.dropUnproductive.Derives form word ↔ g.Derives form word :=
  (derives_congr fun _ _ => mem_alternatives_dropUnproductive wf).trans derives_prune_iff

theorem wellFormed_dropUnproductive (wf : g.WellFormed) : g.dropUnproductive.WellFormed := by
  apply wellFormed_retainNonterminals (wellFormed_prune wf)
  intro name _ right mem other hs
  rw [decide_eq_true_eq, mem_productive_iff]
  exact (mem_alternatives_prune.1 mem).2 other hs

theorem mem_dropUnreachable {name : String} :
    name ∈ g.dropUnreachable.nonterminals ↔ name ∈ g.nonterminals ∧ g.Reachable name := by
  rw [dropUnreachable, mem_retainNonterminals, decide_eq_true_eq, mem_reachable_iff]
  constructor
  · intro found
    rcases found with ⟨declared, rfl | reachable⟩
    · exact ⟨declared, .refl⟩
    · exact ⟨declared, reachable⟩
  · exact fun ⟨declared, reachable⟩ => ⟨declared, .inr reachable⟩

theorem mem_alternatives_dropUnreachable (wf : g.WellFormed) {name : String} {right : Alternative} :
    right ∈ g.dropUnreachable.alternatives name ↔
      g.Reachable name ∧ right ∈ g.alternatives name := by
  have key : name ∈ g.dropUnreachable.nonterminals ↔ _ := mem_dropUnreachable
  rw [dropUnreachable] at key ⊢
  rw [mem_alternatives_retainNonterminals, key]
  constructor
  · exact fun ⟨⟨_, reachable⟩, mem⟩ => ⟨reachable, mem⟩
  · exact fun ⟨reachable, mem⟩ => ⟨⟨wf.left_declared mem, reachable⟩, mem⟩

theorem reachable_of_mem {name other : String} (reachable : g.Reachable name) {right : Alternative}
    (mem : right ∈ g.alternatives name) (hs : .nonterminal other ∈ right) : g.Reachable other :=
  reachable.tail ⟨right, mem, hs⟩

theorem derives_dropUnreachable_iff (wf : g.WellFormed) {name : String}
    (reachable : g.Reachable name) {word : List String} :
    g.dropUnreachable.Derives [.nonterminal name] word ↔ g.Derives [.nonterminal name] word := by
  constructor
  · exact fun d => d.mono fun name right mem => ((mem_alternatives_dropUnreachable wf).1 mem).2
  · refine fun d =>
      d.restrict (p := g.Reachable) (fun left hl right mem _ _ => ?_) fun other hs => ?_
    · exact ⟨(mem_alternatives_dropUnreachable wf).2 ⟨hl, mem⟩,
        fun _ hs => reachable_of_mem hl mem hs⟩
    · rw [List.mem_singleton, Symbol.nonterminal.injEq] at hs
      exact hs ▸ reachable

theorem reachable_dropUnreachable (wf : g.WellFormed) {name : String}
    (reachable : g.Reachable name) :
    g.dropUnreachable.Reachable name := by
  induction reachable with
  | refl => exact .refl
  | tail path step ih =>
    obtain ⟨right, mem, hs⟩ := step
    exact ih.tail ⟨right, (mem_alternatives_dropUnreachable wf).2 ⟨path, mem⟩, hs⟩

theorem wellFormed_dropUnreachable (wf : g.WellFormed) : g.dropUnreachable.WellFormed := by
  apply wellFormed_retainNonterminals wf
  intro name stays right mem other hs
  rw [decide_eq_true_eq, mem_reachable_iff] at stays ⊢
  have reachable : g.Reachable name := by
    rcases stays with rfl | reachable
    · exact .refl
    · exact reachable
  exact reachable_of_mem reachable mem hs

def Uses (g : Grammar) (terminal : String) : Prop :=
  ∃ name, ∃ right ∈ g.alternatives name, .terminal terminal ∈ right

theorem mem_usedTerminals_iff {terminal : String} :
    terminal ∈ g.usedTerminals ↔ g.Uses terminal := by
  have key (symbol : Symbol) : symbol.terminal? = some terminal ↔ symbol = .terminal terminal := by
    cases symbol <;> simp [Symbol.terminal?]
  simp [usedTerminals, Uses, mem_productions, key]

theorem dropUnusedTerminals_eq (g : Grammar) :
    ∃ kept : OrderedSet String, g.dropUnusedTerminals = { g with terminals := kept } ∧
      ((∀ terminal, ¬ g.Uses terminal) ∧ kept = g.terminals ∨
        (∃ terminal, g.Uses terminal) ∧ ∀ terminal, terminal ∈ kept ↔
          terminal ∈ g.terminals ∧ g.Uses terminal) := by
  have key : ∀ terminal, terminal ∈ OrderedSet.ofList g.usedTerminals ↔
      g.Uses terminal := fun terminal => by
    rw [OrderedSet.mem_ofList, mem_usedTerminals_iff]
  by_cases e : (OrderedSet.ofList g.usedTerminals).isEmpty
  · refine ⟨g.terminals, if_pos e, .inl ⟨fun terminal uses => ?_, rfl⟩⟩
    rw [isEmpty_false_of_mem ((key terminal).2 uses)] at e
    contradiction
  · obtain ⟨terminal, mem⟩ := exists_mem_of_isEmpty_false (by simpa using e)
    refine ⟨_, if_neg e, .inr ⟨⟨terminal, (key terminal).1 mem⟩, fun terminal => ?_⟩⟩
    rw [OrderedSet.mem_filter, decide_eq_true_eq, key]

/-- Every declared terminal is used, if there is any use at all. -/
def TerminalsUsed (g : Grammar) : Prop :=
  (∀ terminal ∈ g.terminals, g.Uses terminal) ∨ ∀ terminal, ¬ g.Uses terminal

theorem mem_terminals_dropUnusedTerminals {terminal : String} :
    terminal ∈ g.dropUnusedTerminals.terminals ↔
      terminal ∈ g.terminals ∧ (g.Uses terminal ∨ ∀ other, ¬ g.Uses other) := by
  obtain ⟨kept, e, ⟨none, rfl⟩ | ⟨⟨witness, uses⟩, some⟩⟩ := g.dropUnusedTerminals_eq
  · rw [e]
    exact (and_iff_left (.inr none)).symm
  · rw [e]
    exact (some terminal).trans
      (and_congr_right fun _ => (or_iff_left fun none => none witness uses).symm)

theorem terminalsUsed_dropUnusedTerminals (g : Grammar) : g.dropUnusedTerminals.TerminalsUsed := by
  obtain ⟨kept, e, ⟨none, _⟩ | ⟨_, some⟩⟩ := g.dropUnusedTerminals_eq
  · rw [e]
    exact .inr none
  · rw [e]
    exact .inl fun terminal mem => ((some terminal).1 mem).2

theorem wellFormed_dropUnusedTerminals (wf : g.WellFormed) : g.dropUnusedTerminals.WellFormed := by
  obtain ⟨kept, e, ⟨none, rfl⟩ | ⟨⟨witness, uses⟩, some⟩⟩ := g.dropUnusedTerminals_eq
  · rw [e]
    exact wf
  · rw [e]
    have declared : ∀ terminal, g.Uses terminal → terminal ∈ g.terminals := by
      intro terminal found
      obtain ⟨name, right, mem, hs⟩ := found
      exact wf.rights_declared name right mem _ hs
    exact {
      nonterminals_inhabited := wf.nonterminals_inhabited
      terminals_inhabited := ⟨witness, (some witness).2 ⟨declared witness uses, uses⟩⟩
      disjoint := fun name mem h => wf.disjoint name mem ((some name).1 h).1
      start_declared := wf.start_declared
      lefts_declared := wf.lefts_declared
      rights_declared := by
        intro name right mem symbol hs
        have := wf.rights_declared name right mem symbol hs
        cases symbol with
        | terminal terminal => exact (some terminal).2 ⟨this, name, right, mem, hs⟩
        | nonterminal => exact this }

theorem eliminateUseless_eq (g : Grammar) : ∃ kept : OrderedSet String,
    g.eliminateUseless = { g.dropUnproductive.dropUnreachable with terminals := kept } := by
  obtain ⟨kept, e, _⟩ := g.dropUnproductive.dropUnreachable.dropUnusedTerminals_eq
  exact ⟨kept, e⟩

theorem mem_alternatives_eliminateUseless (wf : g.WellFormed) {name : String}
    {right : Alternative} :
    right ∈ g.eliminateUseless.alternatives name ↔
      g.dropUnproductive.Reachable name ∧ right ∈ g.prune.alternatives name := by
  obtain ⟨kept, e⟩ := g.eliminateUseless_eq
  rw [e, ← mem_alternatives_dropUnproductive wf]
  exact mem_alternatives_dropUnreachable (wellFormed_dropUnproductive wf)

theorem mem_eliminateUseless {name : String} : name ∈ g.eliminateUseless.nonterminals ↔
    (name ∈ g.nonterminals ∧ (name = g.start ∨ g.Productive name)) ∧
    g.dropUnproductive.Reachable name := by
  obtain ⟨kept, e⟩ := g.eliminateUseless_eq
  rw [e, ← mem_dropUnproductive]
  exact mem_dropUnreachable

theorem mem_terminals_eliminateUseless {terminal : String} :
    terminal ∈ g.eliminateUseless.terminals ↔
      terminal ∈ g.terminals ∧
      (g.eliminateUseless.Uses terminal ∨ ∀ other, ¬ g.eliminateUseless.Uses other) := by
  rw [eliminateUseless, mem_terminals_dropUnusedTerminals]
  obtain ⟨kept, e⟩ := g.eliminateUseless_eq
  rw [eliminateUseless] at e
  rw [e]
  exact Iff.rfl

theorem wellFormed_eliminateUseless (wf : g.WellFormed) : g.eliminateUseless.WellFormed :=
  wellFormed_dropUnusedTerminals (wellFormed_dropUnreachable (wellFormed_dropUnproductive wf))

theorem derives_eliminateUseless_iff (wf : g.WellFormed) {name : String}
    (reachable : g.dropUnproductive.Reachable name) {word : List String} :
    g.eliminateUseless.Derives [.nonterminal name] word ↔ g.Derives [.nonterminal name] word := by
  rw [← derives_dropUnproductive_iff wf,
    ← derives_dropUnreachable_iff (wellFormed_dropUnproductive wf) reachable]
  obtain ⟨kept, e⟩ := g.eliminateUseless_eq
  rw [e]
  apply derives_congr
  intro name right
  exact Iff.rfl

theorem start_eliminateUseless (g : Grammar) : g.eliminateUseless.start = g.start := by
  obtain ⟨kept, e⟩ := g.eliminateUseless_eq
  rw [e]
  rfl

theorem generates_eliminateUseless_iff (wf : g.WellFormed) {word : List String} :
    g.eliminateUseless.Generates word ↔ g.Generates word := by
  rw [Generates, start_eliminateUseless]
  exact derives_eliminateUseless_iff wf .refl

theorem mentioned_of_sub {h : Grammar}
    (sub : ∀ name, ∀ right ∈ h.alternatives name, right ∈ g.alternatives name) {name : String}
    (mem : name ∈ h.mentioned) : name ∈ g.mentioned := by
  obtain ⟨left, right, mem, hs⟩ := mem_mentioned.1 mem
  exact mem_mentioned.2 ⟨left, right, sub left right mem, hs⟩

theorem alternatives_eliminateUseless_sub (wf : g.WellFormed) :
    ∀ name, ∀ right ∈ g.eliminateUseless.alternatives name, right ∈ g.alternatives name :=
  fun _ _ mem => (mem_alternatives_prune.1 ((mem_alternatives_eliminateUseless wf).1 mem).2).1

theorem emptyOnlyAtStart_eliminateUseless (wf : g.WellFormed) (empty : g.EmptyOnlyAtStart) :
    g.eliminateUseless.EmptyOnlyAtStart := by
  intro name mem
  have sub := alternatives_eliminateUseless_sub wf
  obtain ⟨rfl, alone⟩ := empty name (sub name [] mem)
  rw [start_eliminateUseless]
  exact ⟨rfl, fun h => alone (mentioned_of_sub sub h)⟩

def AllUseful (g : Grammar) : Prop := ∀ name ∈ g.nonterminals, g.Reachable name ∧ g.Productive name

/-- Nothing is left but the start symbol, without alternatives. -/
def StartAlone (g : Grammar) : Prop :=
  (∀ name ∈ g.nonterminals, name = g.start) ∧ ∀ name right, right ∉ g.alternatives name

theorem reachable_eliminateUseless {name : String} (wf : g.WellFormed)
    (reachable : g.dropUnproductive.Reachable name) : g.eliminateUseless.Reachable name := by
  have := reachable_dropUnreachable (wellFormed_dropUnproductive wf) reachable
  obtain ⟨kept, e⟩ := g.eliminateUseless_eq
  rw [e]
  exact this

theorem startAlone_eliminateUseless (wf : g.WellFormed) (unproductive : ¬ g.Productive g.start) :
    g.eliminateUseless.StartAlone := by
  have only : ∀ name, g.dropUnproductive.Reachable name → name = g.start := by
    intro name reachable
    rcases Relation.ReflTransGen.cases_head reachable with rfl | ⟨_, ⟨right, mem, _⟩, _⟩
    · rfl
    · exact absurd
        (productive_of_mem_prune ((mem_alternatives_dropUnproductive wf).1 mem)) unproductive
  constructor
  · intro name mem
    rw [start_eliminateUseless]
    exact only name (mem_eliminateUseless.1 mem).2
  · intro name right mem
    obtain ⟨reachable, mem⟩ := (mem_alternatives_eliminateUseless wf).1 mem
    exact unproductive (only name reachable ▸ productive_of_mem_prune mem)

theorem allUseful_eliminateUseless (wf : g.WellFormed) (productive : g.Productive g.start) :
    g.eliminateUseless.AllUseful := by
  intro name mem
  obtain ⟨⟨_, kept⟩, reachable⟩ := mem_eliminateUseless.1 mem
  refine ⟨reachable_eliminateUseless wf reachable, ?_⟩
  obtain ⟨word, d⟩ : g.Productive name := by
    rcases kept with rfl | kept
    · exact productive
    · exact kept
  exact ⟨word, (derives_eliminateUseless_iff wf reachable).2 d⟩

end Grammar

end ChomskyNormal
