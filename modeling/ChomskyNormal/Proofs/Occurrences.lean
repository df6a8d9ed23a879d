import ChomskyNormal.Proofs.Useful

/-!
# What occurs in derivations

The symbols and productions that elimination keeps are those that occur in a derivation of some word
from the start symbol. What occurs there has productive nonterminals only and is reached through
such productions. And the trees below an alternative that is reached in this way can be completed to
a derivation from the start symbol, because everything beside them derives a word as well.
-/

namespace ChomskyNormal

namespace Forest

variable {g : Grammar} {f t : Forest}

def labels : Forest → List String
  | nil => []
  | leaf _ rest => rest.labels
  | branch name children rest => name :: (children.labels ++ rest.labels)

def applied : Forest → List (String × Alternative)
  | nil => []
  | leaf _ rest => rest.applied
  | branch name children rest => (name, children.roots) :: (children.applied ++ rest.applied)

/-- A single tree that derives some word from the start symbol. -/
structure FromStart (g : Grammar) (f : Forest) : Prop where
  follows : f.Follows g
  roots : f.roots = [.nonterminal g.start]

theorem labels_eq (f : Forest) : f.labels = f.applied.map Prod.fst := by
  induction f with
  | nil => rfl
  | leaf _ rest ih => exact ih
  | branch name children rest ih₁ ih₂ =>
    simp only [labels, applied, ih₁, ih₂, List.map_cons, List.map_append]

theorem mem_labels_iff {name : String} : name ∈ f.labels ↔ ∃ right, (name, right) ∈ f.applied := by
  rw [labels_eq, List.mem_map]
  constructor
  · rintro ⟨⟨_, right⟩, mem, rfl⟩
    exact ⟨right, mem⟩
  · intro ⟨right, mem⟩
    exact ⟨_, mem, rfl⟩

theorem mem_yield_iff {terminal : String} : terminal ∈ f.yield ↔
    .terminal terminal ∈ f.roots ∨ ∃ production ∈ f.applied, .terminal terminal ∈ production.2 := by
  induction f with
  | nil => simp [yield, roots, applied]
  | leaf name rest ih =>
    simp only [yield, roots, applied, List.mem_cons, ih, Symbol.terminal.injEq, or_assoc]
  | branch name children rest ih₁ ih₂ =>
    have below :
        (∃ production ∈ (branch name children rest).applied, .terminal terminal ∈ production.2) ↔
        (.terminal terminal ∈ children.roots ∨
          ∃ production ∈ children.applied, .terminal terminal ∈ production.2) ∨
          ∃ production ∈ rest.applied, .terminal terminal ∈ production.2 := by
      simp only [applied, List.mem_cons, exists_eq_or_imp]
      simp only [List.mem_append, or_and_right, exists_or, or_assoc]
    rw [below, yield, List.mem_append, ih₁, ih₂, roots, List.mem_cons, or_left_comm]
    simp only [reduceCtorEq, false_or]

theorem exists_branch {name : String} (roots : t.roots = [.nonterminal name]) :
    ∃ children, t = branch name children nil := by
  cases t with
  | nil => contradiction
  | leaf => simp [Forest.roots] at roots
  | branch other children rest =>
    simp only [Forest.roots, List.cons.injEq, Symbol.nonterminal.injEq] at roots
    obtain ⟨rfl, others⟩ := roots
    cases rest with
    | nil => exact ⟨children, rfl⟩
    | leaf => simp [Forest.roots] at others
    | branch => simp [Forest.roots] at others

theorem exists_roots_eq {name : String} {right : Alternative} (follows : t.Follows g)
    (root : t.roots = [.nonterminal name]) (mem : .nonterminal name ∈ right)
    (productive : ∀ other, .nonterminal other ∈ right → g.Productive other) :
    ∃ f : Forest, f.Follows g ∧ f.roots = right ∧
      ∀ production ∈ t.applied, production ∈ f.applied := by
  induction right with
  | nil => contradiction
  | cons symbol right ih =>
    have productive' : ∀ other, .nonterminal other ∈ right → g.Productive other :=
      fun other hs => productive other (.tail _ hs)
    by_cases here : symbol = .nonterminal name
    · obtain ⟨word, d⟩ := Grammar.exists_derives_of_productive productive'
      obtain ⟨others, follows', rfl, _⟩ := exists_of_derives d
      obtain ⟨children, rfl⟩ := exists_branch root
      refine ⟨branch name children others, ⟨follows.1, follows.2.1, follows'⟩,
        by rw [here, roots], ?_⟩
      simp only [applied, List.append_nil, List.mem_cons, List.mem_append]
      exact fun production found => found.imp_right .inl
    · obtain ⟨others, follows', rfl, sub⟩ :=
        ih ((List.mem_cons.1 mem).resolve_left (Ne.symm here)) productive'
      cases symbol with
      | terminal terminal => exact ⟨leaf terminal others, follows', rfl, sub⟩
      | nonterminal other =>
        obtain ⟨word, d⟩ := productive other (.head _)
        obtain ⟨f, follows'', root', _⟩ := exists_of_derives d
        obtain ⟨children, rfl⟩ := exists_branch root'
        refine ⟨branch other children others, ⟨follows''.1, follows''.2.1, follows'⟩, rfl, ?_⟩
        exact fun production found => .tail _ (List.mem_append_right _ (sub production found))

end Forest

namespace Grammar

variable {g h k : Grammar}

theorem exists_fromStart_of_reachable (wf : g.WellFormed) {name : String}
    (reachable : g.dropUnproductive.Reachable name) {t : Forest} (follows : t.Follows g)
    (root : t.roots = [.nonterminal name]) :
    ∃ f : Forest, f.FromStart g ∧ ∀ production ∈ t.applied, production ∈ f.applied := by
  induction reachable generalizing t with
  | refl => exact ⟨t, ⟨follows, root⟩, fun _ mem => mem⟩
  | @tail left name _ step ih =>
    obtain ⟨right, mem, hs⟩ := step
    obtain ⟨mem, productive⟩ :=
      mem_alternatives_prune.1 ((mem_alternatives_dropUnproductive wf).1 mem)
    obtain ⟨children, follows', rfl, sub⟩ := Forest.exists_roots_eq follows root hs productive
    obtain ⟨f, fromStart, sub'⟩ := ih (t := .branch left children .nil) ⟨mem, follows', trivial⟩ rfl
    refine ⟨f, fromStart, fun production found => sub' production ?_⟩
    exact .tail _ (List.mem_append_left _ (sub production found))

theorem exists_fromStart_of_mem (wf : g.WellFormed) {left : String} {right : Alternative}
    (mem : right ∈ g.eliminateUseless.alternatives left) :
    ∃ f : Forest, f.FromStart g ∧ (left, right) ∈ f.applied := by
  obtain ⟨reachable, mem⟩ := (mem_alternatives_eliminateUseless wf).1 mem
  obtain ⟨mem, productive⟩ := mem_alternatives_prune.1 mem
  obtain ⟨word, d⟩ := exists_derives_of_productive productive
  obtain ⟨children, follows, rfl, _⟩ := Forest.exists_of_derives d
  obtain ⟨f, fromStart, sub⟩ :=
    exists_fromStart_of_reachable wf reachable (t := .branch left children .nil)
      ⟨mem, follows, trivial⟩ rfl
  exact ⟨f, fromStart, sub _ (.head _)⟩

theorem mem_of_mem_applied (wf : g.WellFormed) {f : Forest} (follows : f.Follows g)
    (reachable : ∀ name, .nonterminal name ∈ f.roots → g.dropUnproductive.Reachable name)
    {left : String} {right : Alternative} (mem : (left, right) ∈ f.applied) :
    right ∈ g.eliminateUseless.alternatives left := by
  induction f with
  | nil => contradiction
  | leaf name rest ih => exact ih follows (fun other hs => reachable other (.tail _ hs)) mem
  | branch name children rest ih₁ ih₂ =>
    obtain ⟨known, follows₁, follows₂⟩ := follows
    have pruned : children.roots ∈ g.prune.alternatives name :=
      mem_alternatives_prune.2 ⟨known, fun other hs => (Forest.derives follows₁).exists_of_mem hs⟩
    have here := reachable name (.head _)
    rw [Forest.applied, List.mem_cons, List.mem_append] at mem
    rcases mem with e | mem | mem
    · cases e
      exact (mem_alternatives_eliminateUseless wf).2 ⟨here, pruned⟩
    · refine ih₁ follows₁ (fun other hs => ?_) mem
      exact reachable_of_mem here ((mem_alternatives_dropUnproductive wf).2 pruned) hs
    · exact ih₂ follows₂ (fun other hs => reachable other (.tail _ hs)) mem

theorem mem_alternatives_eliminateUseless_iff_applied (wf : g.WellFormed) {left : String}
    {right : Alternative} :
    right ∈ g.eliminateUseless.alternatives left ↔
      ∃ f : Forest, f.FromStart g ∧ (left, right) ∈ f.applied := by
  refine ⟨exists_fromStart_of_mem wf, fun ⟨f, fromStart, mem⟩ => ?_⟩
  refine mem_of_mem_applied wf fromStart.follows (fun name hs => ?_) mem
  rw [fromStart.roots, List.mem_singleton, Symbol.nonterminal.injEq] at hs
  rw [hs]
  exact .refl

theorem mem_eliminateUseless_iff_labels (wf : g.WellFormed) {name : String} :
    name ∈ g.eliminateUseless.nonterminals ↔
      name = g.start ∨ ∃ f : Forest, f.FromStart g ∧ name ∈ f.labels := by
  constructor
  · intro mem
    obtain ⟨⟨_, rfl | productive⟩, reachable⟩ := mem_eliminateUseless.1 mem
    · exact .inl rfl
    · obtain ⟨word, d⟩ := productive
      obtain ⟨t, follows, root, _⟩ := Forest.exists_of_derives d
      obtain ⟨f, fromStart, sub⟩ := exists_fromStart_of_reachable wf reachable follows root
      obtain ⟨children, rfl⟩ := Forest.exists_branch root
      exact .inr ⟨f, fromStart, Forest.mem_labels_iff.2 ⟨_, sub _ (.head _)⟩⟩
  · intro found
    rcases found with rfl | ⟨f, fromStart, mem⟩
    · have declared := (wellFormed_eliminateUseless wf).start_declared
      rwa [start_eliminateUseless] at declared
    · obtain ⟨right, mem⟩ := Forest.mem_labels_iff.1 mem
      have kept := (mem_alternatives_eliminateUseless_iff_applied wf).2 ⟨f, fromStart, mem⟩
      exact (wellFormed_eliminateUseless wf).left_declared kept

theorem uses_eliminateUseless_iff (wf : g.WellFormed) {terminal : String} :
    g.eliminateUseless.Uses terminal ↔ ∃ word, g.Generates word ∧ terminal ∈ word := by
  constructor
  · intro ⟨left, right, mem, hs⟩
    obtain ⟨f, fromStart, mem⟩ := exists_fromStart_of_mem wf mem
    have d := Forest.derives fromStart.follows
    rw [fromStart.roots] at d
    exact ⟨f.yield, d, Forest.mem_yield_iff.2 (.inr ⟨_, mem, hs⟩)⟩
  · intro ⟨word, d, mem⟩
    obtain ⟨f, follows, root, rfl⟩ := Forest.exists_of_derives d
    rcases Forest.mem_yield_iff.1 mem with hs | ⟨⟨left, right⟩, mem, hs⟩
    · rw [root] at hs
      simp at hs
    · exact ⟨left, right,
        (mem_alternatives_eliminateUseless_iff_applied wf).2 ⟨f, ⟨follows, root⟩, mem⟩, hs⟩

theorem mem_terminals_eliminateUseless_iff_generates (wf : g.WellFormed) {terminal : String} :
    terminal ∈ g.eliminateUseless.terminals ↔ (∃ word, g.Generates word ∧ terminal ∈ word) ∨
      terminal ∈ g.terminals ∧ ∀ word, g.Generates word → word = [] := by
  have declared : (∃ word, g.Generates word ∧ terminal ∈ word) → terminal ∈ g.terminals := by
    intro found
    obtain ⟨left, right, mem, hs⟩ := (uses_eliminateUseless_iff wf).2 found
    exact wf.rights_declared left right (alternatives_eliminateUseless_sub wf left right mem) _ hs
  have unused : (∀ other, ¬ g.eliminateUseless.Uses other) ↔
      ∀ word, g.Generates word → word = [] := by
    simp only [uses_eliminateUseless_iff wf, not_exists, not_and]
    constructor
    · exact fun none word d => List.eq_nil_iff_forall_not_mem.2 fun other => none other word d
    · exact fun empty other word d => empty word d ▸ List.not_mem_nil
  rw [mem_terminals_eliminateUseless, unused, uses_eliminateUseless_iff wf, and_or_left,
    and_iff_right_of_imp declared]

/-- What `h` has, `g` has as well, in the same order. -/
structure PartOf (h g : Grammar) : Prop where
  start : h.start = g.start
  nonterminals : h.nonterminals.toList.Sublist g.nonterminals.toList
  terminals : h.terminals.toList.Sublist g.terminals.toList
  lefts : h.rules.keys.toList.Sublist g.rules.keys.toList
  alternatives : ∀ name, (h.alternatives name).toList.Sublist (g.alternatives name).toList

theorem PartOf.trans (p : k.PartOf h) (p' : h.PartOf g) : k.PartOf g :=
  ⟨p.start.trans p'.start, p.nonterminals.trans p'.nonterminals, p.terminals.trans p'.terminals,
    p.lefts.trans p'.lefts, fun name => (p.alternatives name).trans (p'.alternatives name)⟩

theorem partOf_prune (g : Grammar) : g.prune.PartOf g where
  start := rfl
  nonterminals := List.Sublist.refl _
  terminals := List.Sublist.refl _
  lefts := by
    have same : g.prune.rules.keys = g.rules.keys := OrderedMap.keys_mapValues ..
    exact same ▸ List.Sublist.refl _
  alternatives := by
    intro name
    rw [alternatives, alternatives, prune, OrderedMap.get?_mapValues]
    cases g.rules.get? name with
    | none => exact List.Sublist.refl _
    | some rights => exact List.filter_sublist

theorem partOf_retainNonterminals (g : Grammar) (keep : String → Bool) :
    (g.retainNonterminals keep).PartOf g where
  start := rfl
  nonterminals := List.filter_sublist
  terminals := List.Sublist.refl _
  lefts := by
    rw [retainNonterminals, OrderedMap.keys_filterKeys]
    exact List.filter_sublist
  alternatives := by
    intro name
    rw [alternatives, alternatives, retainNonterminals, OrderedMap.get?_filterKeys]
    split
    · exact List.Sublist.refl _
    · exact List.nil_sublist _

theorem partOf_dropUnusedTerminals (g : Grammar) : g.dropUnusedTerminals.PartOf g := by
  have all := List.Sublist.refl g.terminals.toList
  have same : ∀ kept : OrderedSet String, kept.toList.Sublist g.terminals.toList →
      PartOf { g with terminals := kept } g :=
    fun kept sub =>
      ⟨rfl, List.Sublist.refl _, sub, List.Sublist.refl _, fun _ => List.Sublist.refl _⟩
  rw [dropUnusedTerminals]
  split
  · exact same g.terminals all
  · exact same _ List.filter_sublist

theorem partOf_eliminateUseless (g : Grammar) : g.eliminateUseless.PartOf g := by
  have productive : g.dropUnproductive.PartOf g :=
    (partOf_retainNonterminals _ _).trans g.partOf_prune
  have reachable : g.dropUnproductive.dropUnreachable.PartOf g :=
    (partOf_retainNonterminals _ _).trans productive
  exact (partOf_dropUnusedTerminals _).trans reachable

/-- What is left is what derivations from the start symbol make use of, and the start symbol itself;
it derives what it did. An alphabet of which no word has a symbol stays as it is. -/
theorem eliminateUseless_exact (valid : g.validate = .ok ()) :
    (∀ name, name ∈ g.eliminateUseless.nonterminals ↔
      name = g.start ∨ ∃ f : Forest, f.FromStart g ∧ name ∈ f.labels) ∧
    (∀ left right, right ∈ g.eliminateUseless.alternatives left ↔
      ∃ f : Forest, f.FromStart g ∧ (left, right) ∈ f.applied) ∧
    (∀ terminal, terminal ∈ g.eliminateUseless.terminals ↔
      (∃ word, g.Generates word ∧ terminal ∈ word) ∨
      terminal ∈ g.terminals ∧ ∀ word, g.Generates word → word = []) ∧
    g.eliminateUseless.PartOf g ∧
    ∀ name ∈ g.eliminateUseless.nonterminals, ∀ word,
      g.eliminateUseless.Derives [.nonterminal name] word ↔ g.Derives [.nonterminal name] word := by
  have wf := validate_eq_ok_iff.1 valid
  refine ⟨fun _ => mem_eliminateUseless_iff_labels wf,
    fun _ _ => mem_alternatives_eliminateUseless_iff_applied wf,
      fun _ => mem_terminals_eliminateUseless_iff_generates wf, g.partOf_eliminateUseless,
        fun name mem word => ?_⟩
  exact derives_eliminateUseless_iff wf (mem_eliminateUseless.1 mem).2

def shadowed : Grammar :=
  (bare "S" ["S", "C", "B"] ["b", "a"]).addProductions
    [("S", [.terminal "a"]), ("S", [.nonterminal "C"]), ("S", [.terminal "a", .nonterminal "S"]),
      ("C", [.nonterminal "B", .nonterminal "C"]), ("B", [.terminal "b"])]

example : shadowed.eliminateUseless.nonterminals.toList = ["S"] := by cbv

theorem eliminateUseless_shadowed_exact : shadowed.validate = .ok () ∧
    (∀ name, name ∈ shadowed.eliminateUseless.nonterminals ↔
      name = shadowed.start ∨ ∃ f : Forest, f.FromStart shadowed ∧ name ∈ f.labels) ∧
    (∀ left right, right ∈ shadowed.eliminateUseless.alternatives left ↔
      ∃ f : Forest, f.FromStart shadowed ∧ (left, right) ∈ f.applied) ∧
    shadowed.eliminateUseless.PartOf shadowed :=
  have valid : shadowed.validate = .ok () := rfl
  have ⟨nonterminals, productions, _, order, _⟩ := eliminateUseless_exact valid
  ⟨valid, nonterminals, productions, order⟩

end Grammar

end ChomskyNormal
