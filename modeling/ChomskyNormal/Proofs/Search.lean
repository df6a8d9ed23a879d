import ChomskyNormal.Analysis.Basic
import ChomskyNormal.Proofs.Simulation

/-!
# What breadth-first search finds

The origin leads to everything seen, and what has been visited has all its neighbours among the
seen. At the end everything seen has been visited, so exactly what the origin leads to has been
found.
-/

namespace ChomskyNormal

section Search

variable {α : Type} {r : α → α → Prop} {origin : α} {seen : OrderedSet α} {visited : Nat}

/-- What holds when the first `visited` members of the set have been visited. -/
structure Explored (r : α → α → Prop) (origin : α) (seen : OrderedSet α) (visited : Nat) :
    Prop where
  first : seen.toList.head? = some origin
  reached : ∀ a ∈ seen, Relation.ReflTransGen r origin a
  done : ∀ a ∈ seen.toList.take visited, ∀ b, r a b → b ∈ seen

theorem Explored.origin_mem (explored : Explored r origin seen visited) : origin ∈ seen :=
  List.mem_of_head? explored.first

variable [DecidableEq α]

theorem OrderedSet.toList_prefix_insertMany (s : OrderedSet α) (as : List α) :
    s.toList <+: (s.insertMany as).toList := by
  induction as generalizing s with
  | nil => exact List.prefix_refl _
  | cons a as ih =>
    refine List.IsPrefix.trans ?_ (ih (s.insert a))
    by_cases h : a ∈ s
    · have same : s.insert a = s := insert_of_mem h
      exact ⟨[], by rw [same, List.append_nil]⟩
    · rw [toList_insert_of_not_mem h]
      exact List.prefix_append ..

theorem OrderedSet.mem_take_insertMany {s : OrderedSet α} {as : List α} {n : Nat}
    (h : n < s.toList.length) {a : α} : a ∈ (s.insertMany as).toList.take (n + 1) ↔
      a ∈ s.toList.take n ∨ a = s.toList[n] := by
  obtain ⟨added, e⟩ := s.toList_prefix_insertMany as
  rw [← e, List.take_append_of_le_length h, List.take_succ_eq_append_getElem h, List.mem_append,
    List.mem_singleton]

theorem explored_start (r : α → α → Prop) (origin : α) :
    Explored r origin (.ofList [origin]) 0 where
  first := OrderedSet.head?_toList_ofList _
  reached := by
    intro a mem
    rw [OrderedSet.mem_ofList, List.mem_singleton] at mem
    rw [mem]
  done := by simp

theorem Explored.visit (explored : Explored r origin seen visited)
    (h : visited < seen.toList.length) {added : List α}
    (neighbours : ∀ b, b ∈ added ↔ r seen.toList[visited] b) :
    Explored r origin (seen.insertMany added) (visited + 1) where
  first := by
    rw [OrderedSet.head?_toList_insertMany, explored.first]
    rfl
  reached := by
    intro a mem
    rcases OrderedSet.mem_insertMany.1 mem with mem | mem
    · exact explored.reached a mem
    · exact (explored.reached _ (List.getElem_mem h)).tail ((neighbours a).1 mem)
  done := by
    intro a mem b step
    rw [OrderedSet.mem_insertMany]
    rcases (OrderedSet.mem_take_insertMany h).1 mem with mem | rfl
    · exact .inl (explored.done a mem b step)
    · exact .inr ((neighbours b).2 step)

variable {next : α → List α} {scope : List α} {closed : ∀ a, ∀ b ∈ next a, b ∈ scope}

theorem breadthFirst_induction {p : OrderedSet α → Nat → Prop}
    (keeps : ∀ (seen : OrderedSet α) (visited : Nat) (h : visited < seen.toList.length),
      p seen visited →
      p (seen.insertMany (next seen.toList[visited])) (visited + 1))
    (start : p seen visited) (le : visited ≤ seen.toList.length) :
    p (breadthFirst next scope closed seen visited)
      (breadthFirst next scope closed seen visited).size := by
  fun_induction breadthFirst next scope closed seen visited with
  | case1 seen visited h ih =>
    exact ih (keeps seen visited h start)
      (Nat.lt_of_lt_of_le h (seen.toList_prefix_insertMany _).length_le)
  | case2 seen visited h =>
    have all : visited = seen.size := Nat.le_antisymm le (Nat.le_of_not_lt h)
    exact all ▸ start

theorem mem_breadthFirst_iff (neighbours : ∀ a b, b ∈ next a ↔ r a b) {a b : α} :
    b ∈ breadthFirst next scope closed (.ofList [a]) 0 ↔ Relation.ReflTransGen r a b := by
  have explored : Explored r a (breadthFirst next scope closed (.ofList [a]) 0) _ :=
    breadthFirst_induction (p := Explored r a)
      (fun _ _ h explored => explored.visit h (neighbours _))
      (explored_start r a) (Nat.zero_le _)
  refine ⟨explored.reached b, fun path => ?_⟩
  induction path with
  | refl => exact explored.origin_mem
  | tail _ step ih => exact explored.done _ (by rwa [OrderedSet.size, List.take_length]) _ step

end Search

namespace Grammar

variable {g : Grammar}

theorem mem_neighbours_iff {name other : String} :
    other ∈ g.neighbours name ↔ g.Leads name other := by
  have key (symbol : Symbol) : symbol.nonterminal? = some other ↔ symbol = .nonterminal other := by
    cases symbol <;> simp [Symbol.nonterminal?]
  simp only [neighbours, Leads, List.mem_filterMap, List.mem_flatten, OrderedSet.mem_toList, key,
    exists_eq_right]

theorem mem_reachable_iff {name : String} : name ∈ g.reachable ↔ g.Reachable name :=
  mem_breadthFirst_iff fun _ _ => mem_neighbours_iff

def LeadsUnit (g : Grammar) (name other : String) : Prop :=
  [.nonterminal other] ∈ g.alternatives name

theorem mem_unitNeighbours_iff {name other : String} :
    other ∈ g.unitNeighbours name ↔ g.LeadsUnit name other := by
  simp [unitNeighbours, LeadsUnit, unitTarget?_eq_some_iff]

theorem mem_unitClosure_iff {name other : String} :
    other ∈ g.unitClosure name ↔ Relation.ReflTransGen g.LeadsUnit name other :=
  mem_breadthFirst_iff fun _ _ => mem_unitNeighbours_iff

end Grammar

end ChomskyNormal
