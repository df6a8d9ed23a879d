import ChomskyNormal.Proofs.Additions
import ChomskyNormal.Proofs.Sentences

/-!
# Every shallow tree can be grown

Candidates leave out only what no tree of height `maxDepth + 1` holds. Above `maxDepth` every
alternative that can be completed is offered, and at `maxDepth` such a tree has alternatives of
terminals only, which are among the lowest. So the positions of its alternatives among the
candidates, depth first and from left to right, are a script by which the tree grows again.
-/

namespace ChomskyNormal

/-- Takes the positions in a script one by one. A position out of range is never taken, so that a
script that is used up was in range throughout. -/
def Chooser.scripted : Chooser (List Nat) where
  pick n pos
    | [] => (⟨0, pos⟩, [])
    | i :: later => if h : i < n then (⟨i, h⟩, later) else (⟨0, pos⟩, i :: later)

theorem Chooser.exists_scripted_pickFrom {α : Type} {xs : List α} {x : α} (mem : x ∈ xs) :
    ∃ i, ∀ later, scripted.pickFrom xs (i :: later) = .ok (⟨x, mem⟩, later) := by
  obtain ⟨i, h, rfl⟩ := List.mem_iff_getElem.1 mem
  refine ⟨i, fun later => ?_⟩
  have inhabited : 0 < xs.length := Nat.zero_lt_of_lt h
  simp only [pickFrom, scripted, inhabited, h, ↓reduceDIte]
  rfl

namespace Grammar

variable {g : Grammar}

theorem least?_eq_one {heights : Heights} {rights : OrderedSet Alternative} {right : Alternative}
    (mem : right ∈ rights) (row : heights.row? right = some 0) :
    heights.least? rights = some 1 := by
  refine Heights.least?_eq_some_iff.2
    ⟨⟨right, mem, by rw [Heights.alternative?, row]; rfl⟩, fun _ _ k e => ?_⟩
  obtain ⟨below, _, high⟩ := Option.map_eq_some_iff.1 e
  exact high ▸ Nat.le_add_left 1 below

theorem mem_candidates_of_shallow (depth : Nat) {name : String} {children : Forest}
    (follows : children.Follows g) (mem : children.roots ∈ g.alternatives name)
    (shallow : children.height + depth ≤ maxDepth) :
    children.roots ∈ g.candidates g.heights depth name := by
  have ⟨h, le, row⟩ := exists_row?_le_height follows
  refine mem_candidates.2 ⟨mem, h, row, fun deep => ?_⟩
  have flat : h = 0 := by omega
  rw [flat] at row ⊢
  exact least?_eq_one mem row

theorem exists_script_grow (depth : Nat) {f : Forest} (follows : f.Follows g)
    (shallow : f.height + depth ≤ maxDepth + 1) : ∃ script, ∀ later,
      g.grow g.heights g.justified_heights .scripted depth f.roots (script ++ later) =
        .ok (f, later) := by
  induction f generalizing depth with
  | nil =>
    refine ⟨[], fun later => ?_⟩
    rw [Forest.roots, grow]
    rfl
  | leaf name rest ih =>
    obtain ⟨script, grown⟩ := ih depth follows shallow
    refine ⟨script, fun later => ?_⟩
    simp only [Forest.roots, grow, bind, StateT.bind, Except.bind, grown]
    rfl
  | branch name children rest ih₁ ih₂ =>
    obtain ⟨mem, below, beside⟩ := follows
    rw [Forest.height] at shallow
    obtain ⟨i, picked⟩ :=
      Chooser.exists_scripted_pickFrom (mem_candidates_of_shallow depth below mem (by omega))
    obtain ⟨script₁, grown₁⟩ := ih₁ (depth + 1) below (by omega)
    obtain ⟨script₂, grown₂⟩ := ih₂ depth beside (by omega)
    refine ⟨i :: (script₁ ++ script₂), fun later => ?_⟩
    rw [List.cons_append, List.append_assoc]
    simp only [Forest.roots, grow, bind, StateT.bind, Except.bind, picked, grown₁, grown₂]
    rfl

theorem exists_script_randomDerivation {f : Forest} (follows : f.Follows g)
    (roots : f.roots = [.nonterminal g.start]) (shallow : f.height ≤ maxDepth + 1) :
    ∃ script, ∀ later, g.randomDerivation .scripted (script ++ later) = .ok (f, later) := by
  have ⟨script, grown⟩ := exists_script_grow 0 follows shallow
  have productive :=
    isSome_heights_of_derives (derives_iff_exists_forest.2 ⟨f, follows, roots, rfl⟩)
  refine ⟨script, fun later => ?_⟩
  rw [randomDerivation, if_pos productive, ← roots, grown]

/-- A word with a derivation tree of height at most `maxDepth + 1` is the sentence for some choices,
one position among the candidates for each nonterminal, and later choices stay untouched. -/
theorem exists_choices_of_shallow (g : Grammar) {word : List String}
    (tree : ∃ f : Forest, f.Follows g ∧
      f.roots = [.nonterminal g.start] ∧ f.yield = word ∧ f.height ≤ maxDepth + 1) :
    ∃ choices : List Nat, ∀ later,
      g.randomSentence .scripted (choices ++ later) = .ok (word, later) := by
  have ⟨f, follows, roots, yield, shallow⟩ := tree
  have ⟨choices, derived⟩ := exists_script_randomDerivation follows roots shallow
  refine ⟨choices, fun later => ?_⟩
  rw [randomSentence_eq, derived, ← yield]
  rfl

def ladder : Grammar :=
  let names := OrderedSet.ofList ["S", "U"]
  addProductions ⟨"S", names, .ofList ["a", "b", "c"], .ofKeys names ∅⟩
    [("S", [.nonterminal "U", .nonterminal "S"]), ("S", [.terminal "a", .nonterminal "S"]),
      ("S", [.terminal "b"]), ("S", [.terminal "c"]), ("U", [.nonterminal "U"])]

def climb : Nat → Forest
  | 0 => .branch "S" (.leaf "c" .nil) .nil
  | steps + 1 => .branch "S" (.leaf "a" (climb steps)) .nil

theorem follows_climb (steps : Nat) :
    (climb steps).Follows ladder ∧ (climb steps).roots = [.nonterminal ladder.start] ∧
    (climb steps).height = steps + 1 := by
  induction steps with
  | zero => exact ⟨⟨by decide, trivial, trivial⟩, rfl, rfl⟩
  | succ steps ih =>
    obtain ⟨follows, roots, height⟩ := ih
    refine ⟨⟨?_, follows, trivial⟩, rfl, ?_⟩
    · rw [Forest.roots, roots]
      decide
    · simp only [climb, Forest.height, height, Nat.max_zero]

theorem exists_choices_of_climb :
    (climb maxDepth).Follows ladder ∧ (climb maxDepth).height = maxDepth + 1 ∧
    (climb maxDepth).yield = List.replicate maxDepth "a" ++ ["c"] ∧ ∃ choices : List Nat, ∀ later,
      ladder.randomSentence .scripted (choices ++ later) =
        .ok (List.replicate maxDepth "a" ++ ["c"], later) := by
  have ⟨follows, roots, height⟩ := follows_climb maxDepth
  have yield : (climb maxDepth).yield = List.replicate maxDepth "a" ++ ["c"] := by decide
  exact ⟨follows, height, yield,
    exists_choices_of_shallow ladder ⟨climb maxDepth, follows, roots, yield, Nat.le_of_eq height⟩⟩

end Grammar

end ChomskyNormal
