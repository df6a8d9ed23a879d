import ChomskyNormal.Proofs.EpsilonFree
import Mathlib.Algebra.Group.Nat.Defs
import Mathlib.Data.Finset.Dedup
import Mathlib.Data.Finset.Insert
import Mathlib.Data.List.Induction

/-!
# Variants by number

The variants of an alternative are numbered by the sets of nullable occurrences that they lack: the
variant at index `j` lacks the `m`-th occurrence exactly when `j` has a binary one at place `m`.
Read from the left, each nullable symbol doubles the list of what there is so far, with the symbol
in the first half and without it in the second, whose indices have one more digit. Two variants may
be equal, but each set of occurrences is left out at one index only.
-/

namespace ChomskyNormal

def nullablePositions (nullable : OrderedSet String) (right : Alternative) : List Nat :=
  (List.range right.length).filter fun position =>
    right[position]?.any (Grammar.settled false nullable)

def without (right : Alternative) (positions : List Nat) : Alternative :=
  (right.zipIdx.filter fun (_, position) => position ∉ positions).map Prod.fst

/-- The members of the list at the places where `j` has a binary one. -/
def atOnes (positions : List Nat) (j : Nat) : List Nat :=
  (positions.zipIdx.filter fun (_, place) => j.testBit place).map Prod.fst

section

variable {nullable : OrderedSet String} {right : Alternative} {position : Nat}

theorem mem_nullablePositions_iff :
    position ∈ nullablePositions nullable right ↔
      ∃ name ∈ nullable, right[position]? = some (.nonterminal name) := by
  rw [nullablePositions, List.mem_filter, List.mem_range, Option.any_eq_true]
  constructor
  · intro ⟨_, symbol, at_position, settled⟩
    cases symbol with
    | terminal => exact absurd settled Bool.false_ne_true
    | nonterminal name => exact ⟨name, of_decide_eq_true settled, at_position⟩
  · intro ⟨name, mem, at_position⟩
    have ⟨lt, _⟩ := List.getElem?_eq_some_iff.1 at_position
    exact ⟨lt, _, at_position, decide_eq_true mem⟩

theorem lt_length_of_mem_nullablePositions (mem : position ∈ nullablePositions nullable right) :
    position < right.length :=
  List.mem_range.1 (List.mem_of_mem_filter mem)

theorem nodup_nullablePositions : (nullablePositions nullable right).Nodup :=
  List.nodup_range.filter _

theorem nullablePositions_concat (nullable : OrderedSet String) (right : Alternative)
    (symbol : Symbol) :
    nullablePositions nullable (right ++ [symbol]) =
      nullablePositions nullable right ++ if Grammar.settled false nullable symbol
        then [right.length] else [] := by
  have before : ∀ position ∈ List.range right.length,
      (right ++ [symbol])[position]?.any (Grammar.settled false nullable) =
        right[position]?.any (Grammar.settled false nullable) := by
    intro position mem
    rw [List.getElem?_append_left (List.mem_range.1 mem)]
  rw [nullablePositions, List.length_append, List.length_singleton, List.range_succ,
    List.filter_append, List.filter_congr before]
  simp [nullablePositions, List.filter_cons]

theorem without_nil (right : Alternative) : without right [] = right := by
  simp [without, List.zipIdx_map_fst]

theorem without_concat (right : Alternative) (symbol : Symbol) (positions : List Nat) :
    without (right ++ [symbol]) positions =
      without right positions ++ if right.length ∈ positions then [] else [symbol] := by
  rw [without, List.zipIdx_append, List.filter_append, List.map_append]
  by_cases h : right.length ∈ positions <;> simp [without, h]

theorem without_concat_length (right : Alternative) (symbol : Symbol) (positions : List Nat) :
    without (right ++ [symbol]) (positions ++ [right.length]) = without right positions := by
  have inside : ∀ entry ∈ right.zipIdx,
      decide (entry.2 ∉ positions ++ [right.length]) = decide (entry.2 ∉ positions) := by
    intro entry mem
    have lt : entry.2 < right.length := by simpa using List.snd_lt_of_mem_zipIdx mem
    simp [Nat.ne_of_lt lt]
  rw [without_concat, if_pos (List.mem_append_right _ (List.mem_singleton_self _)), List.append_nil,
    without, without, List.filter_congr inside]

end

section

variable {positions : List Nat} {position j : Nat}

theorem mem_atOnes_iff :
    position ∈ atOnes positions j ↔
      ∃ place, positions[place]? = some position ∧ j.testBit place = true := by
  simp [atOnes, List.mem_filter, List.mk_mem_zipIdx_iff_getElem?]

theorem mem_of_mem_atOnes (mem : position ∈ atOnes positions j) : position ∈ positions := by
  obtain ⟨place, at_place, _⟩ := mem_atOnes_iff.1 mem
  exact List.mem_of_getElem? at_place

theorem atOnes_zero (positions : List Nat) : atOnes positions 0 = [] := by
  simp [atOnes]

theorem atOnes_concat (positions : List Nat) (position j : Nat) :
    atOnes (positions ++ [position]) j =
      atOnes positions j ++ if j.testBit positions.length then [position] else [] := by
  rw [atOnes, List.zipIdx_append, List.filter_append, List.map_append]
  by_cases h : j.testBit positions.length <;> simp [atOnes, h]

theorem atOnes_concat_of_lt (position : Nat) (h : j < 2 ^ positions.length) :
    atOnes (positions ++ [position]) j = atOnes positions j := by
  rw [atOnes_concat, Nat.testBit_lt_two_pow h]
  exact List.append_nil _

theorem atOnes_two_pow_add (positions : List Nat) (j : Nat) :
    atOnes positions (2 ^ positions.length + j) = atOnes positions j := by
  have lower : ∀ entry ∈ positions.zipIdx,
      (2 ^ positions.length + j).testBit entry.2 = j.testBit entry.2 := by
    intro entry mem
    have lt : entry.2 < positions.length := by simpa using List.snd_lt_of_mem_zipIdx mem
    exact Nat.testBit_two_pow_add_gt lt j
  rw [atOnes, atOnes, List.filter_congr lower]

theorem atOnes_concat_two_pow_add (position : Nat) (h : j < 2 ^ positions.length) :
    atOnes (positions ++ [position]) (2 ^ positions.length + j) =
      atOnes positions j ++ [position] := by
  rw [atOnes_concat, atOnes_two_pow_add, Nat.testBit_two_pow_add_eq, Nat.testBit_lt_two_pow h]
  rfl

def subsets (positions : List Nat) : List (List Nat) :=
  (List.range (2 ^ positions.length)).map (atOnes positions)

theorem mem_of_mem_subsets {chosen : List Nat} (mem : chosen ∈ subsets positions)
    (inside : position ∈ chosen) :
    position ∈ positions := by
  obtain ⟨j, _, rfl⟩ := List.mem_map.1 mem
  exact mem_of_mem_atOnes inside

theorem subsets_concat (positions : List Nat) (position : Nat) :
    subsets (positions ++ [position]) = subsets positions ++
      (subsets positions).map (· ++ [position]) := by
  -- The sets without the new member come first. The others follow in the same order, with one more
  -- digit.
  rw [subsets, subsets, List.length_append, List.length_singleton, pow_succ, Nat.mul_two,
    List.range_add, List.map_append, List.map_map, List.map_map]
  congr 1
  · apply List.map_congr_left
    intro j mem
    exact atOnes_concat_of_lt position (List.mem_range.1 mem)
  · apply List.map_congr_left
    intro j mem
    exact atOnes_concat_two_pow_add position (List.mem_range.1 mem)

theorem getElem_mem_atOnes_iff (nodup : positions.Nodup) {place : Nat}
    (h : place < positions.length) :
    positions[place] ∈ atOnes positions j ↔ j.testBit place = true := by
  have at_place : positions[place]? = some positions[place] := List.getElem?_eq_getElem h
  rw [mem_atOnes_iff]
  constructor
  · intro ⟨other, at_other, one⟩
    rwa [(List.getElem?_inj h nodup).1 (at_place.trans at_other.symm)]
  · exact fun one => ⟨place, at_place, one⟩

theorem toFinset_atOnes_eq_iff (nodup : positions.Nodup) {chosen : Finset Nat}
    (inside : ∀ position ∈ chosen, position ∈ positions) : (atOnes positions j).toFinset = chosen ↔
      ∀ place (h : place < positions.length),
        j.testBit place = decide (positions[place] ∈ chosen) := by
  constructor
  · intro same place h
    rw [Bool.eq_iff_iff, decide_eq_true_eq, ← same, List.mem_toFinset,
      getElem_mem_atOnes_iff nodup h]
  · intro digits
    have agree : ∀ position ∈ positions, position ∈ atOnes positions j ↔ position ∈ chosen := by
      intro position mem
      obtain ⟨place, h, rfl⟩ := List.mem_iff_getElem.1 mem
      rw [getElem_mem_atOnes_iff nodup h, digits place h, decide_eq_true_eq]
    ext position
    rw [List.mem_toFinset]
    exact ⟨fun mem => (agree position (mem_of_mem_atOnes mem)).1 mem,
      fun mem => (agree position (inside position mem)).2 mem⟩

theorem existsUnique_atOnes (nodup : positions.Nodup) {chosen : Finset Nat}
    (inside : ∀ position ∈ chosen, position ∈ positions) :
    ∃! j, j < 2 ^ positions.length ∧ (atOnes positions j).toFinset = chosen := by
  simp only [toFinset_atOnes_eq_iff nodup inside]
  refine ⟨Nat.ofBits fun place : Fin positions.length => decide (positions[place] ∈ chosen),
    ⟨Nat.ofBits_lt_two_pow _, fun place h => Nat.testBit_ofBits_lt _ place h⟩, ?_⟩
  intro j ⟨lt, digits⟩
  apply Nat.eq_of_testBit_eq
  intro place
  by_cases h : place < positions.length
  · rw [digits place h, Nat.testBit_ofBits_lt _ place h]
    rfl
  · have le := Nat.le_of_not_lt h
    rw [Nat.testBit_ofBits_ge _ place le,
      Nat.testBit_lt_two_pow (lt.trans_le (Nat.pow_le_pow_right Nat.two_pos le))]

end

def extendVariants (nullable : OrderedSet String) (entries : List Alternative) (symbol : Symbol) :
    List Alternative :=
  entries.map (· ++ [symbol]) ++ if Grammar.settled false nullable symbol then entries else []

theorem extendVariants_flatMap {symbol : Symbol} {branches : Alternative → List Alternative}
    (behind : ∀ entry, branches (entry ++ [symbol]) = (branches entry).map (· ++ [symbol]))
    (nullable : OrderedSet String) (entries : List Alternative) :
    (extendVariants nullable entries symbol).flatMap branches =
        extendVariants nullable (entries.flatMap branches) symbol := by
  simp only [extendVariants, List.flatMap_append, List.flatMap_map, List.map_flatMap, behind]
  split <;> rfl

theorem variants_cons (nullable : OrderedSet String) (symbol : Symbol) (right : Alternative) :
    variants nullable (symbol :: right) = (variants nullable right).flatMap fun variant =>
      (symbol :: variant) :: if Grammar.settled false nullable symbol then [variant] else [] := by
  cases symbol with
  | terminal name => simp [variants, Grammar.settled, List.map_eq_flatMap]
  | nonterminal name =>
    by_cases h : name ∈ nullable <;> simp [variants, Grammar.settled, h, List.map_eq_flatMap]

theorem variants_concat (nullable : OrderedSet String) (right : Alternative) (symbol : Symbol) :
    variants nullable (right ++ [symbol]) =
      extendVariants nullable (variants nullable right) symbol := by
  induction right with
  | nil => exact (variants_cons nullable symbol []).trans (List.flatMap_singleton ..)
  | cons first right ih =>
    -- The first symbol is dealt with last, and what it does at the front leaves the end alone.
    rw [List.cons_append, variants_cons, ih, variants_cons, extendVariants_flatMap]
    intro entry
    split <;> rfl

theorem variants_eq_foldl (nullable : OrderedSet String) (right : Alternative) :
    variants nullable right = right.foldl (extendVariants nullable) [[]] := by
  induction right using List.reverseRecOn with
  | nil => rfl
  | append_singleton right symbol ih => rw [variants_concat, ih, List.foldl_concat]

/-- What each set of nullable occurrences leaves of the alternative, by the number of the set. -/
def numberedVariants (nullable : OrderedSet String) (right : Alternative) : List Alternative :=
  (subsets (nullablePositions nullable right)).map (without right)

theorem numberedVariants_concat (nullable : OrderedSet String) (right : Alternative)
    (symbol : Symbol) :
    numberedVariants nullable (right ++ [symbol]) =
      extendVariants nullable (numberedVariants nullable right) symbol := by
  have kept : (subsets (nullablePositions nullable right)).map (without (right ++ [symbol])) =
      (numberedVariants nullable right).map (· ++ [symbol]) := by
    rw [numberedVariants, List.map_map]
    apply List.map_congr_left
    intro chosen mem
    have absent : right.length ∉ chosen :=
      fun last => Nat.lt_irrefl _ (lt_length_of_mem_nullablePositions (mem_of_mem_subsets mem last))
    rw [without_concat, if_neg absent]
    rfl
  rw [extendVariants, ← kept, numberedVariants, nullablePositions_concat]
  split
  · rw [subsets_concat, List.map_append, List.map_map]
    congr 1
    apply List.map_congr_left
    intro chosen _
    exact without_concat_length right symbol chosen
  · rw [List.append_nil, List.append_nil]

theorem foldl_extendVariants (nullable : OrderedSet String) (done rest : Alternative) :
    rest.foldl (extendVariants nullable) (numberedVariants nullable done) =
      numberedVariants nullable (done ++ rest) := by
  induction rest generalizing done with
  | nil => rw [List.append_nil]; rfl
  | cons symbol rest ih =>
    rw [List.foldl_cons, ← numberedVariants_concat, ih, List.append_assoc]; rfl

theorem length_numberedVariants (nullable : OrderedSet String) (right : Alternative) :
    (numberedVariants nullable right).length = 2 ^ (nullablePositions nullable right).length := by
  rw [numberedVariants, subsets, List.length_map, List.length_map, List.length_range]

theorem getElem?_numberedVariants {nullable : OrderedSet String} {right : Alternative} {j : Nat}
    (h : j < 2 ^ (nullablePositions nullable right).length) :
    (numberedVariants nullable right)[j]? =
        some (without right (atOnes (nullablePositions nullable right) j)) := by
  rw [numberedVariants, subsets, List.getElem?_map, List.getElem?_map, List.getElem?_range h]
  rfl

theorem variants_eq_numberedVariants (nullable : OrderedSet String) (right : Alternative) :
    variants nullable right = numberedVariants nullable right :=
  (variants_eq_foldl nullable right).trans (foldl_extendVariants nullable [] right)

/-- There is one variant for each set of nullable occurrences, and its index tells by binary digits
which of them are left out. -/
theorem variants_exact (nullable : OrderedSet String) (right : Alternative) :
    (variants nullable right).length = 2 ^ (nullablePositions nullable right).length ∧
      (∀ j < 2 ^ (nullablePositions nullable right).length, (variants nullable right)[j]? =
        some (without right (atOnes (nullablePositions nullable right) j))) ∧
      (variants nullable right)[0]? = some right ∧
      ∀ chosen : Finset Nat,
        (∀ position ∈ chosen, ∃ name ∈ nullable, right[position]? = some (.nonterminal name)) →
        ∃! j, j < 2 ^ (nullablePositions nullable right).length ∧
          (atOnes (nullablePositions nullable right) j).toFinset = chosen := by
  rw [variants_eq_numberedVariants]
  refine ⟨length_numberedVariants nullable right, fun j h => getElem?_numberedVariants h, ?_, ?_⟩
  · rw [getElem?_numberedVariants (Nat.two_pow_pos _), atOnes_zero, without_nil]
  · intro chosen occur
    exact existsUnique_atOnes nodup_nullablePositions fun position mem =>
      mem_nullablePositions_iff.2 (occur position mem)

example : variants (.ofList ["A"]) [.nonterminal "A", .terminal "b", .nonterminal "A"] =
    [[.nonterminal "A", .terminal "b", .nonterminal "A"], [.terminal "b", .nonterminal "A"],
      [.nonterminal "A", .terminal "b"], [.terminal "b"]] := rfl

def mixed : Alternative :=
  [.nonterminal "A", .terminal "b", .nonterminal "B", .terminal "A", .nonterminal "A",
    .nonterminal "C"]

theorem variants_exact_mixed : 5 < 2 ^ (nullablePositions (.ofList ["B", "A"]) mixed).length ∧
    (variants (.ofList ["B", "A"]) mixed)[5]? =
      some [.terminal "b", .nonterminal "B", .terminal "A", .nonterminal "C"] ∧
    (∀ position ∈ ({2, 4} : Finset Nat), ∃ name ∈ OrderedSet.ofList ["B", "A"],
      mixed[position]? = some (.nonterminal name)) ∧
    ∃! j, j < 8 ∧ (atOnes [0, 2, 4] j).toFinset = {2, 4} := by
  obtain ⟨_, entry, _, unique⟩ := variants_exact (.ofList ["B", "A"]) mixed
  have occur : ∀ position ∈ ({2, 4} : Finset Nat), ∃ name ∈ OrderedSet.ofList ["B", "A"],
      mixed[position]? = some (.nonterminal name) := by
    intro position mem
    rcases Finset.mem_insert.1 mem with rfl | mem
    · exact ⟨"B", by decide, rfl⟩
    · exact ⟨"A", by decide, Finset.mem_singleton.1 mem ▸ rfl⟩
  have bound : 5 < 2 ^ (nullablePositions (.ofList ["B", "A"]) mixed).length := by decide
  exact ⟨bound, entry 5 bound, occur, unique {2, 4} occur⟩

end ChomskyNormal
