import ChomskyNormal.Proofs.Heights
import ChomskyNormal.Proofs.Saturation
import Mathlib.Data.Finset.Card
import Mathlib.Order.Bounds.Defs
import Mathlib.Order.Interval.Finset.Nat

/-!
# Heights are least heights

Every estimate is the height of some tree, and after as many rounds as a tree is high the estimates
are at most as high as the tree. Heights leave no gaps, so that no height exceeds the number of
rules. Hence so many rounds are enough, and what they leave is for each productive nonterminal the
height of its lowest tree.
-/

namespace ChomskyNormal

namespace Heights

variable {heights lower : Heights}

theorem refines_refl (heights : Heights) : heights.Refines heights :=
  fun _ h e => ⟨h, Nat.le_refl h, e⟩

theorem Refines.trans {lowest : Heights} (first : lowest.Refines lower)
    (second : lower.Refines heights) :
    lowest.Refines heights := by
  intro name h e
  have ⟨h', le, e'⟩ := second name h e
  have ⟨h'', le', e''⟩ := first name h' e'
  exact ⟨h'', le'.trans le, e''⟩

theorem refines_lowerRule (heights : Heights) (rule : String × OrderedSet Alternative) :
    (heights.lowerRule rule).Refines heights := by
  unfold lowerRule
  split
  · exact refines_refl heights
  · split
    · next improves => exact refines_insert improves
    · exact refines_refl heights

theorem refines_lowerRound (rules : List (String × OrderedSet Alternative)) (heights : Heights) :
    (lowerRound rules heights).Refines heights := by
  induction rules generalizing heights with
  | nil => exact refines_refl heights
  | cons rule rules ih => exact (ih _).trans (refines_lowerRule heights rule)

theorem exists_get?_lowerRound {g : Grammar} {name : String} {right : Alternative}
    (mem : right ∈ g.alternatives name) {h : Nat} (e : heights.row? right = some h) :
    ∃ h' ≤ h + 1, (lowerRound g.rules.entries heights).get? name = some h' := by
  obtain ⟨rights, entry, hr⟩ := Grammar.mem_alternatives_iff.1 mem
  obtain ⟨before, after, split⟩ := List.append_of_mem entry
  have found : heights.alternative? right = some (h + 1) := by rw [alternative?, e]; rfl
  obtain ⟨h₁, le₁, found₁⟩ := alternative?_of_refines (refines_lowerRound before heights) found
  obtain ⟨h₂, le₂, least⟩ := exists_least? hr found₁
  obtain ⟨h₃, le₃, got⟩ := exists_get?_lowerRule (name, rights) least
  obtain ⟨h₄, le₄, got'⟩ := refines_lowerRound after _ name h₃ got
  refine ⟨h₄, by omega, ?_⟩
  rw [lowerRound, split, List.foldl_append, List.foldl_cons]
  exact got'

def Attained (g : Grammar) (heights : Heights) : Prop :=
  ∀ name h, heights.get? name = some h →
    ∃ children : Forest, children.Follows g ∧ children.roots ∈ g.alternatives name ∧
      children.height + 1 = h

variable {g : Grammar}

theorem exists_forest_of_row? (attained : heights.Attained g) {symbols : List Symbol} {h : Nat}
    (e : heights.row? symbols = some h) :
    ∃ f : Forest, f.Follows g ∧ f.roots = symbols ∧ f.height = h := by
  induction symbols generalizing h with
  | nil =>
    cases e
    exact ⟨.nil, trivial, rfl, rfl⟩
  | cons symbol rest ih =>
    cases symbol with
    | terminal name =>
      obtain ⟨f, follows, roots, height⟩ := ih e
      exact ⟨.leaf name f, follows, congrArg _ roots, height⟩
    | nonterminal name =>
      simp only [row?] at e
      split at e
      · next first others e₁ e₂ =>
        obtain ⟨children, below, mem, high⟩ := attained name first e₁
        obtain ⟨f, follows, roots, height⟩ := ih e₂
        cases e
        exact ⟨.branch name children f, ⟨mem, below, follows⟩, congrArg _ roots,
          by rw [Forest.height, high, height]⟩
      · contradiction

theorem exists_children_of_least? (attained : heights.Attained g)
    {rights : OrderedSet Alternative} {h : Nat} (e : heights.least? rights = some h) :
    ∃ children : Forest, children.Follows g ∧ children.roots ∈ rights ∧
      children.height + 1 = h := by
  have ⟨⟨right, mem, found⟩, _⟩ := least?_eq_some_iff.1 e
  have ⟨k, row, same⟩ := Option.map_eq_some_iff.1 found
  have ⟨f, follows, roots, height⟩ := exists_forest_of_row? attained row
  exact ⟨f, follows, roots ▸ mem, height ▸ same⟩

theorem attained_lowerRule (attained : heights.Attained g) {rule : String × OrderedSet Alternative}
    (mem : rule ∈ g.rules.entries) : (heights.lowerRule rule).Attained g := by
  unfold lowerRule
  split
  · exact attained
  next h e =>
    split
    · intro name k got
      rw [OrderedMap.get?_insert] at got
      split at got
      · next same =>
        obtain ⟨children, follows, roots, high⟩ := exists_children_of_least? attained e
        cases got
        exact ⟨children, follows, Grammar.mem_alternatives_iff.2 ⟨rule.2, same ▸ mem, roots⟩, high⟩
      · exact attained name k got
    · exact attained

theorem attained_lowerRound (attained : heights.Attained g) :
    (lowerRound g.rules.entries heights).Attained g :=
  List.foldlRecOn _ _ attained fun _ attained _ mem => attained_lowerRule attained mem

theorem exists_nonterminal_of_row? {symbols : List Symbol} {h : Nat}
    (e : heights.row? symbols = some (h + 1)) :
    ∃ name, heights.get? name = some (h + 1) := by
  induction symbols with
  | nil => exact absurd (Option.some.inj e).symm (Nat.succ_ne_zero h)
  | cons symbol rest ih =>
    cases symbol with
    | terminal => exact ih e
    | nonterminal name =>
      simp only [row?] at e
      split at e
      · next first others e₁ e₂ =>
        rw [Option.some.injEq] at e
        rcases Nat.le_total first others with le | le
        · rw [Nat.max_eq_right le] at e
          exact ih (e ▸ e₂)
        · rw [Nat.max_eq_left le] at e
          exact ⟨name, e ▸ e₁⟩
      · contradiction

end Heights

namespace Grammar

variable {g : Grammar}

/-- Some derivation tree from the nonterminal to a word is exactly so high. -/
def TreeHeight (g : Grammar) (name : String) (h : Nat) : Prop :=
  ∃ f : Forest, f.Follows g ∧ f.roots = [.nonterminal name] ∧ f.height = h

theorem attained_heights (g : Grammar) : g.heights.Attained g :=
  untilStable_induction (fun _ attained => Heights.attained_lowerRound attained)
    fun _ _ e => nomatch e

theorem treeHeight_of_children {name : String} {h : Nat} {children : Forest}
    (follows : children.Follows g) (mem : children.roots ∈ g.alternatives name)
    (high : children.height + 1 = h) : g.TreeHeight name h :=
  ⟨.branch name children .nil, ⟨mem, follows, trivial⟩, rfl,
    by rw [Forest.height, high]; exact Nat.max_zero h⟩

theorem treeHeight_of_get? {heights : Heights} (attained : heights.Attained g)
    {name : String} {h : Nat} (e : heights.get? name = some h) : g.TreeHeight name h := by
  have ⟨_, follows, mem, high⟩ := attained name h e
  exact treeHeight_of_children follows mem high

theorem get?_of_row? {heights : Heights} {name : String} {h : Nat}
    (e : heights.row? [.nonterminal name] = some h) :
    heights.get? name = some h := by
  simp only [Heights.row?] at e
  split at e
  · next first _ e₁ e₂ =>
    cases e₂
    rw [e₁, ← e, Nat.max_zero]
  · contradiction

theorem exists_get?_le_of_treeHeight {name : String} {h : Nat} (tree : g.TreeHeight name h) :
    ∃ h' ≤ h, g.heights.get? name = some h' := by
  have ⟨f, follows, roots, height⟩ := tree
  have ⟨h', le, e⟩ := exists_row?_le_height follows
  exact ⟨h', height ▸ le, get?_of_row? (roots ▸ e)⟩

theorem get?_heights_eq_some_iff {name : String} {h : Nat} :
    g.heights.get? name = some h ↔ IsLeast {k | g.TreeHeight name k} h := by
  constructor
  · intro e
    refine ⟨treeHeight_of_get? g.attained_heights e, fun k tree => ?_⟩
    have ⟨h', le, e'⟩ := exists_get?_le_of_treeHeight tree
    rw [e, Option.some.injEq] at e'
    exact e' ▸ le
  · intro least
    have ⟨h', le, e⟩ := exists_get?_le_of_treeHeight least.1
    rw [e, le.antisymm (least.2 (treeHeight_of_get? g.attained_heights e))]

theorem mem_keys_heights_iff {name : String} : name ∈ g.heights.keys ↔ g.Productive name := by
  rw [← OrderedMap.isSome_get?_iff]
  constructor
  · intro found
    have ⟨h, e⟩ := Option.isSome_iff_exists.1 found
    have ⟨f, follows, roots, _⟩ := treeHeight_of_get? g.attained_heights e
    exact ⟨f.yield, derives_iff_exists_forest.2 ⟨f, follows, roots, rfl⟩⟩
  · exact fun ⟨_, d⟩ => isSome_heights_of_derives d

def estimates (g : Grammar) (rounds : Nat) : Heights :=
  (Heights.lowerRound g.rules.entries)^[rounds] ∅

theorem estimates_succ (g : Grammar) (rounds : Nat) :
    g.estimates (rounds + 1) = Heights.lowerRound g.rules.entries (g.estimates rounds) :=
  Function.iterate_succ_apply' ..

theorem attained_estimates (g : Grammar) (rounds : Nat) : (g.estimates rounds).Attained g := by
  induction rounds with
  | zero => exact fun _ _ e => nomatch e
  | succ rounds ih =>
    rw [estimates_succ]
    exact Heights.attained_lowerRound ih

theorem exists_row?_estimates_le {rounds : Nat} {f : Forest} (follows : f.Follows g)
    (le : f.height ≤ rounds) :
    ∃ h ≤ f.height, (g.estimates rounds).row? f.roots = some h := by
  -- A tree has been found when as many rounds have passed as it is high.
  induction f generalizing rounds with
  | nil => exact ⟨0, Nat.le_refl 0, rfl⟩
  | leaf _ rest ih => exact ih follows le
  | branch name children rest ih₁ ih₂ =>
    obtain ⟨mem, below, beside⟩ := follows
    rw [Forest.height, Nat.max_le] at le
    obtain ⟨h₂, le₂, e₂⟩ := ih₂ beside le.2
    cases rounds with
    | zero => exact absurd le.1 (Nat.not_succ_le_zero _)
    | succ rounds =>
      obtain ⟨h₁, le₁, e₁⟩ := ih₁ below (Nat.le_of_succ_le_succ le.1)
      obtain ⟨h, le₀, got⟩ := Heights.exists_get?_lowerRound mem e₁
      rw [← estimates_succ] at got
      refine ⟨max h h₂, ?_, ?_⟩
      · rw [Forest.height]
        omega
      · simp only [Forest.roots, Heights.row?, got, e₂]

theorem exists_height_of_lt {name : String} {h k : Nat} (e : g.heights.get? name = some h)
    (pos : 0 < k) (le : k ≤ h) : ∃ other, g.heights.get? other = some k := by
  induction h generalizing name with
  | zero => omega
  | succ h ih =>
    rcases Nat.lt_or_eq_of_le le with lt | same
    · rw [get?_heights] at e
      have ⟨⟨right, _, found⟩, _⟩ := Heights.least?_eq_some_iff.1 e
      have ⟨top, row, high⟩ := Option.map_eq_some_iff.1 found
      obtain ⟨h, rfl⟩ : ∃ below, h = below + 1 := ⟨h - 1, by omega⟩
      have ⟨other, e'⟩ := Heights.exists_nonterminal_of_row? (Nat.succ.inj high ▸ row)
      exact ih e' (Nat.le_of_lt_succ lt)
    · exact ⟨name, same ▸ e⟩

theorem height_le_size {name : String} {h : Nat} (e : g.heights.get? name = some h) :
    h ≤ g.rules.keys.size := by
  let heightOf (name : String) : Nat := (g.heights.get? name).getD 0
  have covered : Finset.Icc 1 h ⊆ g.rules.keys.toList.toFinset.image heightOf := by
    intro k mem
    have ⟨pos, le⟩ := Finset.mem_Icc.1 mem
    have ⟨other, e'⟩ := exists_height_of_lt e pos le
    have ⟨_, _, alternative, _⟩ := g.attained_heights other k e'
    refine Finset.mem_image.2
      ⟨other, List.mem_toFinset.2 (mem_keys_of_mem_alternatives alternative), ?_⟩
    simp only [heightOf, e', Option.getD_some]
  calc
    h = (Finset.Icc 1 h).card := by rw [Nat.card_Icc, Nat.add_sub_cancel]
    _ ≤ (g.rules.keys.toList.toFinset.image heightOf).card := Finset.card_le_card covered
    _ ≤ g.rules.keys.toList.toFinset.card := Finset.card_image_le
    _ ≤ g.rules.keys.size := List.toFinset_card_le _

theorem lowerRule_estimates {rule : String × OrderedSet Alternative}
    (mem : rule ∈ g.rules.entries) :
    (g.estimates g.rules.keys.size).lowerRule rule = g.estimates g.rules.keys.size := by
  unfold Heights.lowerRule
  split
  · rfl
  · next h least =>
    have ⟨children, follows, roots, high⟩ :=
      Heights.exists_children_of_least? (g.attained_estimates _) least
    have alternative : children.roots ∈ g.alternatives rule.1 :=
      mem_alternatives_iff.2 ⟨rule.2, mem, roots⟩
    have tree : g.TreeHeight rule.1 h := treeHeight_of_children follows alternative high
    have ⟨h₁, le₁, e₁⟩ := exists_get?_le_of_treeHeight tree
    have ⟨lowest, follows', roots', height⟩ := treeHeight_of_get? g.attained_heights e₁
    have ⟨h₂, le₂, e₂⟩ := exists_row?_estimates_le follows' (height ▸ height_le_size e₁)
    have old := get?_of_row? (roots' ▸ e₂)
    exact if_neg fun improves => absurd (improves h₂ old) (by omega)

theorem estimates_size_succ (g : Grammar) :
    g.estimates (g.rules.keys.size + 1) = g.estimates g.rules.keys.size := by
  rw [estimates_succ]
  refine List.foldlRecOn
    (motive := fun heights => heights = g.estimates g.rules.keys.size) _ _ rfl ?_
  intro heights same rule mem
  rw [same, lowerRule_estimates mem]

theorem exists_estimates_eq_heights (g : Grammar) :
    ∃ rounds ≤ g.rules.keys.size, g.estimates rounds = g.heights ∧
      ∀ earlier < rounds, g.estimates (earlier + 1) ≠ g.estimates earlier := by
  have ⟨rounds, reached, changing⟩ := exists_iterate_untilStable g.lowerRound_lowers ∅
  exact ⟨rounds, Nat.le_of_not_lt fun lt => changing _ lt g.estimates_size_succ, reached, changing⟩

/-- The rounds come to an end, at the latest when there have been as many of them as there are
rules. Then exactly the productive nonterminals have a height, and it is that of their lowest
tree. -/
theorem heights_exact (g : Grammar) :
    (∃ rounds ≤ g.rules.keys.size, g.estimates rounds = g.heights ∧
      g.estimates (rounds + 1) = g.heights ∧
      ∀ earlier < rounds, g.estimates (earlier + 1) ≠ g.estimates earlier) ∧
    ∀ name, (name ∈ g.heights.keys ↔ name ∈ g.productive) ∧
      (name ∈ g.productive ↔ ∃ word, g.Derives [.nonterminal name] word) ∧
      ∀ h, g.heights.get? name = some h ↔ IsLeast {k | g.TreeHeight name k} h := by
  constructor
  · have ⟨rounds, le, reached, changing⟩ := g.exists_estimates_eq_heights
    refine ⟨rounds, le, reached, ?_, changing⟩
    rw [estimates_succ, reached, lowerRound_heights]
  · intro name
    refine ⟨?_, mem_productive_iff, fun _ => get?_heights_eq_some_iff⟩
    rw [mem_keys_heights_iff, mem_productive_iff]

end Grammar

end ChomskyNormal
