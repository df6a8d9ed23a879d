import ChomskyNormal.Ordered.Set

/-!
# Iteration

A step that lowers a well-founded measure whenever it changes its argument is repeated until it
changes nothing. A breadth-first search visits the members of a set in the order in which they
entered it, and a visit appends the neighbours that have not been seen; it ends because every
neighbour comes from a finite list. In both cases something is counted down: members that are
missing, or a total of numbers that only fall.
-/

namespace ChomskyNormal

section

universe u v

variable {α : Type u} {μ : Type v} [DecidableEq α] [WellFoundedRelation μ]

def untilStable (step : α → α) (measure : α → μ)
    (lowers : ∀ a, step a ≠ a → WellFoundedRelation.rel (measure (step a)) (measure a))
    (a : α) : α :=
  let b := step a
  if _h : b = a then a else untilStable step measure lowers b
termination_by measure a
decreasing_by exact lowers a _h

variable {step : α → α} {measure : α → μ}
  {lowers : ∀ a, step a ≠ a → WellFoundedRelation.rel (measure (step a)) (measure a)}

theorem step_untilStable (a : α) :
    step (untilStable step measure lowers a) = untilStable step measure lowers a := by
  fun_induction untilStable step measure lowers a with
  | case1 _ _ h => exact h
  | case2 _ _ _ ih => exact ih

theorem untilStable_induction {p : α → Prop} (keeps : ∀ a, p a → p (step a)) {a : α} (h : p a) :
    p (untilStable step measure lowers a) := by
  fun_induction untilStable step measure lowers a with
  | case1 => exact h
  | case2 a _ _ ih => exact ih (keeps a h)

end

theorem countP_lt_countP {α : Type} {p q : α → Bool} {xs : List α} {a : α} (ha : a ∈ xs)
    (implies : ∀ x, p x → q x) (misses : p a = false) (holds : q a) :
    xs.countP p < xs.countP q := by
  obtain ⟨s, t, rfl⟩ := List.append_of_mem ha
  have hs : s.countP p ≤ s.countP q := List.countP_mono_left fun x _ => implies x
  have ht : t.countP p ≤ t.countP q := List.countP_mono_left fun x _ => implies x
  simp [misses, holds]
  omega

def total {α : Type} (f : α → Nat) : List α → Nat
  | [] => 0
  | x :: xs => f x + total f xs

theorem total_append {α : Type} (f : α → Nat) (xs ys : List α) :
    total f (xs ++ ys) = total f xs + total f ys := by
  induction xs with
  | nil => simp [total]
  | cons x xs ih => simp only [List.cons_append, total, ih, Nat.add_assoc]

theorem total_le_total {α : Type} {f g : α → Nat} (le : ∀ x, f x ≤ g x) (xs : List α) :
    total f xs ≤ total g xs := by
  induction xs with
  | nil => exact Nat.le_refl _
  | cons x xs ih => exact Nat.add_le_add (le x) ih

theorem total_lt_total {α : Type} {f g : α → Nat} {xs : List α} {a : α} (ha : a ∈ xs)
    (le : ∀ x, f x ≤ g x) (lt : f a < g a) : total f xs < total g xs := by
  obtain ⟨s, t, rfl⟩ := List.append_of_mem ha
  have hs := total_le_total le s
  have ht := total_le_total le t
  simp only [total_append, total]
  omega

variable {α : Type} [DecidableEq α]

theorem OrderedSet.size_insertMany_add_countP_le (scope : List α) (s : OrderedSet α) (as : List α)
    (h : ∀ a ∈ as, a ∈ scope) :
    (s.insertMany as).size + scope.countP (· ∉ s.insertMany as) ≤
      s.size + scope.countP (· ∉ s) := by
  induction as generalizing s with
  | nil => exact Nat.le_refl _
  | cons a as ih =>
    refine Nat.le_trans (ih (s.insert a) fun b hb => h b (.tail _ hb)) ?_
    by_cases ha : a ∈ s
    · simp only [insert_of_mem ha, Nat.le_refl]
    · have := countP_lt_countP (p := (· ∉ s.insert a)) (q := (· ∉ s)) (h a (.head _))
        (by simp +contextual) (by simp) (by simpa using ha)
      rw [size_insert, if_neg ha]
      omega

/-- The first `visited` members of `seen` have been visited. -/
def breadthFirst (next : α → List α) (scope : List α)
    (closed : ∀ a, ∀ b ∈ next a, b ∈ scope) (seen : OrderedSet α) (visited : Nat) : OrderedSet α :=
  if h : visited < seen.size then
    breadthFirst next scope closed (seen.insertMany (next seen.toList[visited])) (visited + 1)
  else seen
termination_by seen.size + scope.countP (· ∉ seen) - visited
decreasing_by
  have := seen.size_insertMany_add_countP_le scope (next seen.toList[visited]) (closed _)
  omega

end ChomskyNormal
