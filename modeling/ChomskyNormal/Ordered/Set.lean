/-!
# Ordered sets

Finite sets that list their members in the order of first insertion. Two such sets can hold the same
members in different orders; `Same` compares them as sets.
-/

namespace ChomskyNormal

structure OrderedSet (α : Type) where
  toList : List α
  nodup : toList.Nodup

namespace OrderedSet

variable {α : Type}

theorem toList_injective {s t : OrderedSet α} (h : s.toList = t.toList) : s = t := by
  cases s; cases t; cases h; rfl

instance : EmptyCollection (OrderedSet α) := ⟨⟨[], List.nodup_nil⟩⟩

instance : Inhabited (OrderedSet α) := ⟨∅⟩

instance : Membership α (OrderedSet α) := ⟨fun s a => a ∈ s.toList⟩

instance [DecidableEq α] (a : α) (s : OrderedSet α) : Decidable (a ∈ s) :=
  inferInstanceAs (Decidable (a ∈ s.toList))

instance [DecidableEq α] : DecidableEq (OrderedSet α) := fun s t =>
  decidable_of_iff (s.toList = t.toList) ⟨toList_injective, fun h => h ▸ rfl⟩

@[simp] theorem mem_toList {s : OrderedSet α} {a : α} : a ∈ s.toList ↔ a ∈ s := Iff.rfl

@[simp] theorem toList_empty : (∅ : OrderedSet α).toList = [] := rfl

@[simp] theorem not_mem_empty (a : α) : a ∉ (∅ : OrderedSet α) := List.not_mem_nil

def size (s : OrderedSet α) : Nat := s.toList.length

def isEmpty (s : OrderedSet α) : Bool := s.toList.isEmpty

def filter (p : α → Bool) (s : OrderedSet α) : OrderedSet α := ⟨s.toList.filter p, s.nodup.filter p⟩

@[simp] theorem toList_filter (p : α → Bool) (s : OrderedSet α) :
    (s.filter p).toList = s.toList.filter p := rfl

@[simp] theorem mem_filter {p : α → Bool} {s : OrderedSet α} {a : α} :
    a ∈ s.filter p ↔ a ∈ s ∧ p a := List.mem_filter

theorem filter_eq_self {p : α → Bool} {s : OrderedSet α} (all : ∀ a ∈ s, p a) : s.filter p = s :=
  toList_injective (List.filter_eq_self.2 all)

def Same (s t : OrderedSet α) : Prop := (∀ a ∈ s, a ∈ t) ∧ ∀ a ∈ t, a ∈ s

theorem same_iff {s t : OrderedSet α} : s.Same t ↔ ∀ a, a ∈ s ↔ a ∈ t :=
  ⟨fun h a => ⟨h.1 a, h.2 a⟩, fun h => ⟨fun a => (h a).1, fun a => (h a).2⟩⟩

theorem toList_eq_singleton_iff {s : OrderedSet α} {a : α} :
    s.toList = [a] ↔ ∀ b, b ∈ s ↔ b = a := by
  constructor
  · intro e b
    rw [← mem_toList, e, List.mem_singleton]
  · intro only
    have perm : s.toList.Perm [a] :=
      (List.perm_ext_iff_of_nodup s.nodup (by simp)).2 fun b =>
        (only b).trans List.mem_singleton.symm
    exact List.perm_singleton.1 perm

variable [DecidableEq α]

/-- A new member goes to the end, a present one keeps its place. -/
def insert (s : OrderedSet α) (a : α) : OrderedSet α :=
  if h : a ∈ s then s
  else ⟨s.toList ++ [a], List.nodup_append.2 ⟨s.nodup, by simp, fun x hx y hy e => by
    rw [List.mem_singleton.1 hy] at e
    exact h (e ▸ hx)⟩⟩

theorem insert_of_mem {s : OrderedSet α} {a : α} (h : a ∈ s) : s.insert a = s := by
  simp [insert, h]

theorem toList_insert_of_not_mem {s : OrderedSet α} {a : α} (h : a ∉ s) :
    (s.insert a).toList = s.toList ++ [a] := by
  simp [insert, h]

@[simp] theorem mem_insert {s : OrderedSet α} {a b : α} : b ∈ s.insert a ↔ b ∈ s ∨ b = a := by
  by_cases h : a ∈ s
  · rw [insert_of_mem h]
    exact ⟨.inl, fun hb => hb.elim id (· ▸ h)⟩
  · rw [← mem_toList, toList_insert_of_not_mem h]
    simp

theorem size_insert (s : OrderedSet α) (a : α) :
    (s.insert a).size = if a ∈ s then s.size else s.size + 1 := by
  by_cases h : a ∈ s
  · simp [insert_of_mem h, h]
  · simp [size, toList_insert_of_not_mem h, h]

theorem filter_insert_ne {s : OrderedSet α} {a : α} (h : a ∉ s) :
    (s.insert a).filter (· ≠ a) = s := by
  apply toList_injective
  rw [toList_filter, toList_insert_of_not_mem h, List.filter_append, List.filter_eq_self.2]
  · simp
  · exact fun b mem => decide_eq_true fun same => h (same ▸ mem)

def insertMany (s : OrderedSet α) (as : List α) : OrderedSet α := as.foldl insert s

@[simp] theorem insertMany_nil (s : OrderedSet α) : s.insertMany [] = s := rfl

@[simp] theorem insertMany_cons (s : OrderedSet α) (a : α) (as : List α) :
    s.insertMany (a :: as) = (s.insert a).insertMany as := rfl

theorem insertMany_append (s : OrderedSet α) (as bs : List α) :
    s.insertMany (as ++ bs) = (s.insertMany as).insertMany bs := List.foldl_append

@[simp] theorem mem_insertMany {s : OrderedSet α} {as : List α} {b : α} :
    b ∈ s.insertMany as ↔ b ∈ s ∨ b ∈ as := by
  induction as generalizing s with
  | nil => simp
  | cons a as ih => simp [ih, or_assoc]

theorem insertMany_of_forall_mem {s : OrderedSet α} {as : List α} (all : ∀ a ∈ as, a ∈ s) :
    s.insertMany as = s := by
  induction as with
  | nil => rfl
  | cons a as ih =>
    have first : s.insert a = s := insert_of_mem (all a List.mem_cons_self)
    rw [insertMany_cons, first, ih fun b mem => all b (List.mem_cons_of_mem a mem)]

def ofList (as : List α) : OrderedSet α := insertMany ∅ as

@[simp] theorem mem_ofList {as : List α} {b : α} : b ∈ ofList as ↔ b ∈ as := by
  simp [ofList]

theorem toList_insertMany_of_nodup {s : OrderedSet α} {as : List α}
    (nodup : (s.toList ++ as).Nodup) :
    (s.insertMany as).toList = s.toList ++ as := by
  induction as generalizing s with
  | nil => simp
  | cons a as ih =>
    have new : a ∉ s := fun mem => (List.nodup_append.1 nodup).2.2 a mem a List.mem_cons_self rfl
    have grown := toList_insert_of_not_mem new
    rw [List.append_cons] at nodup
    rw [insertMany_cons, ih (grown ▸ nodup), grown, ← List.append_cons]

@[simp] theorem ofList_toList (s : OrderedSet α) : ofList s.toList = s :=
  toList_injective (toList_insertMany_of_nodup s.nodup)

theorem head?_toList_insertMany (s : OrderedSet α) (as : List α) :
    (s.insertMany as).toList.head? = s.toList.head?.or as.head? := by
  induction as generalizing s with
  | nil => simp
  | cons a as ih =>
    rw [insertMany_cons, ih]
    by_cases mem : a ∈ s
    · have ⟨b, tail, e⟩ := List.exists_cons_of_ne_nil (List.ne_nil_of_mem (mem_toList.2 mem))
      simp [insert_of_mem mem, e]
    · rw [toList_insert_of_not_mem mem, List.head?_append, Option.or_assoc]
      simp

theorem head?_toList_ofList (as : List α) : (ofList as).toList.head? = as.head? := by
  simp [ofList, head?_toList_insertMany]

instance (s t : OrderedSet α) : Decidable (s.Same t) :=
  inferInstanceAs (Decidable ((∀ a ∈ s.toList, a ∈ t) ∧ ∀ a ∈ t.toList, a ∈ s))

end OrderedSet

end ChomskyNormal
