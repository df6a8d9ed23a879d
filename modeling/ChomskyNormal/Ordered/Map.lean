import ChomskyNormal.Ordered.Set

/-!
# Ordered maps

Finite maps that list their entries in the order in which the keys were first inserted. A new value
for a present key takes the place of the old one.
-/

namespace ChomskyNormal

structure OrderedMap (κ ν : Type) where
  entries : List (κ × ν)
  nodup_keys : (entries.map Prod.fst).Nodup

namespace OrderedMap

variable {κ ν μ : Type}

theorem entries_injective {m n : OrderedMap κ ν} (h : m.entries = n.entries) : m = n := by
  cases m; cases n; cases h; rfl

instance : EmptyCollection (OrderedMap κ ν) := ⟨⟨[], List.nodup_nil⟩⟩

instance : Inhabited (OrderedMap κ ν) := ⟨∅⟩

instance [DecidableEq κ] [DecidableEq ν] : DecidableEq (OrderedMap κ ν) := fun m n =>
  decidable_of_iff (m.entries = n.entries) ⟨entries_injective, fun h => h ▸ rfl⟩

def keys (m : OrderedMap κ ν) : OrderedSet κ := ⟨m.entries.map Prod.fst, m.nodup_keys⟩

@[simp] theorem toList_keys (m : OrderedMap κ ν) : m.keys.toList = m.entries.map Prod.fst := rfl

def ofKeys (ks : OrderedSet κ) (v : ν) : OrderedMap κ ν :=
  ⟨ks.toList.map fun k => (k, v), by simpa [Function.comp_def] using ks.nodup⟩

@[simp] theorem keys_ofKeys (ks : OrderedSet κ) (v : ν) : (ofKeys ks v).keys = ks :=
  OrderedSet.toList_injective (by simp [ofKeys, Function.comp_def])

def mapValues (f : κ → ν → μ) (m : OrderedMap κ ν) : OrderedMap κ μ :=
  ⟨m.entries.map fun (k, v) => (k, f k v), by simpa [Function.comp_def] using m.nodup_keys⟩

@[simp] theorem keys_mapValues (f : κ → ν → μ) (m : OrderedMap κ ν) :
    (m.mapValues f).keys = m.keys :=
  OrderedSet.toList_injective (by simp [mapValues, Function.comp_def])

theorem mapValues_eq_self {f : κ → ν → ν} {m : OrderedMap κ ν}
    (same : ∀ entry ∈ m.entries, f entry.1 entry.2 = entry.2) :
    m.mapValues f = m := by
  apply entries_injective
  calc
    (m.mapValues f).entries = m.entries.map id :=
      List.map_congr_left fun entry mem => Prod.ext rfl (same entry mem)
    _ = m.entries := List.map_id _

def filterKeys (p : κ → Bool) (m : OrderedMap κ ν) : OrderedMap κ ν :=
  ⟨m.entries.filter fun (k, _) => p k, by
    have h := m.nodup_keys.filter p
    rwa [List.filter_map] at h⟩

@[simp] theorem keys_filterKeys (p : κ → Bool) (m : OrderedMap κ ν) :
    (m.filterKeys p).keys = m.keys.filter p :=
  OrderedSet.toList_injective (by simp [filterKeys, List.filter_map, Function.comp_def])

theorem filterKeys_eq_self {p : κ → Bool} {m : OrderedMap κ ν} (all : ∀ k ∈ m.keys, p k) :
    m.filterKeys p = m :=
  entries_injective (List.filter_eq_self.2 fun _ mem => all _ (List.mem_map_of_mem mem))

variable [DecidableEq κ]

def get? (m : OrderedMap κ ν) (k : κ) : Option ν := m.entries.lookup k

theorem lookup_isSome_iff {es : List (κ × ν)} {k : κ} :
    (es.lookup k).isSome ↔ k ∈ es.map Prod.fst := by
  induction es with
  | nil => simp
  | cons e es ih =>
    obtain ⟨l, v⟩ := e
    by_cases h : k = l
    · simp [h]
    · simp [List.lookup_cons, h, ih, beq_false_of_ne h]

theorem lookup_eq_some_iff {es : List (κ × ν)} (hes : (es.map Prod.fst).Nodup) {k : κ} {v : ν} :
    es.lookup k = some v ↔ (k, v) ∈ es := by
  induction es with
  | nil => simp
  | cons e es ih =>
    obtain ⟨l, w⟩ := e
    obtain ⟨hl, hes⟩ := List.nodup_cons.1 hes
    by_cases h : k = l
    · subst h
      have hk : (k, v) ∉ es := fun hv => hl (List.mem_map.2 ⟨(k, v), hv, rfl⟩)
      simp [hk, eq_comm]
    · simp [List.lookup_cons, h, ih hes, beq_false_of_ne h]

theorem isSome_get?_iff {m : OrderedMap κ ν} {k : κ} : (m.get? k).isSome ↔ k ∈ m.keys :=
  lookup_isSome_iff

theorem get?_eq_none_iff {m : OrderedMap κ ν} {k : κ} : m.get? k = none ↔ k ∉ m.keys := by
  rw [← isSome_get?_iff, Option.not_isSome_iff_eq_none]

theorem get?_eq_some_iff {m : OrderedMap κ ν} {k : κ} {v : ν} :
    m.get? k = some v ↔ (k, v) ∈ m.entries := lookup_eq_some_iff m.nodup_keys

theorem eq_of_get? {m n : OrderedMap κ ν} (keys : m.keys = n.keys)
    (same : ∀ k ∈ m.keys, m.get? k = n.get? k) :
    m = n := by
  have keys : m.entries.map Prod.fst = n.entries.map Prod.fst := congrArg OrderedSet.toList keys
  apply entries_injective
  apply List.ext_getElem (by simpa using congrArg List.length keys)
  intro i hm hn
  have key : m.entries[i].1 = n.entries[i].1 := by
    have := List.getElem_of_eq keys (i := i) (by simpa using hm)
    simpa using this
  have left : m.get? m.entries[i].1 = some m.entries[i].2 :=
    get?_eq_some_iff.2 (List.getElem_mem hm)
  have right : n.get? n.entries[i].1 = some n.entries[i].2 :=
    get?_eq_some_iff.2 (List.getElem_mem hn)
  rw [same _ (List.mem_map_of_mem (List.getElem_mem hm)), key, right, Option.some.injEq] at left
  exact Prod.ext key left.symm

theorem get?_ofKeys (ks : OrderedSet κ) (v : ν) (k : κ) :
    (ofKeys ks v).get? k = if k ∈ ks then some v else none := by
  split
  · next h => exact get?_eq_some_iff.2 (List.mem_map.2 ⟨k, h, rfl⟩)
  · next h => exact get?_eq_none_iff.2 (by simpa using h)

theorem get?_mapValues (f : κ → ν → μ) (m : OrderedMap κ ν) (k : κ) :
    (m.mapValues f).get? k = (m.get? k).map (f k) := by
  simp only [get?, mapValues]
  induction m.entries with
  | nil => rfl
  | cons e es ih =>
    obtain ⟨l, v⟩ := e
    by_cases h : k = l
    · simp [h]
    · simp [List.lookup_cons, beq_false_of_ne h, ih]

theorem get?_filterKeys (p : κ → Bool) (m : OrderedMap κ ν) (k : κ) :
    (m.filterKeys p).get? k = if p k then m.get? k else none := by
  split
  · next h =>
    cases e : m.get? k with
    | none => exact get?_eq_none_iff.2 (by simp [get?_eq_none_iff.1 e])
    | some v => exact get?_eq_some_iff.2 (List.mem_filter.2 ⟨get?_eq_some_iff.1 e, h⟩)
  · next h => exact get?_eq_none_iff.2 (by simp [h])

/-- A new key goes to the end, a present one keeps its place and gets the new value. -/
def insert (m : OrderedMap κ ν) (k : κ) (v : ν) : OrderedMap κ ν :=
  if h : k ∈ m.keys then
    ⟨m.entries.map fun e => (e.1, if e.1 = k then v else e.2), by
      simpa [Function.comp_def] using m.nodup_keys⟩
  else ⟨m.entries ++ [(k, v)], by
    have := (m.keys.insert k).nodup
    rw [OrderedSet.toList_insert_of_not_mem h] at this
    simpa using this⟩

theorem entries_insert_of_mem {m : OrderedMap κ ν} {k : κ} (h : k ∈ m.keys) (v : ν) :
    (m.insert k v).entries = m.entries.map fun e => (e.1, if e.1 = k then v else e.2) := by
  simp [insert, h]

theorem entries_insert_of_not_mem {m : OrderedMap κ ν} {k : κ} (h : k ∉ m.keys) (v : ν) :
    (m.insert k v).entries = m.entries ++ [(k, v)] := by
  simp [insert, h]

@[simp] theorem keys_insert (m : OrderedMap κ ν) (k : κ) (v : ν) :
    (m.insert k v).keys = m.keys.insert k := by
  apply OrderedSet.toList_injective
  by_cases h : k ∈ m.keys
  · simp [entries_insert_of_mem h, OrderedSet.insert_of_mem h, Function.comp_def]
  · simp [entries_insert_of_not_mem h, OrderedSet.toList_insert_of_not_mem h]

theorem lookup_map_ite (es : List (κ × ν)) (k l : κ) (v : ν) :
    (es.map fun e => (e.1, if e.1 = k then v else e.2)).lookup l =
      (es.lookup l).map fun w => if l = k then v else w := by
  induction es with
  | nil => rfl
  | cons e es ih =>
    obtain ⟨j, w⟩ := e
    by_cases h : l = j
    · simp [h]
    · simp [List.lookup_cons, beq_false_of_ne h, ih]

theorem get?_insert (m : OrderedMap κ ν) (k l : κ) (v : ν) :
    (m.insert k v).get? l = if l = k then some v else m.get? l := by
  by_cases hk : k ∈ m.keys
  · rw [get?, entries_insert_of_mem hk, lookup_map_ite, ← get?]
    by_cases h : l = k
    · obtain ⟨w, hw⟩ := Option.isSome_iff_exists.1 (isSome_get?_iff.2 hk)
      simp [h, hw]
    · simp [h]
  · rw [get?, entries_insert_of_not_mem hk, List.lookup_append, ← get?]
    by_cases h : l = k
    · simp [h, get?_eq_none_iff.2 hk]
    · simp [List.lookup_cons, beq_false_of_ne h, h]

def modify (m : OrderedMap κ ν) (k : κ) (start : ν) (f : ν → ν) : OrderedMap κ ν :=
  m.insert k (f ((m.get? k).getD start))

@[simp] theorem keys_modify (m : OrderedMap κ ν) (k : κ) (start : ν) (f : ν → ν) :
    (m.modify k start f).keys = m.keys.insert k := keys_insert ..

theorem get?_modify (m : OrderedMap κ ν) (k l : κ) (start : ν) (f : ν → ν) :
    (m.modify k start f).get? l = if l = k then some (f ((m.get? k).getD start)) else m.get? l :=
  get?_insert ..

end OrderedMap

end ChomskyNormal
