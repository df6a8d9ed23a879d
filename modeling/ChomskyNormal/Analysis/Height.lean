import ChomskyNormal.Grammar.Basic
import ChomskyNormal.Iteration

/-!
# Derivation heights

The height of a nonterminal is that of its lowest derivation tree. Heights are found by lowering
estimates until none can be lowered: a rule gets one more than the least height of an alternative,
where an alternative is as high as its highest nonterminal.
-/

namespace ChomskyNormal

abbrev Heights := OrderedMap String Nat

namespace Heights

def row? (heights : Heights) : List Symbol → Option Nat
  | [] => some 0
  | .terminal _ :: rest => heights.row? rest
  | .nonterminal name :: rest =>
    match heights.get? name, heights.row? rest with
    | some first, some others => some (max first others)
    | _, _ => none

def alternative? (heights : Heights) (right : Alternative) : Option Nat :=
  (heights.row? right).map (· + 1)

def least? (heights : Heights) (rights : OrderedSet Alternative) : Option Nat :=
  (rights.toList.filterMap heights.alternative?).min?

def Improves (heights : Heights) (name : String) (h : Nat) : Prop :=
  ∀ old ∈ heights.get? name, h < old

instance (heights : Heights) (name : String) (h : Nat) : Decidable (heights.Improves name h) :=
  inferInstanceAs (Decidable (∀ old ∈ heights.get? name, h < old))

/-- A new nonterminal goes to the end, a lowered one keeps its place. -/
def lowerRule (heights : Heights) (rule : String × OrderedSet Alternative) : Heights :=
  match heights.least? rule.2 with
  | none => heights
  | some h => if heights.Improves rule.1 h then heights.insert rule.1 h else heights

def lowerRound (rules : List (String × OrderedSet Alternative)) (heights : Heights) : Heights :=
  rules.foldl lowerRule heights

def remaining (names : List String) (heights : Heights) : Nat × Nat :=
  (names.countP fun name => (heights.get? name).isNone,
    total (fun name => (heights.get? name).getD 0) names)

theorem remaining_insert {names : List String} {heights : Heights} {name : String} {h : Nat}
    (mem : name ∈ names) (improves : heights.Improves name h) :
    Prod.Lex (· < ·) (· < ·) (remaining names (heights.insert name h))
      (remaining names heights) := by
  rw [Prod.lex_def]
  cases e : heights.get? name with
  | none =>
    left
    refine countP_lt_countP mem (fun x hx => ?_) (by simp [OrderedMap.get?_insert]) (by simp [e])
    rw [OrderedMap.get?_insert] at hx
    split at hx <;> simp_all
  | some old =>
    have lower := improves old e
    right
    refine ⟨List.countP_congr fun x _ => ?_, total_lt_total mem (fun x => ?_) ?_⟩
    · rw [OrderedMap.get?_insert]; split <;> simp_all
    · rw [OrderedMap.get?_insert]; split <;> simp_all; omega
    · simpa [OrderedMap.get?_insert, e] using lower

theorem lowerRule_eq_or {names : List String} (heights : Heights)
    (rule : String × OrderedSet Alternative) (mem : rule.1 ∈ names) :
    heights.lowerRule rule = heights ∨
      Prod.Lex (· < ·) (· < ·) (remaining names (heights.lowerRule rule))
        (remaining names heights) := by
  unfold lowerRule
  split
  · exact .inl rfl
  · split
    · next improves => exact .inr (remaining_insert mem improves)
    · exact .inl rfl

theorem lowerRound_eq_or {names : List String} (rules : List (String × OrderedSet Alternative))
    (heights : Heights) (mem : ∀ rule ∈ rules, rule.1 ∈ names) :
    lowerRound rules heights = heights ∨
      Prod.Lex (· < ·) (· < ·) (remaining names (lowerRound rules heights))
        (remaining names heights) := by
  induction rules generalizing heights with
  | nil => exact .inl rfl
  | cons rule rules ih =>
    have first := lowerRule_eq_or heights rule (mem rule (.head _))
    have others := ih (heights.lowerRule rule) fun r hr => mem r (.tail _ hr)
    simp only [lowerRound, List.foldl_cons, Prod.lex_def] at first others ⊢
    rcases first with e | lt
    · rw [e] at others ⊢
      exact others
    · rcases others with e | lt'
      · rw [e]; exact .inr lt
      · right; omega

end Heights

namespace Grammar

theorem lowerRound_lowers (g : Grammar) (heights : Heights)
    (h : Heights.lowerRound g.rules.entries heights ≠ heights) :
    WellFoundedRelation.rel
      (Heights.remaining g.rules.keys.toList (Heights.lowerRound g.rules.entries heights))
      (Heights.remaining g.rules.keys.toList heights) :=
  (Heights.lowerRound_eq_or g.rules.entries heights
    fun _ hr => List.mem_map_of_mem hr).resolve_left h

def heights (g : Grammar) : Heights :=
  untilStable (Heights.lowerRound g.rules.entries) (Heights.remaining g.rules.keys.toList)
    g.lowerRound_lowers ∅

end Grammar

namespace Heights

/-- Every estimate is still there, and none is higher than before. -/
def Refines (lower heights : Heights) : Prop :=
  ∀ name h, heights.get? name = some h → ∃ h' ≤ h, lower.get? name = some h'

theorem row?_of_refines {lower heights : Heights} (refines : lower.Refines heights)
    (symbols : List Symbol) {h : Nat} (e : heights.row? symbols = some h) :
    ∃ h' ≤ h, lower.row? symbols = some h' := by
  induction symbols generalizing h with
  | nil => exact ⟨h, Nat.le_refl h, e⟩
  | cons symbol rest ih =>
    cases symbol with
    | terminal => exact ih e
    | nonterminal name =>
      simp only [row?] at e ⊢
      split at e
      · next first others e₁ e₂ =>
        obtain ⟨first', le₁, e₁'⟩ := refines name first e₁
        obtain ⟨others', le₂, e₂'⟩ := ih e₂
        cases e
        exact ⟨max first' others', by omega, by simp [e₁', e₂']⟩
      · contradiction

theorem alternative?_of_refines {lower heights : Heights} (refines : lower.Refines heights)
    {right : Alternative} {h : Nat} (e : heights.alternative? right = some h) :
    ∃ h' ≤ h, lower.alternative? right = some h' := by
  obtain ⟨k, ek, rfl⟩ := Option.map_eq_some_iff.1 e
  obtain ⟨k', le, ek'⟩ := row?_of_refines refines right ek
  exact ⟨k' + 1, by omega, by simp [alternative?, ek']⟩

theorem least?_eq_some_iff {heights : Heights} {rights : OrderedSet Alternative} {h : Nat} :
    heights.least? rights = some h ↔
      (∃ right ∈ rights, heights.alternative? right = some h) ∧
        ∀ right ∈ rights, ∀ k, heights.alternative? right = some k → h ≤ k := by
  simp only [least?, List.min?_eq_some_iff, List.mem_filterMap, OrderedSet.mem_toList]
  constructor
  · rintro ⟨hm, hl⟩
    exact ⟨hm, fun right hr k hk => hl k ⟨right, hr, hk⟩⟩
  · rintro ⟨hm, hl⟩
    refine ⟨hm, ?_⟩
    rintro k ⟨right, hr, hk⟩
    exact hl right hr k hk

theorem exists_least? {heights : Heights} {rights : OrderedSet Alternative} {right : Alternative}
    (mem : right ∈ rights) {h : Nat} (e : heights.alternative? right = some h) :
    ∃ h' ≤ h, heights.least? rights = some h' := by
  cases e' : heights.least? rights with
  | some h' => exact ⟨h', (least?_eq_some_iff.1 e').2 right mem h e, rfl⟩
  | none =>
    rw [least?, List.min?_eq_none_iff, List.filterMap_eq_nil_iff] at e'
    exact absurd (e' right mem) (by simp [e])

theorem least?_of_refines {lower heights : Heights} (refines : lower.Refines heights)
    {rights : OrderedSet Alternative} {h : Nat} (e : heights.least? rights = some h) :
    ∃ h' ≤ h, lower.least? rights = some h' := by
  obtain ⟨⟨right, mem, hr⟩, _⟩ := least?_eq_some_iff.1 e
  obtain ⟨k, le, hk⟩ := alternative?_of_refines refines hr
  obtain ⟨h', le', e'⟩ := exists_least? mem hk
  exact ⟨h', Nat.le_trans le' le, e'⟩

/-- At any time some alternative is at most as high as the estimate says. -/
def Justified (g : Grammar) (heights : Heights) : Prop :=
  ∀ name h, heights.get? name = some h → ∃ h' ≤ h, heights.least? (g.alternatives name) = some h'

theorem refines_insert {heights : Heights} {name : String} {h : Nat}
    (improves : heights.Improves name h) : Refines (heights.insert name h) heights := by
  intro other k e
  rw [OrderedMap.get?_insert]
  split
  · next eq =>
    subst eq
    exact ⟨h, Nat.le_of_lt (improves k e), rfl⟩
  · exact ⟨k, Nat.le_refl k, e⟩

theorem justified_lowerRule {g : Grammar} {heights : Heights} (justified : heights.Justified g)
    {rule : String × OrderedSet Alternative} (mem : rule ∈ g.rules.entries) :
    (heights.lowerRule rule).Justified g := by
  unfold lowerRule
  split
  · exact justified
  next least e =>
    split
    · next improves =>
      have refines := refines_insert improves
      intro name h eh
      rw [OrderedMap.get?_insert] at eh
      split at eh
      · next eq =>
        subst eq
        cases eh
        rw [Grammar.alternatives_of_mem_entries mem]
        exact least?_of_refines refines e
      · obtain ⟨k, le, ek⟩ := justified name h eh
        obtain ⟨k', le', ek'⟩ := least?_of_refines refines ek
        exact ⟨k', Nat.le_trans le' le, ek'⟩
    · exact justified

theorem justified_lowerRound {g : Grammar} {heights : Heights} (justified : heights.Justified g) :
    (lowerRound g.rules.entries heights).Justified g :=
  List.foldlRecOn _ _ justified fun _ justified _ mem => justified_lowerRule justified mem

end Heights

theorem Grammar.justified_heights (g : Grammar) : g.heights.Justified g :=
  untilStable_induction (fun _ h => Heights.justified_lowerRound h) fun _ _ h => nomatch h

end ChomskyNormal
