import ChomskyNormal.Analysis.Basic
import ChomskyNormal.Proofs.Simulation
import Mathlib.Logic.Function.Iterate

/-!
# What saturation finds

Saturation with settled terminals finds the nonterminals that derive some word, saturation without
them those that derive the empty word. Each name enters with an alternative that is settled by the
names before it, and there are no more rounds than rules.
-/

namespace ChomskyNormal

section Rounds

variable {α : Type} {step : α → α}

theorem exists_iterate_untilStable {μ : Type} [DecidableEq α] [WellFoundedRelation μ]
    {measure : α → μ} (lowers : ∀ a, step a ≠ a →
      WellFoundedRelation.rel (measure (step a)) (measure a)) (a : α) :
    ∃ rounds, step^[rounds] a = untilStable step measure lowers a ∧
      ∀ earlier < rounds, step^[earlier + 1] a ≠ step^[earlier] a := by
  fun_induction untilStable step measure lowers a with
  | case1 a => exact ⟨0, rfl, fun _ lt => absurd lt (Nat.not_lt_zero _)⟩
  | case2 a _ changed ih =>
    obtain ⟨rounds, reached, changing⟩ := ih
    refine ⟨rounds + 1, reached, fun earlier lt => ?_⟩
    cases earlier with
    | zero => exact changed
    | succ earlier => exact changing earlier (Nat.lt_of_succ_lt_succ lt)

theorem measure_iterate_add_le {measure : α → Nat}
    (lowers : ∀ a, step a ≠ a → measure (step a) < measure a) {a : α} {rounds : Nat}
    (changing : ∀ earlier < rounds, step^[earlier + 1] a ≠ step^[earlier] a) :
    measure (step^[rounds] a) + rounds ≤ measure a := by
  induction rounds with
  | zero => exact Nat.le_refl _
  | succ rounds ih =>
    have earlier := ih fun k lt => changing k (Nat.lt_succ_of_lt lt)
    have changed := changing rounds (Nat.lt_succ_self rounds)
    rw [Function.iterate_succ_apply'] at changed ⊢
    have lower := lowers _ changed
    omega

end Rounds

namespace Grammar

variable {g : Grammar} {terminals : Bool}

/-- The form derives a word, and the empty word if terminals do not count as settled. -/
def Grounded (g : Grammar) (terminals : Bool) (form : List Symbol) : Prop :=
  ∃ word, (terminals = false → word = []) ∧ g.Derives form word

theorem grounded_cons {symbol : Symbol} {form : List Symbol} (first : g.Grounded terminals [symbol])
    (others : g.Grounded terminals form) : g.Grounded terminals (symbol :: form) := by
  obtain ⟨front, hf, df⟩ := first
  obtain ⟨back, hb, db⟩ := others
  exact ⟨front ++ back, fun e => by rw [hf e, hb e]; rfl,
    derives_cons_iff.2 ⟨front, back, rfl, df, db⟩⟩

theorem grounded_of_settled {found : OrderedSet String}
    (sound : ∀ name ∈ found, g.Grounded terminals [.nonterminal name]) {form : List Symbol}
    (all : form.all (settled terminals found)) : g.Grounded terminals form := by
  induction form with
  | nil => exact ⟨[], fun _ => rfl, .nil⟩
  | cons symbol form ih =>
    rw [List.all_cons, Bool.and_eq_true] at all
    obtain ⟨first, others⟩ := all
    refine grounded_cons ?_ (ih others)
    cases symbol with
    | terminal name => exact ⟨[name], fun e => absurd first (by simp [settled, e]), by simp⟩
    | nonterminal name => exact sound name (by simpa [settled] using first)

theorem grounded_settleRule {found : OrderedSet String}
    (sound : ∀ name ∈ found, g.Grounded terminals [.nonterminal name])
    {rule : String × OrderedSet Alternative} (mem : rule ∈ g.rules.entries) :
    ∀ name ∈ settleRule terminals found rule, g.Grounded terminals [.nonterminal name] := by
  intro name hn
  unfold settleRule at hn
  split at hn
  · next some =>
    rcases OrderedSet.mem_insert.1 hn with hn | rfl
    · exact sound name hn
    · obtain ⟨right, hr, all⟩ := List.any_eq_true.1 some
      obtain ⟨word, hw, d⟩ := grounded_of_settled sound all
      have mem' : right ∈ g.alternatives rule.1 := mem_alternatives_iff.2 ⟨rule.2, mem, hr⟩
      exact ⟨word, hw, derives_nonterminal_iff.2 ⟨right, mem', d⟩⟩
  · exact sound name hn

theorem saturate_induction {p : OrderedSet String → Prop} (start : p ∅)
    (keeps : ∀ found, p found → ∀ rule ∈ g.rules.entries, p (settleRule terminals found rule)) :
    p (g.saturate terminals) :=
  untilStable_induction (fun _ holds => List.foldlRecOn _ _ holds keeps) start

theorem grounded_saturate :
    ∀ name ∈ g.saturate terminals, g.Grounded terminals [.nonterminal name] :=
  saturate_induction
    (p := fun found => ∀ name ∈ found, g.Grounded terminals [.nonterminal name]) (by simp)
    fun _ sound _ mem => grounded_settleRule sound mem

theorem settled_mono {found found' : OrderedSet String} (sub : ∀ name ∈ found, name ∈ found')
    {symbol : Symbol} (h : settled terminals found symbol) : settled terminals found' symbol := by
  cases symbol with
  | terminal => exact h
  | nonterminal name => simpa [settled] using sub name (by simpa [settled] using h)

theorem mem_settleRound {found : OrderedSet String} {name : String} {right : Alternative}
    (mem : right ∈ g.alternatives name) (all : ∀ symbol ∈ right, settled terminals found symbol) :
    name ∈ g.settleRound terminals found := by
  -- A pass catches every rule with a settled alternative, whatever the rules before it add.
  obtain ⟨rights, he, hr⟩ := mem_alternatives_iff.1 mem
  obtain ⟨before, after, e⟩ := List.append_of_mem he
  rw [settleRound, e, List.foldl_append, List.foldl_cons]
  refine mem_settleRules after ?_
  have any : rights.toList.any
      (·.all (settled terminals (before.foldl (settleRule terminals) found))) := by
    refine List.any_eq_true.2 ⟨right, hr, List.all_eq_true.2 fun symbol hs => ?_⟩
    exact settled_mono (fun _ => mem_settleRules before) (all symbol hs)
  rw [settleRule, if_pos any]
  exact OrderedSet.mem_insert.2 (.inr rfl)

theorem mem_saturate_of_settled {name : String} {right : Alternative}
    (mem : right ∈ g.alternatives name)
    (all : ∀ symbol ∈ right, settled terminals (g.saturate terminals) symbol) :
    name ∈ g.saturate terminals := by
  have stable : g.settleRound terminals (g.saturate terminals) = g.saturate terminals :=
    step_untilStable _
  have := mem_settleRound mem all
  rwa [stable] at this

theorem settled_of_derives {form : List Symbol} {word : List String} (d : g.Derives form word)
    (empty : terminals = false → word = []) :
    ∀ symbol ∈ form, settled terminals (g.saturate terminals) symbol := by
  induction d with
  | nil => simp
  | @terminal name _ _ _ ih =>
    cases terminals with
    | false => simp at empty
    | true =>
      intro symbol hs
      rcases List.mem_cons.1 hs with rfl | hs
      · rfl
      · exact ih (by simp) symbol hs
  | @nonterminal name right rest front back mem _ _ ih₁ ih₂ =>
    have settle : name ∈ g.saturate terminals :=
      mem_saturate_of_settled mem (ih₁ fun e => (List.append_eq_nil_iff.1 (empty e)).1)
    intro symbol hs
    rcases List.mem_cons.1 hs with rfl | hs
    · simpa [settled] using settle
    · exact ih₂ (fun e => (List.append_eq_nil_iff.1 (empty e)).2) symbol hs

theorem mem_saturate_iff {name : String} :
    name ∈ g.saturate terminals ↔ g.Grounded terminals [.nonterminal name] := by
  refine ⟨grounded_saturate name, fun ⟨word, empty, d⟩ => ?_⟩
  simpa [settled] using settled_of_derives d empty (.nonterminal name) (.head _)

theorem mem_nullable_iff {name : String} :
    name ∈ g.nullable ↔ g.Derives [.nonterminal name] [] := by
  simp [nullable, mem_saturate_iff, Grounded]

theorem mem_productive_iff {name : String} : name ∈ g.productive ↔ g.Productive name := by
  simp [productive, mem_saturate_iff, Grounded, Productive]

theorem settled_iff {found : OrderedSet String} {symbol : Symbol} : settled terminals found symbol ↔
    (∃ other ∈ found, symbol = .nonterminal other) ∨ terminals = true ∧ symbol.isTerminal := by
  cases symbol <;> simp [settled, Symbol.isTerminal]

/-- Some alternative of the name consists of nonterminals among the given ones, and of terminals if
these are settled. -/
def Supports (g : Grammar) (terminals : Bool) (names : List String) (name : String) : Prop :=
  ∃ right ∈ g.alternatives name, ∀ symbol ∈ right,
    (∃ other ∈ names, symbol = .nonterminal other) ∨ terminals = true ∧ symbol.isTerminal

/-- Each name is supported by the names before it. -/
def InDerivationOrder (g : Grammar) (terminals : Bool) (names : List String) : Prop :=
  ∀ before name after, names = before ++ name :: after → g.Supports terminals before name

theorem InDerivationOrder.concat {names : List String} (order : g.InDerivationOrder terminals names)
    {name : String} (supports : g.Supports terminals names name) :
    g.InDerivationOrder terminals (names ++ [name]) := by
  intro before other after split
  rcases List.eq_nil_or_concat after with rfl | ⟨middle, last, rfl⟩
  · have ⟨same, last⟩ := List.append_inj' split rfl
    rwa [← same, ← (List.cons.inj last).1]
  · rw [List.concat_eq_append, ← List.cons_append, ← List.append_assoc] at split
    exact order before other middle (List.append_inj' split rfl).1

theorem inDerivationOrder_settleRule {found : OrderedSet String}
    (order : g.InDerivationOrder terminals found.toList) {rule : String × OrderedSet Alternative}
    (mem : rule ∈ g.rules.entries) :
    g.InDerivationOrder terminals (settleRule terminals found rule).toList := by
  unfold settleRule
  split
  · next some =>
    by_cases old : rule.1 ∈ found
    · rwa [OrderedSet.insert_of_mem old]
    · have ⟨right, hr, all⟩ := List.any_eq_true.1 some
      rw [OrderedSet.toList_insert_of_not_mem old]
      refine order.concat ⟨right, mem_alternatives_iff.2 ⟨rule.2, mem, hr⟩, fun symbol hs => ?_⟩
      exact settled_iff.1 (List.all_eq_true.1 all symbol hs)
  · exact order

theorem inDerivationOrder_saturate (g : Grammar) (terminals : Bool) :
    g.InDerivationOrder terminals (g.saturate terminals).toList := by
  refine saturate_induction (p := fun found => g.InDerivationOrder terminals found.toList) ?_
    fun _ order _ mem => inDerivationOrder_settleRule order mem
  intro before name after split
  simp at split

theorem exists_rounds_saturate (g : Grammar) (terminals : Bool) :
    ∃ rounds ≤ g.rules.keys.size, (g.settleRound terminals)^[rounds] ∅ = g.saturate terminals ∧
      ∀ earlier < rounds,
        (g.settleRound terminals)^[earlier + 1] ∅ ≠ (g.settleRound terminals)^[earlier] ∅ := by
  let missing (found : OrderedSet String) : Nat := g.rules.keys.toList.countP (· ∉ found)
  have lowers : ∀ found, g.settleRound terminals found ≠ found →
      missing (g.settleRound terminals found) < missing found := g.settleRound_lowers terminals
  have ⟨rounds, reached, changing⟩ : ∃ rounds,
      (g.settleRound terminals)^[rounds] ∅ = g.saturate terminals ∧ _ :=
    exists_iterate_untilStable lowers ∅
  refine ⟨rounds, ?_, reached, changing⟩
  calc
    rounds ≤ missing ∅ := Nat.le_trans (Nat.le_add_left ..) (measure_iterate_add_le lowers changing)
    _ ≤ g.rules.keys.size := List.countP_le_length

/-- The rounds come to an end, at the latest when there have been as many of them as there are
rules. Then exactly the nonterminals that derive the empty word are listed, each behind the
nonterminals of one of its alternatives. -/
theorem nullable_exact (g : Grammar) :
    (∃ rounds ≤ g.rules.keys.size, (g.settleRound false)^[rounds] ∅ = g.nullable ∧
      (g.settleRound false)^[rounds + 1] ∅ = g.nullable ∧ ∀ earlier < rounds,
        (g.settleRound false)^[earlier + 1] ∅ ≠ (g.settleRound false)^[earlier] ∅) ∧
    g.nullable.toList.Nodup ∧
    (∀ name, name ∈ g.nullable ↔ g.Derives [.nonterminal name] []) ∧
    ∀ before name after, g.nullable.toList = before ++ name :: after →
      ∃ right ∈ g.alternatives name, ∀ symbol ∈ right, ∃ other ∈ before,
        symbol = .nonterminal other := by
  refine ⟨?_, g.nullable.nodup, fun _ => mem_nullable_iff, fun before name after split => ?_⟩
  · have ⟨rounds, le, reached, changing⟩ := g.exists_rounds_saturate false
    refine ⟨rounds, le, reached, ?_, changing⟩
    rw [Function.iterate_succ_apply', reached]
    exact step_untilStable _
  · have ⟨right, mem, all⟩ := g.inDerivationOrder_saturate false before name after split
    exact ⟨right, mem, fun symbol hs => (all symbol hs).resolve_right fun settled =>
      nomatch settled.1⟩

example : nullable ⟨"S", .ofList ["S", "A", "B", "C", "D"], .ofList ["a", "b"],
    ⟨[("S", .ofList [[.nonterminal "A", .nonterminal "B"]]), ("A", .ofList [[.nonterminal "C"]]),
      ("B", .ofList [[], [.terminal "b"]]), ("C", .ofList [[]]),
        ("D", .ofList [[.nonterminal "A", .terminal "a"]])],
      by decide⟩⟩ = .ofList ["B", "C", "A", "S"] := by
  cbv

end Grammar

end ChomskyNormal
