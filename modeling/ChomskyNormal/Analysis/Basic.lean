import ChomskyNormal.Grammar.Basic
import ChomskyNormal.Iteration

/-!
# Analysis of nonterminals and alternatives

The nullable and the productive nonterminals are least sets closed under the rules: a nonterminal
belongs as soon as one of its alternatives consists of settled symbols. Nonterminals are settled
when they belong; terminals are settled when we ask for productive nonterminals, and are not when we
ask for nullable ones. What is reachable, by any alternative or by unit alternatives only, is found
by breadth-first search.

A grammar is right-linear when a nonterminal stands only at the end of an alternative, and
left-linear when one stands only at the beginning. Either way it is of type 3 in the Chomsky
hierarchy, otherwise of type 2.
-/

namespace ChomskyNormal

namespace Grammar

def settled (terminals : Bool) (found : OrderedSet String) : Symbol → Bool
  | .terminal _ => terminals
  | .nonterminal name => name ∈ found

def settleRule (terminals : Bool) (found : OrderedSet String)
    (rule : String × OrderedSet Alternative) : OrderedSet String :=
  if rule.2.toList.any (·.all (settled terminals found)) then found.insert rule.1 else found

/-- One pass over the rules; a rule sees what the rules before it have added. -/
def settleRound (g : Grammar) (terminals : Bool) (found : OrderedSet String) : OrderedSet String :=
  g.rules.entries.foldl (settleRule terminals) found

theorem settleRule_eq_or (terminals : Bool) (found : OrderedSet String)
    (rule : String × OrderedSet Alternative) :
    settleRule terminals found rule = found ∨
      rule.1 ∉ found ∧ settleRule terminals found rule = found.insert rule.1 := by
  unfold settleRule
  split
  · by_cases h : rule.1 ∈ found
    · exact .inl (OrderedSet.insert_of_mem h)
    · exact .inr ⟨h, rfl⟩
  · exact .inl rfl

theorem mem_settleRules {terminals : Bool} {name : String}
    (rules : List (String × OrderedSet Alternative)) {found : OrderedSet String}
    (h : name ∈ found) :
    name ∈ rules.foldl (settleRule terminals) found := by
  induction rules generalizing found with
  | nil => exact h
  | cons rule rules ih =>
    refine ih ?_
    rcases settleRule_eq_or terminals found rule with e | ⟨_, e⟩ <;> simp [e, h]

theorem settleRules_eq_or (terminals : Bool) (rules : List (String × OrderedSet Alternative))
    (found : OrderedSet String) :
    rules.foldl (settleRule terminals) found = found ∨
      ∃ name ∈ rules.map Prod.fst, name ∉ found ∧
        name ∈ rules.foldl (settleRule terminals) found := by
  induction rules generalizing found with
  | nil => exact .inl rfl
  | cons rule rules ih =>
    rw [List.foldl_cons]
    rcases settleRule_eq_or terminals found rule with e | ⟨hn, e⟩
    · rw [e]
      exact (ih found).imp id fun ⟨name, hr, h⟩ => ⟨name, .tail _ hr, h⟩
    · exact .inr ⟨rule.1, .head _, hn, mem_settleRules rules (by simp [e])⟩

theorem settleRound_lowers (g : Grammar) (terminals : Bool) (found : OrderedSet String)
    (h : g.settleRound terminals found ≠ found) :
    g.rules.keys.toList.countP (· ∉ g.settleRound terminals found) <
      g.rules.keys.toList.countP (· ∉ found) := by
  obtain ⟨name, hr, hn, hm⟩ := (settleRules_eq_or terminals g.rules.entries found).resolve_left h
  refine countP_lt_countP hr (fun x hx => ?_)
    (decide_eq_false (not_not_intro hm)) (by simpa using hn)
  simp only [decide_eq_true_eq] at hx ⊢
  exact fun hf => hx (mem_settleRules _ hf)

def saturate (g : Grammar) (terminals : Bool) : OrderedSet String :=
  untilStable (g.settleRound terminals) (fun found => g.rules.keys.toList.countP (· ∉ found))
    (g.settleRound_lowers terminals) ∅

def nullable (g : Grammar) : OrderedSet String := g.saturate false

def productive (g : Grammar) : OrderedSet String := g.saturate true

end Grammar

def unitTarget? : Alternative → Option String
  | [.nonterminal name] => some name
  | _ => none

theorem unitTarget?_eq_some_iff {right : Alternative} {name : String} :
    unitTarget? right = some name ↔ right = [.nonterminal name] := by
  unfold unitTarget?
  split <;> simp_all

namespace Grammar

def neighbours (g : Grammar) (name : String) : List String :=
  (g.alternatives name).toList.flatten.filterMap Symbol.nonterminal?

def unitNeighbours (g : Grammar) (name : String) : List String :=
  (g.alternatives name).toList.filterMap unitTarget?

theorem neighbours_mentioned (g : Grammar) (left : String) :
    ∀ name ∈ g.neighbours left, name ∈ g.mentioned := by
  intro name h
  simp only [neighbours, List.mem_filterMap, List.mem_flatten] at h
  obtain ⟨symbol, ⟨right, hr, hs⟩, hn⟩ := h
  simp only [mentioned, List.mem_flatMap, List.mem_filterMap]
  exact ⟨(left, right), mem_productions.2 hr, symbol, hs, hn⟩

theorem unitNeighbours_mentioned (g : Grammar) (left : String) :
    ∀ name ∈ g.unitNeighbours left, name ∈ g.mentioned := by
  intro name h
  simp only [unitNeighbours, List.mem_filterMap, unitTarget?_eq_some_iff] at h
  obtain ⟨_, hr, rfl⟩ := h
  exact mem_mentioned.2 ⟨left, _, hr, .head _⟩

def reachable (g : Grammar) : OrderedSet String :=
  breadthFirst g.neighbours g.mentioned g.neighbours_mentioned (.ofList [g.start]) 0

def unitClosure (g : Grammar) (name : String) : OrderedSet String :=
  breadthFirst g.unitNeighbours g.mentioned g.unitNeighbours_mentioned (.ofList [name]) 0

end Grammar

def Alternative.isRightLinear : Alternative → Bool
  | [] => true
  | [_] => true
  | symbol :: rest => symbol.isTerminal && Alternative.isRightLinear rest

def Alternative.isLeftLinear (right : Alternative) : Bool := right.tail.all Symbol.isTerminal

inductive HierarchyType where
  | regular
  | contextFree
  deriving DecidableEq

def HierarchyType.title : HierarchyType → String
  | regular => "Type-3"
  | contextFree => "Type-2"

namespace Grammar

def isRightLinear (g : Grammar) : Bool :=
  g.productions.all fun (_, right) => Alternative.isRightLinear right

def isLeftLinear (g : Grammar) : Bool :=
  g.productions.all fun (_, right) => Alternative.isLeftLinear right

def hierarchyType (g : Grammar) : HierarchyType :=
  if g.isRightLinear || g.isLeftLinear then .regular else .contextFree

end Grammar

end ChomskyNormal
