import ChomskyNormal.Ordered.Map

/-!
# Context-free grammars

A symbol is a nonterminal or a terminal; names are arbitrary strings, and the kind is part of the
symbol. Declared names, rules and alternatives keep the order in which they were introduced, so that
everything computed from a grammar is determined by its text. A value of `Grammar` need not be well
formed.
-/

namespace ChomskyNormal

inductive Symbol where
  | nonterminal (name : String)
  | terminal (name : String)
  deriving DecidableEq

namespace Symbol

def name : Symbol → String
  | nonterminal name => name
  | terminal name => name

def nonterminal? : Symbol → Option String
  | nonterminal name => some name
  | terminal _ => none

def terminal? : Symbol → Option String
  | nonterminal _ => none
  | terminal name => some name

def isTerminal : Symbol → Bool
  | nonterminal _ => false
  | terminal _ => true

def le : Symbol → Symbol → Bool
  | nonterminal a, nonterminal b => a ≤ b
  | nonterminal _, terminal _ => true
  | terminal _, nonterminal _ => false
  | terminal a, terminal b => a ≤ b

def sort (symbols : List Symbol) : List Symbol := symbols.mergeSort le

end Symbol

abbrev Alternative := List Symbol

structure Grammar where
  start : String
  nonterminals : OrderedSet String
  terminals : OrderedSet String
  rules : OrderedMap String (OrderedSet Alternative)
  deriving DecidableEq

namespace Grammar

def alternatives (g : Grammar) (name : String) : OrderedSet Alternative :=
  (g.rules.get? name).getD ∅

def productions (g : Grammar) : List (String × Alternative) :=
  g.rules.entries.flatMap fun (left, rights) => rights.toList.map fun right => (left, right)

theorem mem_alternatives_iff {g : Grammar} {name : String} {right : Alternative} :
    right ∈ g.alternatives name ↔ ∃ rights, (name, rights) ∈ g.rules.entries ∧ right ∈ rights := by
  simp only [← OrderedMap.get?_eq_some_iff, alternatives]
  cases g.rules.get? name <;> simp

theorem mem_keys_of_mem_alternatives {g : Grammar} {name : String} {right : Alternative}
    (mem : right ∈ g.alternatives name) : name ∈ g.rules.keys := by
  obtain ⟨rights, he, _⟩ := mem_alternatives_iff.1 mem
  exact List.mem_map.2 ⟨_, he, rfl⟩

theorem alternatives_of_mem_entries {g : Grammar} {name : String} {rights : OrderedSet Alternative}
    (mem : (name, rights) ∈ g.rules.entries) : g.alternatives name = rights := by
  rw [alternatives, OrderedMap.get?_eq_some_iff.2 mem, Option.getD_some]

theorem eq_of_alternatives {g h : Grammar} (start : g.start = h.start)
    (nonterminals : g.nonterminals = h.nonterminals) (terminals : g.terminals = h.terminals)
    (keys : g.rules.keys = h.rules.keys)
    (same : ∀ name ∈ g.rules.keys, g.alternatives name = h.alternatives name) : g = h := by
  have rules : g.rules = h.rules := by
    refine OrderedMap.eq_of_get? keys fun name mem => ?_
    have ⟨rights, e⟩ := Option.isSome_iff_exists.1 (OrderedMap.isSome_get?_iff.2 mem)
    have ⟨rights', e'⟩ := Option.isSome_iff_exists.1 (OrderedMap.isSome_get?_iff.2 (keys ▸ mem))
    have equal := same name mem
    rw [alternatives, alternatives, e, e', Option.getD_some, Option.getD_some] at equal
    rw [e, e', equal]
  cases g
  cases h
  rw [mk.injEq]
  exact ⟨start, nonterminals, terminals, rules⟩

theorem mem_productions {g : Grammar} {left : String} {right : Alternative} :
    (left, right) ∈ g.productions ↔ right ∈ g.alternatives left := by
  simp only [productions, List.mem_flatMap, List.mem_map, Prod.mk.injEq, mem_alternatives_iff]
  constructor
  · rintro ⟨⟨_, rights⟩, he, _, hr, rfl, rfl⟩
    exact ⟨rights, he, hr⟩
  · rintro ⟨rights, he, hr⟩
    exact ⟨(left, rights), he, right, hr, rfl, rfl⟩

def productionCount (g : Grammar) : Nat := g.productions.length

def hasProduction (g : Grammar) (left : String) (right : Alternative) : Bool :=
  right ∈ g.alternatives left

def hasEmptyStart (g : Grammar) : Bool := g.hasProduction g.start []

def Declares (g : Grammar) (name : String) : Prop := name ∈ g.nonterminals ∨ name ∈ g.terminals

instance (g : Grammar) (name : String) : Decidable (g.Declares name) :=
  inferInstanceAs (Decidable (_ ∨ _))

def addProduction (g : Grammar) (left : String) (right : Alternative) : Grammar :=
  { g with rules := g.rules.modify left ∅ (·.insert right) }

theorem alternatives_addProduction (g : Grammar) (left : String) (right : Alternative)
    (name : String) :
    (g.addProduction left right).alternatives name =
      if name = left then (g.alternatives left).insert right else g.alternatives name := by
  simp only [alternatives, addProduction, OrderedMap.get?_modify]
  split <;> simp

/-- Drops the nonterminals that `keep` refuses, with their rules, but never the start symbol. -/
def retainNonterminals (g : Grammar) (keep : String → Bool) : Grammar :=
  let kept := g.nonterminals.filter fun name => name = g.start || keep name
  { g with nonterminals := kept, rules := g.rules.filterKeys (· ∈ kept) }

/-- The nonterminals on right sides, once for each occurrence. -/
def mentioned (g : Grammar) : List String :=
  g.productions.flatMap fun (_, right) => right.filterMap Symbol.nonterminal?

theorem mem_mentioned {g : Grammar} {name : String} :
    name ∈ g.mentioned ↔ ∃ left, ∃ right ∈ g.alternatives left, .nonterminal name ∈ right := by
  have key (s : Symbol) : s.nonterminal? = some name ↔ s = .nonterminal name := by
    cases s <;> simp [Symbol.nonterminal?]
  simp [mentioned, mem_productions, key]

end Grammar

end ChomskyNormal
