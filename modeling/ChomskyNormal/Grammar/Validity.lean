import ChomskyNormal.Grammar.Basic
import ChomskyNormal.Iteration

/-!
# Faults, well-formed grammars and fresh names

Everything that can be wrong with a grammar, with its text, or with a request about it has a wording
in which it is reported. A grammar is well formed when both alphabets are inhabited and disjoint,
the start symbol is a nonterminal, and rules and alternatives use declared names only; `fault?`
searches for the first violation. A name that is wanted for a new nonterminal gets prime marks
appended until the grammar does not declare it.
-/

namespace ChomskyNormal

inductive Malformed where
  | noNonterminals
  | noTerminals
  | undeclaredStart (name : String)
  | bothKinds (name : String)
  | undeclaredLeft (name : String)
  | undeclaredTerminal (name left : String)
  | undeclaredNonterminal (name left : String)
  deriving DecidableEq

def Malformed.message : Malformed → String
  | noNonterminals => "the grammar has no nonterminal symbols"
  | noTerminals => "the grammar has no terminal symbols"
  | undeclaredStart name => s!"start symbol '{name}' is not a declared nonterminal"
  | bothKinds name => s!"'{name}' is declared as both a nonterminal and a terminal symbol"
  | undeclaredLeft name => s!"'{name}' has productions but is not a declared nonterminal"
  | undeclaredTerminal name left =>
    s!"'{name}' appears in a production of '{left}' but is not a declared terminal"
  | undeclaredNonterminal name left =>
    s!"'{name}' appears in a production of '{left}' but is not a declared nonterminal"

inductive LineFault where
  | tooManyArrows
  | emptyLeft
  | blankInLeft
  | missingLeft
  deriving DecidableEq

def LineFault.message : LineFault → String
  | tooManyArrows => "too many \"->\""
  | emptyLeft => "empty left side"
  | blankInLeft => "left side contains whitespace"
  | missingLeft => "cannot find left side"

inductive GrammarError where
  | malformed (fault : Malformed)
  | badLine (line : Nat) (fault : LineFault)
  | nameCollision (name : String)
  | notInNormalForm
  | emptyLanguage
  deriving DecidableEq

def GrammarError.message : GrammarError → String
  | malformed fault => "malformed grammar: " ++ fault.message
  | badLine line fault => s!"Line {line}: " ++ fault.message
  | nameCollision name => s!"fresh nonterminal '{name}' collides with an existing symbol"
  | notInNormalForm => "the grammar is not in Chomsky normal form"
  | emptyLanguage => "the start symbol derives no terminal string"

namespace Grammar

def symbolFault? (g : Grammar) (left : String) : Symbol → Option Malformed
  | .nonterminal name =>
    if name ∈ g.nonterminals then none else some (.undeclaredNonterminal name left)
  | .terminal name => if name ∈ g.terminals then none else some (.undeclaredTerminal name left)

def ruleFault? (g : Grammar) (left : String) (rights : OrderedSet Alternative) : Option Malformed :=
  if left ∈ g.nonterminals then rights.toList.flatten.findSome? (g.symbolFault? left)
  else some (.undeclaredLeft left)

/-- Alphabets are examined first, then the start symbol, then the rules in order. -/
def fault? (g : Grammar) : Option Malformed :=
  if g.nonterminals.isEmpty then some .noNonterminals
  else if g.terminals.isEmpty then some .noTerminals
  else match g.nonterminals.toList.find? (· ∈ g.terminals) with
    | some name => some (.bothKinds name)
    | none =>
      if g.start ∈ g.nonterminals then
        g.rules.entries.findSome? fun (left, rights) => g.ruleFault? left rights
      else some (.undeclaredStart g.start)

def validate (g : Grammar) : Except GrammarError Unit :=
  match g.fault? with
  | none => .ok ()
  | some fault => .error (.malformed fault)

def UsesDeclared (g : Grammar) : Symbol → Prop
  | .nonterminal name => name ∈ g.nonterminals
  | .terminal name => name ∈ g.terminals

structure WellFormed (g : Grammar) : Prop where
  nonterminals_inhabited : ∃ name, name ∈ g.nonterminals
  terminals_inhabited : ∃ name, name ∈ g.terminals
  disjoint : ∀ name ∈ g.nonterminals, name ∉ g.terminals
  start_declared : g.start ∈ g.nonterminals
  lefts_declared : ∀ name ∈ g.rules.keys, name ∈ g.nonterminals
  rights_declared : ∀ name, ∀ right ∈ g.alternatives name, ∀ symbol ∈ right, g.UsesDeclared symbol

theorem WellFormed.left_declared {g : Grammar} (wf : g.WellFormed) {name : String}
    {right : Alternative} (mem : right ∈ g.alternatives name) : name ∈ g.nonterminals :=
  wf.lefts_declared name (mem_keys_of_mem_alternatives mem)

theorem symbolFault?_eq_none_iff {g : Grammar} {left : String} {symbol : Symbol} :
    g.symbolFault? left symbol = none ↔ g.UsesDeclared symbol := by
  cases symbol <;> simp [symbolFault?, UsesDeclared]

theorem ruleFault?_eq_none_iff {g : Grammar} {left : String} {rights : OrderedSet Alternative} :
    g.ruleFault? left rights = none ↔
      left ∈ g.nonterminals ∧ ∀ right ∈ rights, ∀ symbol ∈ right, g.UsesDeclared symbol := by
  simp only [ruleFault?]
  split
  · next h => simp [h, symbolFault?_eq_none_iff]; grind
  · next h => simp [h]

theorem exists_mem_of_isEmpty_false {s : OrderedSet String} (h : s.isEmpty = false) : ∃ a, a ∈ s :=
  List.exists_mem_of_ne_nil _ (by simpa [OrderedSet.isEmpty] using h)

theorem isEmpty_false_of_mem {s : OrderedSet String} {a : String} (h : a ∈ s) :
    s.isEmpty = false := by
  simpa [OrderedSet.isEmpty] using List.ne_nil_of_mem h

theorem rules_findSome?_eq_none_iff {g : Grammar} :
    (g.rules.entries.findSome? fun (left, rights) => g.ruleFault? left rights) = none ↔
      (∀ name ∈ g.rules.keys, name ∈ g.nonterminals) ∧
        ∀ name, ∀ right ∈ g.alternatives name, ∀ symbol ∈ right, g.UsesDeclared symbol := by
  simp only [List.findSome?_eq_none_iff, ruleFault?_eq_none_iff]
  constructor
  · intro h
    refine ⟨fun name hn => ?_, fun name right hr => ?_⟩
    · obtain ⟨⟨left, rights⟩, he, rfl⟩ := List.mem_map.1 hn
      exact (h _ he).1
    · obtain ⟨rights, he, hr⟩ := mem_alternatives_iff.1 hr
      exact (h _ he).2 right hr
  · rintro ⟨hl, hr⟩ ⟨left, rights⟩ he
    exact ⟨hl left (List.mem_map.2 ⟨_, he, rfl⟩),
      fun right h => hr left right (mem_alternatives_iff.2 ⟨rights, he, h⟩)⟩

theorem fault?_eq_none_iff {g : Grammar} : g.fault? = none ↔ g.WellFormed := by
  constructor
  · intro h
    rw [fault?] at h
    split at h <;> try contradiction
    split at h <;> try contradiction
    split at h <;> try contradiction
    split at h <;> try contradiction
    next hn ht _ hb hs =>
      obtain ⟨hl, hr⟩ := rules_findSome?_eq_none_iff.1 h
      exact ⟨exists_mem_of_isEmpty_false (by simpa using hn),
        exists_mem_of_isEmpty_false (by simpa using ht), by simpa using hb, hs, hl, hr⟩
  · intro h
    obtain ⟨_, hn⟩ := h.nonterminals_inhabited
    obtain ⟨_, ht⟩ := h.terminals_inhabited
    have hb : g.nonterminals.toList.find? (· ∈ g.terminals) = none := by simpa using h.disjoint
    simp only [fault?, isEmpty_false_of_mem hn, isEmpty_false_of_mem ht, hb, h.start_declared]
    exact rules_findSome?_eq_none_iff.2 ⟨h.lefts_declared, h.rights_declared⟩

theorem validate_eq_ok_iff {g : Grammar} : g.validate = .ok () ↔ g.WellFormed := by
  rw [← fault?_eq_none_iff, validate]
  cases g.fault? <;> simp

/-- The grammar with the given names and productions, repetitions dropped, if it is well formed.
Each nonterminal has a rule, perhaps without alternatives. -/
def build (start : String) (nonterminals terminals : List String)
    (productions : List (String × Alternative)) : Except GrammarError Grammar := do
  let names := OrderedSet.ofList nonterminals
  let bare : Grammar := ⟨start, names, .ofList terminals, .ofKeys names ∅⟩
  let g := productions.foldl (fun g (left, right) => g.addProduction left right) bare
  g.validate
  return g

def names (g : Grammar) : List String := g.nonterminals.toList ++ g.terminals.toList

@[simp] theorem mem_names {g : Grammar} {name : String} : name ∈ g.names ↔ g.Declares name := by
  simp [names, Declares]

/-- `name` with as few prime marks as make it undeclared. -/
def primed (g : Grammar) (name : String) : String :=
  if _h : g.Declares name then g.primed (name.push '\x27') else name
termination_by g.names.countP (name.length ≤ ·.length)
decreasing_by
  exact countP_lt_countP (mem_names.2 _h) (fun x hx => by simp at hx ⊢; omega) (by simp) (by simp)

theorem not_declares_primed (g : Grammar) (name : String) : ¬ g.Declares (g.primed name) := by
  fun_induction primed g name with
  | case1 _ _ ih => exact ih
  | case2 _ h => exact h

def addNonterminal (g : Grammar) (name : String) : Except GrammarError Grammar :=
  if g.Declares name then .error (.nameCollision name)
  else .ok { g with nonterminals := g.nonterminals.insert name, rules := g.rules.insert name ∅ }

theorem addNonterminal_primed (g : Grammar) (name : String) :
    g.addNonterminal (g.primed name) = .ok { g with
      nonterminals := g.nonterminals.insert (g.primed name)
      rules := g.rules.insert (g.primed name) ∅ } := by
  simp [addNonterminal, not_declares_primed]

end Grammar

end ChomskyNormal
