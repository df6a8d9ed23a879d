import ChomskyNormal.Analysis.Basic
import ChomskyNormal.Grammar.Validity

/-!
# Conversion to Chomsky normal form

In normal form every alternative is one terminal or two nonterminals, except that the start symbol
may have the empty alternative. A well-formed grammar gets there by four passes.

* No epsilon alternatives: every alternative is replaced by its variants, in which nullable
  nonterminals are present or absent in all combinations. A nullable start symbol keeps an empty
  alternative, and if it also stands on a right side, a fresh start symbol gets it instead.
* No unit alternatives: a nonterminal takes over the alternatives of everything it leads to by unit
  alternatives, the nearest first.
* No useless symbols: first everything unproductive goes, then what the start symbol no longer
  reaches, then the terminals that no alternative uses, except that an alphabet of which nothing is
  used stays whole.
* No long alternatives: each terminal beside another symbol is represented by a wrapper nonterminal,
  one per terminal, and a long alternative becomes a chain in which each link derives its first
  symbol and the next link.
-/

namespace ChomskyNormal

def Alternative.isNormal : Alternative → Bool
  | [.terminal _] => true
  | [.nonterminal _, .nonterminal _] => true
  | _ => false

def Grammar.isNormal (g : Grammar) : Bool :=
  g.productions.all fun (left, right) =>
    Alternative.isNormal right || right.isEmpty && left = g.start

/-- The alternative with every set of its nullable occurrences left out. The variant at position `j`
lacks the `m`-th of them, counted from zero, exactly when bit `m` of `j` is set. -/
def variants (nullable : OrderedSet String) : Alternative → List Alternative
  | [] => [[]]
  | .terminal name :: rest => (variants nullable rest).map (.terminal name :: ·)
  | .nonterminal name :: rest =>
    if name ∈ nullable then
      (variants nullable rest).flatMap fun variant => [.nonterminal name :: variant, variant]
    else (variants nullable rest).map (.nonterminal name :: ·)

def nonemptyVariants (nullable : OrderedSet String) (rights : OrderedSet Alternative) :
    OrderedSet Alternative :=
  .ofList ((rights.toList.flatMap (variants nullable)).filter (· ≠ []))

namespace Grammar

def startOnRight (g : Grammar) : Bool := g.start ∈ g.mentioned

/-- With `keepsEmpty` the start symbol gets the empty alternative, behind the others. -/
def epsilonFreeRules (g : Grammar) (keepsEmpty : Bool) :
    OrderedMap String (OrderedSet Alternative) :=
  let nullable := g.nullable
  g.rules.mapValues fun left rights =>
    let kept := nonemptyVariants nullable rights
    if left = g.start && keepsEmpty then kept.insert [] else kept

def eliminateEpsilon (g : Grammar) : Except GrammarError Grammar := do
  let startNullable : Bool := g.start ∈ g.nullable
  if startNullable && g.startOnRight then
    let start := g.primed g.start
    let h ← { g with rules := g.epsilonFreeRules false }.addNonterminal start
    return { (h.addProduction start [.nonterminal g.start]).addProduction start [] with start }
  else
    return { g with rules := g.epsilonFreeRules startNullable }

def unitFreeRights (g : Grammar) (left : String) : OrderedSet Alternative :=
  .ofList (((g.unitClosure left).toList.flatMap fun name => (g.alternatives name).toList).filter
    fun right => (unitTarget? right).isNone && (left = g.start || right ≠ []))

def eliminateUnits (g : Grammar) : Grammar :=
  { g with rules := g.rules.mapValues fun left _ => g.unitFreeRights left }

def dropUnproductive (g : Grammar) : Grammar :=
  let productive := g.productive
  let usable (right : Alternative) : Bool :=
    (right.filterMap Symbol.nonterminal?).all fun name => name ∈ productive
  let pruned := g.rules.mapValues fun _ (rights : OrderedSet Alternative) => rights.filter usable
  { g with rules := pruned }.retainNonterminals fun name => name ∈ productive

def dropUnreachable (g : Grammar) : Grammar :=
  let reachable := g.reachable
  g.retainNonterminals fun name => name ∈ reachable

def usedTerminals (g : Grammar) : List String :=
  g.productions.flatMap fun (_, right) => right.filterMap Symbol.terminal?

def dropUnusedTerminals (g : Grammar) : Grammar :=
  let used := OrderedSet.ofList g.usedTerminals
  if used.isEmpty then g else { g with terminals := g.terminals.filter fun name => name ∈ used }

def eliminateUseless (g : Grammar) : Grammar :=
  g.dropUnproductive.dropUnreachable.dropUnusedTerminals

end Grammar

/-- The number of the newest link of a chain, which wraps around, and the wrapper of each terminal
that has one. -/
structure FreshNames where
  counter : UInt64 := 0
  wrappers : OrderedMap String String := ∅

structure Draft where
  grammar : Grammar
  names : FreshNames

namespace Draft

def addProduction (d : Draft) (left : String) (right : Alternative) : Draft :=
  { d with grammar := d.grammar.addProduction left right }

def newLink (d : Draft) : Except GrammarError (String × Draft) := do
  let counter := d.names.counter + 1
  let name := d.grammar.primed s!"V{counter}"
  let g ← d.grammar.addNonterminal name
  return (name, ⟨g, { d.names with counter }⟩)

def wrapper (d : Draft) (terminal : String) : Except GrammarError (String × Draft) :=
  match d.names.wrappers.get? terminal with
  | some name => .ok (name, d)
  | none => do
    let name := d.grammar.primed s!"T_{terminal}"
    let g ← d.grammar.addNonterminal name
    let wrappers := d.names.wrappers.insert terminal name
    return (name, ⟨g.addProduction name [.terminal terminal], { d.names with wrappers }⟩)

def isolate (d : Draft) : List Symbol → Except GrammarError (List String × Draft)
  | [] => .ok ([], d)
  | .nonterminal name :: rest => do
    let (names, d) ← d.isolate rest
    return (name :: names, d)
  | .terminal terminal :: rest => do
    let (name, d) ← d.wrapper terminal
    let (names, d) ← d.isolate rest
    return (name :: names, d)

def chain (d : Draft) (left : String) : List String → Except GrammarError Draft
  | first :: second :: third :: rest => do
    let (link, d) ← d.newLink
    let d := d.addProduction left [.nonterminal first, .nonterminal link]
    d.chain link (second :: third :: rest)
  | names => .ok (d.addProduction left (names.map .nonterminal))

def addShortened (d : Draft) (left : String) (right : Alternative) : Except GrammarError Draft :=
  if right.length ≤ 1 || Alternative.isNormal right then .ok (d.addProduction left right)
  else do
    let (names, d) ← d.isolate right
    d.chain left names

end Draft

namespace Grammar

def withoutRules (g : Grammar) : Grammar := { g with rules := .ofKeys g.nonterminals ∅ }

def binarizeWith (g : Grammar) (names : FreshNames) :
    Except GrammarError (Grammar × FreshNames) := do
  let d ← g.productions.foldlM (fun d (left, right) => d.addShortened left right)
    (⟨g.withoutRules, names⟩ : Draft)
  return (d.grammar, d.names)

def binarize (g : Grammar) : Except GrammarError Grammar := do
  let (g, _) ← g.binarizeWith {}
  return g

end Grammar

inductive Pass where
  | epsilon
  | unit
  | useless
  | binarize
  deriving DecidableEq

namespace Pass

def all : List Pass := [epsilon, unit, useless, binarize]

def title : Pass → String
  | epsilon => "Eliminate epsilon productions"
  | unit => "Eliminate unit productions"
  | useless => "Eliminate useless symbols"
  | binarize => "Binarize"

def apply (g : Grammar) : Pass → Except GrammarError Grammar
  | epsilon => g.eliminateEpsilon
  | unit => .ok g.eliminateUnits
  | useless => .ok g.eliminateUseless
  | binarize => g.binarize

def trace (g : Grammar) : List Pass → Except GrammarError (List (Pass × Grammar))
  | [] => .ok []
  | pass :: passes => do
    let h ← pass.apply g
    let later ← trace h passes
    return (pass, h) :: later

end Pass

namespace Grammar

def normalize (g : Grammar) : Except GrammarError Grammar := do
  g.validate
  Pass.all.foldlM Pass.apply g

def normalizationSteps (g : Grammar) : Except GrammarError (List (Pass × Grammar)) := do
  g.validate
  Pass.trace g Pass.all

end Grammar

end ChomskyNormal
