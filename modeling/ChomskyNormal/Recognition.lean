import ChomskyNormal.NormalForm
import ChomskyNormal.Text.Reader

/-!
# Recognition by charts and by a square table

The chart of a word under a grammar in normal form has a cell for each span of the word, with the
nonterminals that derive the span. A row holds the cells of all spans of one length; it is computed
from the rows of shorter spans, and its type keeps every lookup inside the chart.

The cells can also be kept in one square table that is filled in place, shorter spans first. Nothing
in the types keeps a position inside the table: a run that looks up or enters something outside
fails as a whole.
-/

namespace ChomskyNormal

abbrev Cell := OrderedSet String

/-- The cells of all spans of at most `height` symbols in a word of `n` symbols. -/
inductive Chart (n : Nat) : Nat → Type where
  | empty : Chart n 0
  | row {height : Nat} (below : Chart n height) (cells : Vector Cell (n - height)) :
    Chart n (height + 1)

def Chart.cell {n height : Nat} (chart : Chart n height) (len i : Nat) (hlen : len < height)
    (hi : i + len < n) : Cell :=
  match chart with
  | @Chart.row _ k below cells =>
    if h : len = k then cells[i] else below.cell len i (by omega) hi

namespace Grammar

def terminalProductions (g : Grammar) : List (String × String) :=
  g.productions.filterMap fun
    | (left, [.terminal name]) => some (left, name)
    | _ => none

def pairProductions (g : Grammar) : List (String × String × String) :=
  g.productions.filterMap fun
    | (left, [.nonterminal first, .nonterminal second]) => some (left, first, second)
    | _ => none

def deriveTerminal (terminalProductions : List (String × String)) (name : String) : List String :=
  terminalProductions.filterMap fun (left, terminal) => if terminal = name then some left else none

def derivePair (pairProductions : List (String × String × String)) (front back : Cell) :
    List String :=
  pairProductions.filterMap fun (left, first, second) =>
    if first ∈ front ∧ second ∈ back then some left else none

def spanCell (pairs : List (String × String × String)) {n height : Nat} (below : Chart n height)
    (i : Nat) (hi : i + height < n) : Cell :=
  .ofList <| (List.finRange height).flatMap fun (split : Fin height) =>
    derivePair pairs (below.cell split i split.isLt (by omega))
      (below.cell (height - split - 1) (i + split + 1) (by omega) (by omega))

def chart (g : Grammar) (word : List String) : (height : Nat) → Chart word.length height
  | 0 => .empty
  | 1 => .row .empty <| .ofFn fun i => .ofList (deriveTerminal g.terminalProductions word[i])
  | height + 2 =>
    let pairs := g.pairProductions
    let below := g.chart word (height + 1)
    .row below <| .ofFn fun i => spanCell pairs below i (by omega)

def accepts (g : Grammar) (word : List String) : Except GrammarError Bool :=
  if g.isNormal then
    if h : word.length = 0 then .ok g.hasEmptyStart
    else .ok (g.start ∈ (g.chart word word.length).cell (word.length - 1) 0 (by omega) (by omega))
  else .error .notInNormalForm

def acceptsSentence (g : Grammar) (sentence : String) : Except GrammarError Bool :=
  g.accepts (words sentence.toList)

end Grammar

/-- Row `len - 1` is about the spans of `len` symbols, and its cell at `i` about the one that starts
at `i`. -/
structure Table where
  rows : Array (Array Cell)

namespace Table

def blank (n : Nat) : Table := ⟨.replicate n (.replicate n ∅)⟩

def cell? (table : Table) : (len i : Nat) → Option Cell
  | 0, _ => none
  | len + 1, i => do
    let row ← table.rows[len]?
    row[i]?

def enter? (table : Table) (len i : Nat) (name : String) : Option Table :=
  match len with
  | 0 => none
  | len + 1 => do
    let row ← table.rows[len]?
    let cell ← row[i]?
    return ⟨table.rows.setIfInBounds len (row.setIfInBounds i (cell.insert name))⟩

def seedCell (table : Table) (terminals : List (String × String)) (word : List String) (i : Nat) :
    Option Table := do
  let symbol ← word[i]?
  terminals.foldlM (fun table (left, terminal) =>
    if terminal = symbol then table.enter? 1 i left else some table) table

def seed (table : Table) (terminals : List (String × String)) (word : List String) : Option Table :=
  (List.range' 0 word.length).foldlM (fun table i => table.seedCell terminals word i) table

def fillSplit (table : Table) (pairs : List (String × String × String)) (len i split : Nat) :
    Option Table :=
  pairs.foldlM (fun table (left, first, second) => do
    let front ← table.cell? split i
    if first ∈ front then
      let back ← table.cell? (len - split) (i + split)
      if second ∈ back then table.enter? len i left else some table
    else some table) table

def fillCell (table : Table) (pairs : List (String × String × String)) (len i : Nat) :
    Option Table :=
  (List.range' 1 (len - 1)).foldlM (fun table split => table.fillSplit pairs len i split) table

def fillRow (table : Table) (pairs : List (String × String × String)) (n len : Nat) :
    Option Table :=
  (List.range' 0 (n - len + 1)).foldlM (fun table i => table.fillCell pairs len i) table

end Table

namespace Grammar

def fillTable (g : Grammar) (word : List String) : Option Table := do
  let n := word.length
  let table ← (Table.blank n).seed g.terminalProductions word
  let pairs := g.pairProductions
  (List.range' 2 (n - 1)).foldlM (fun table len => table.fillRow pairs n len) table

/-- There is no answer if a position was outside the table. -/
def acceptsByTable (g : Grammar) (word : List String) : Option (Except GrammarError Bool) :=
  if g.isNormal then
    if word.isEmpty then some (.ok g.hasEmptyStart)
    else do
      let table ← g.fillTable word
      let cell ← table.cell? word.length 0
      return .ok (g.start ∈ cell)
  else some (.error .notInNormalForm)

end Grammar

end ChomskyNormal
