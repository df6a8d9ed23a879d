import ChomskyNormal.Grammar.Validity

/-!
# Reading grammars

A text is a list of lines, a line a list of words, and words are separated by the characters with
the Unicode property White_Space. The text consists of rules `left -> right | right`, one a line,
and of continuations `| right`, which belong to the rule above. Left sides are the nonterminals, the
first of them is the start symbol, and all other words are terminals.
-/

namespace ChomskyNormal

/-- First and last members of the runs of blank characters. -/
def blankRuns : List (Nat × Nat) :=
  [(0x09, 0x0D), (0x20, 0x20), (0x85, 0x85), (0xA0, 0xA0), (0x1680, 0x1680), (0x2000, 0x200A),
    (0x2028, 0x2029), (0x202F, 0x202F), (0x205F, 0x205F), (0x3000, 0x3000)]

def isBlank (c : Char) : Bool :=
  blankRuns.any fun (first, last) => first ≤ c.toNat && c.toNat ≤ last

def words (cs : List Char) : List String :=
  ((cs.splitOnP isBlank).filter fun piece => piece ≠ []).map String.ofList

/-- A line ends at a line feed, of which a carriage return right before it is part. What follows the
last line feed is a line unless it is empty. -/
def lines : List Char → List (List Char)
  | [] => []
  | '\r' :: '\n' :: rest => [] :: lines rest
  | '\n' :: rest => [] :: lines rest
  | c :: rest =>
    match lines rest with
    | [] => [[c]]
    | line :: others => (c :: line) :: others

def epsilon : String := "ε"

def epsilonSpellings : List String := ["ε", "ϵ", "epsilon"]

structure Clause where
  left : String
  bodies : List (List String)
  deriving DecidableEq

inductive Line where
  | blank
  | rule (clause : Clause)
  | continuation (bodies : List (List String))
  | faulty (fault : LineFault)
  deriving DecidableEq

def splitArrows : List Char → List (List Char)
  | [] => [[]]
  | '-' :: '>' :: rest => [] :: splitArrows rest
  | c :: rest => (splitArrows rest).modifyHead (c :: ·)

theorem splitArrows_ne_nil (cs : List Char) : splitArrows cs ≠ [] := by
  fun_induction splitArrows cs <;> simp_all

def readBodies (cs : List Char) : List (List String) := (cs.splitOn '|').map words

def Line.read (cs : List Char) : Line :=
  if cs.all isBlank then .blank
  else match splitArrows cs with
    | [text] =>
      match text.dropWhile isBlank with
      | '|' :: rest => .continuation (readBodies rest)
      | _ => .faulty .missingLeft
    | [before, after] =>
      match words before with
      | [] => .faulty .emptyLeft
      | [left] => .rule ⟨left, readBodies after⟩
      | _ => .faulty .blankInLeft
    | _ => .faulty .tooManyArrows

/-- The clauses on the lines from `number` on, below a rule for `current`. -/
def clauses (number : Nat) (current : Option String) : List Line → Except GrammarError (List Clause)
  | [] => .ok []
  | .blank :: rest => clauses (number + 1) current rest
  | .rule clause :: rest => do
    let later ← clauses (number + 1) (some clause.left) rest
    return clause :: later
  | .continuation bodies :: rest =>
    match current with
    | none => .error (.badLine number .missingLeft)
    | some left => do
      let later ← clauses (number + 1) (some left) rest
      return ⟨left, bodies⟩ :: later
  | .faulty fault :: _ => .error (.badLine number fault)

def readAlternative (lefts : OrderedSet String) (body : List String) : Alternative :=
  if ∃ word ∈ epsilonSpellings, body = [word] then []
  else body.map fun word => if word ∈ lefts then .nonterminal word else .terminal word

def Clause.productions (lefts : OrderedSet String) (clause : Clause) :
    List (String × Alternative) :=
  clause.bodies.map fun body => (clause.left, readAlternative lefts body)

def Grammar.ofClauses (cs : List Clause) : Except GrammarError Grammar :=
  let lefts := OrderedSet.ofList (cs.map Clause.left)
  let productions := cs.flatMap (Clause.productions lefts)
  let terminals := productions.flatMap fun (_, right) => right.filterMap Symbol.terminal?
  Grammar.build (lefts.toList.headD "") lefts.toList terminals productions

def Grammar.parse (text : String) : Except GrammarError Grammar := do
  let cs ← clauses 1 none ((lines text.toList).map Line.read)
  Grammar.ofClauses cs

end ChomskyNormal
