/-!
# Command-line arguments

Arguments are cut into pieces, which are then applied one by one to the settings seen so far.
Whatever is not understood makes the whole line a usage error, unless the help or the version was
asked for before it.
-/

namespace ChomskyNormal

inductive Request where
  | productions
  | epsilonFree
  | unitFree
  | useful
  | normalForm
  | steps
  | hierarchyType
  | sentences
  | membership
  deriving DecidableEq

namespace Request

def all : List Request :=
  [productions, epsilonFree, unitFree, useful, normalForm, steps, hierarchyType, sentences,
    membership]

def name : Request → String
  | productions => "prod"
  | epsilonFree => "eps"
  | unitFree => "unit"
  | useful => "useless"
  | normalForm => "cnf"
  | steps => "steps"
  | hierarchyType => "type"
  | sentences => "gen"
  | membership => "check"

def purpose : Request → String
  | productions => "Productions as read"
  | epsilonFree => "After eliminating epsilon productions"
  | unitFree => "After eliminating unit productions"
  | useful => "After eliminating useless symbols"
  | normalForm => "Chomsky normal form"
  | steps => "Every intermediate grammar"
  | hierarchyType => "Chomsky hierarchy type"
  | sentences => "Random sentences"
  | membership => "Membership of the --word sentences"

def ofName? (text : String) : Option Request := all.find? fun request => request.name = text

end Request

inductive Format where
  | plain
  | latex
  | json
  deriving DecidableEq

structure Options where
  requests : List Request
  file : Option String
  format : Format
  amount : Nat
  sentences : List String
  verbose : Bool
  deriving DecidableEq

inductive Invocation where
  | help (detailed : Bool)
  | version
  | run (options : Options)
  deriving DecidableEq

inductive OptionName where
  | file
  | latex
  | json
  | amount
  | word
  | verbose
  | help
  | version
  deriving DecidableEq

namespace OptionName

def all : List OptionName := [file, latex, json, amount, word, verbose, help, version]

def long : OptionName → String
  | file => "file"
  | latex => "latex"
  | json => "json"
  | amount => "amount"
  | word => "word"
  | verbose => "verbose"
  | help => "help"
  | version => "version"

def short : OptionName → Char
  | file => 'f'
  | latex => 'l'
  | json => 'j'
  | amount => 'n'
  | word => 'w'
  | verbose => 'v'
  | help => 'h'
  | version => 'V'

def valueName? : OptionName → Option String
  | file => some "FILE"
  | amount => some "AMOUNT"
  | word => some "SENTENCE"
  | latex | json | verbose | help | version => none

def takesValue (option : OptionName) : Bool := option.valueName?.isSome

def ofLong? (text : String) : Option OptionName := all.find? fun option => option.long = text

def ofShort? (c : Char) : Option OptionName := all.find? fun option => option.short = c

end OptionName

def defaultAmount : Nat := 5

inductive Piece where
  | positional (text : String)
  | flag (option : OptionName) (long : Bool)
  | value (option : OptionName) (text : String)
  | pending (option : OptionName)
  | separator
  | unknown
  deriving DecidableEq

def shortPieces : List Char → List Piece
  | [] => []
  | c :: rest =>
    match OptionName.ofShort? c with
    | none => [.unknown]
    | some option =>
      if option.takesValue then
        match rest with
        | [] => [.pending option]
        | '=' :: text => [.value option (String.ofList text)]
        | text => [.value option (String.ofList text)]
      else .flag option false :: shortPieces rest

def longPiece (cs : List Char) : Piece :=
  let name := cs.takeWhile (· ≠ '=')
  match OptionName.ofLong? (String.ofList name), cs.drop name.length with
  | none, _ => .unknown
  | some option, [] => if option.takesValue then .pending option else .flag option true
  | some option, _ :: text =>
    if option.takesValue then .value option (String.ofList text) else .unknown

def argumentPieces (argument : String) : List Piece :=
  match argument.toList with
  | '-' :: '-' :: [] => [.separator]
  | '-' :: '-' :: long => [longPiece long]
  | '-' :: c :: rest => shortPieces (c :: rest)
  | _ => [.positional argument]

/-- After a separator nothing is an option. -/
def pieces : List String → List Piece
  | [] => []
  | argument :: rest =>
    if argument = "--" then .separator :: rest.map .positional
    else argumentPieces argument ++ pieces rest

def readAmount? (text : String) : Option Nat :=
  let digits : List Char := match text.toList with
    | '+' :: rest => rest
    | cs => cs
  let n : Nat := digits.foldl (fun n c => 10 * n + (c.toNat - '0'.toNat)) 0
  if digits ≠ [] ∧ digits.all Char.isDigit ∧ n < UInt64.size then some n else none

structure Settings where
  requests : List Request := []
  file : Option String := none
  latex : Bool := false
  json : Bool := false
  amount : Option Nat := none
  sentences : List String := []
  verbose : Bool := false

namespace Settings

def setFlag? (s : Settings) : OptionName → Option Settings
  | .latex => if s.latex then none else some { s with latex := true }
  | .json => if s.json then none else some { s with json := true }
  | .verbose => if s.verbose then none else some { s with verbose := true }
  | _ => none

def setValue? (s : Settings) (text : String) : OptionName → Option Settings
  | .file => if s.file.isSome || text.isEmpty then none else some { s with file := some text }
  | .amount =>
    if s.amount.isSome then none
    else (readAmount? text).map fun amount => { s with amount := some amount }
  | .word => some { s with sentences := s.sentences ++ [text] }
  | _ => none

def format (s : Settings) : Format :=
  if s.latex then .latex else if s.json then .json else .plain

def invocation? (s : Settings) : Option Invocation :=
  if s.requests = [] || s.latex && s.json then none
  else some (.run ⟨s.requests, s.file, s.format, s.amount.getD defaultAmount, s.sentences,
    s.verbose⟩)

/-- A pending option takes the piece behind it, which has to be positional. Help and version are
answered as soon as they are met. -/
def interpret? (s : Settings) : List Piece → Option Invocation
  | [] => s.invocation?
  | .positional text :: rest => do
    let request ← Request.ofName? text
    { s with requests := s.requests ++ [request] }.interpret? rest
  | .flag .help long :: _ => some (.help long)
  | .flag .version _ :: _ => some .version
  | .flag option _ :: rest => do
    let s ← s.setFlag? option
    s.interpret? rest
  | .value option text :: rest => do
    let s ← s.setValue? text option
    s.interpret? rest
  | .pending option :: .positional text :: rest => do
    let s ← s.setValue? text option
    s.interpret? rest
  | .pending _ :: _ => none
  | .separator :: rest => s.interpret? rest
  | .unknown :: _ => none

end Settings

def Invocation.read? (arguments : List String) : Option Invocation :=
  ({} : Settings).interpret? (pieces arguments)

namespace Help

def about : String := "A tool & library to bring context-free grammars into Chomsky normal form."

def usage : String := "Usage: chomsky-helper [OPTIONS] <OUTPUTS>..."

def description (detailed : Bool) (text : String) : String :=
  if detailed then "\n".pushn ' ' 10 ++ text else "  " ++ text

def note (detailed : Bool) (text : String) : String :=
  if detailed then description true "" ++ description true text else " " ++ text

def pad (width : Nat) (text : String) : String := text.pushn ' ' (width - text.length)

def requests (detailed : Bool) : String :=
  let width := ((Request.all.map fun request => request.name.length).max?).getD 0
  "  <OUTPUTS>..." ++ description detailed "What to print" ++
    if detailed then
      "\n" ++ description true "Possible values:" ++ String.join (Request.all.map fun request =>
        description true ("- " ++ pad (width + 2) (request.name ++ ": ") ++ request.purpose))
    else note false ("[possible values: " ++ ", ".intercalate (Request.all.map Request.name) ++ "]")

def names (option : OptionName) : String :=
  "-" ++ option.short.toString ++ ", --" ++ option.long ++
    match option.valueName? with
    | some value => " <" ++ value ++ ">"
    | none => ""

def purpose (detailed : Bool) : OptionName → String
  | .file => "File containing the grammar (default: standard input)"
  | .latex => "Print in LaTeX format"
  | .json => "Print in JSON format"
  | .amount => "Amount of sentences to generate" ++ note detailed s!"[default: {defaultAmount}]"
  | .word => "Sentence to check for membership, symbols separated by spaces"
  | .verbose => "Print the grammar after every normalization pass to stderr"
  | .help =>
    if detailed then "Print help (see a summary with '-h')"
    else "Print help (see more with '--help')"
  | .version => "Print version"

def option (detailed : Bool) (option : OptionName) : String :=
  let width := ((OptionName.all.map fun option => (names option).length).max?).getD 0
  "  " ++ (if detailed then names option else pad width (names option)) ++
    description detailed (purpose detailed option)

def text (detailed : Bool) : String :=
  "\n\n".intercalate
    [about, usage, "Arguments:\n" ++ requests detailed,
      "Options:\n" ++ (if detailed then "\n\n" else "\n").intercalate
        (OptionName.all.map (option detailed))] ++ "\n"

end Help

end ChomskyNormal
