import ChomskyNormal.NormalForm
import ChomskyNormal.Text.Listing

/-!
# Grammars and normal forms in JSON

JSON is written without blanks. Quotes, backslashes and the characters below the space are escaped,
everything else stands for itself. The listing of a grammar also shows rules without alternatives.
The call for a normal form reads a grammar, normalizes it and lists the result; where a step fails,
the only member of its answer is the error.
-/

namespace ChomskyNormal

namespace Json

def hexDigit (n : Nat) : Char := "0123456789abcdef".toList.getD n '0'

def escape (c : Char) : String :=
  match c with
  | '"' => "\\\""
  | '\\' => "\\\\"
  | '\x08' => "\\b"
  | '\t' => "\\t"
  | '\n' => "\\n"
  | '\x0c' => "\\f"
  | '\r' => "\\r"
  | c =>
    if c.toNat < 0x20 then
      "\\u00" ++ String.ofList [hexDigit (c.toNat / 16), hexDigit (c.toNat % 16)]
    else c.toString

def quote (s : String) : String := "\"" ++ String.join (s.toList.map escape) ++ "\""

def array (values : List String) : String := "[" ++ ",".intercalate values ++ "]"

def object (members : List (String × String)) : String :=
  "\x7b" ++ ",".intercalate (members.map fun (name, value) => quote name ++ ":" ++ value) ++ "\x7d"

def boolean (b : Bool) : String := if b then "true" else "false"

end Json

def ListedRule.json (rule : ListedRule) : String :=
  Json.object [("left", Json.quote rule.left),
    ("rights", Json.array (rule.rights.map fun right => Json.array (right.map Json.quote)))]

def Listing.json (listing : Listing) : String :=
  Json.object [("start", Json.quote listing.start),
    ("productions", Json.array (listing.rules.map ListedRule.json))]

def Symbol.json : Symbol → String
  | nonterminal name => Json.object [("NonTerminal", Json.quote name)]
  | terminal name => Json.object [("Terminal", Json.quote name)]

def normalFormOfText (text : String) : Except GrammarError Grammar := do
  let g ← Grammar.parse text
  g.normalize

def normalFormJson (text : String) : String :=
  match normalFormOfText text with
  | .ok g => g.listing.json
  | .error e => Json.object [("error", Json.quote e.message)]

end ChomskyNormal
