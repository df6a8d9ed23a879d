import ChomskyNormal.Text.Reader

/-!
# Listings of grammars

A listing shows the rules of a grammar by bare names. In plain text each alternative has a line of
its own and the arrows are aligned; LaTeX has a line for each rule.
-/

namespace ChomskyNormal

structure ListedRule where
  left : String
  rights : List (List String)

structure Listing where
  start : String
  rules : List ListedRule

def Grammar.listing (g : Grammar) : Listing where
  start := g.start
  rules := g.rules.entries.map fun (left, rights) =>
    ⟨left, rights.toList.map fun right => right.map Symbol.name⟩

def Listing.inhabited (listing : Listing) : List ListedRule :=
  listing.rules.filter fun rule => rule.rights ≠ []

def alignRight (width : Nat) (s : String) : String :=
  String.ofList (List.replicate (width - s.length) ' ') ++ s

def plainRight (right : List String) : String :=
  if right = [] then epsilon else " ".intercalate right

def ListedRule.plainLines (width : Nat) (rule : ListedRule) : List String :=
  match rule.rights with
  | [] => []
  | right :: others =>
    (alignRight width rule.left ++ " -> " ++ plainRight right) ::
      others.map fun right => alignRight width "" ++ "  | " ++ plainRight right

def ListedRule.plain (width : Nat) (rule : ListedRule) : String :=
  "\n".intercalate (rule.plainLines width)

def ListedRule.plainLine (width : Nat) (rule : ListedRule) : String :=
  match rule.rights with
  | [] => ""
  | right :: others =>
    alignRight width rule.left ++ " -> " ++ plainRight right ++
      String.join (others.map fun right => " | " ++ plainRight right)

/-- Wide enough for the left side that takes the most bytes. -/
def Listing.width (listing : Listing) : Nat :=
  ((listing.inhabited.map fun rule => rule.left.utf8ByteSize).max?).getD 0

def Listing.plain (listing : Listing) : String :=
  "\n".intercalate (listing.inhabited.map (ListedRule.plain listing.width))

def texCharacter : Char → String
  | '&' => "\\&"
  | '%' => "\\%"
  | '$' => "\\$"
  | '#' => "\\#"
  | '_' => "\\_"
  | '\x7b' => "\\\x7b"
  | '\x7d' => "\\\x7d"
  | '[' => "\x7b[\x7d"
  | ']' => "\x7b]\x7d"
  | '~' => "\\textasciitilde\x7b\x7d"
  | '^' => "\\textasciicircum\x7b\x7d"
  | '<' => "\\textless\x7b\x7d"
  | '>' => "\\textgreater\x7b\x7d"
  | '!' => "!\x7b\x7d"
  | '\\' => "\\textbackslash\x7b\x7d"
  | c => c.toString

def texName : List Char → String
  | [] => ""
  | '-' :: '-' :: rest => "-\x7b\x7d" ++ texName ('-' :: rest)
  | c :: rest => texCharacter c ++ texName rest

def texRight (right : List String) : String :=
  if right = [] then "\\epsilon" else " \\ ".intercalate (right.map fun name => texName name.toList)

def ListedRule.tex (columns : Bool) (rule : ListedRule) : String :=
  if rule.rights = [] then ""
  else
    texName rule.left.toList ++ (if columns then " & \\rightarrow &" else " \\rightarrow ") ++
      " \\mid ".intercalate (rule.rights.map texRight)

def Listing.tex (listing : Listing) : String :=
  "\\\\\n".intercalate
    ("\\[\\begin\x7barray\x7d\x7bcll\x7d" :: listing.inhabited.map (ListedRule.tex true) ++
      ["\\end\x7barray\x7d\\]"])

end ChomskyNormal
