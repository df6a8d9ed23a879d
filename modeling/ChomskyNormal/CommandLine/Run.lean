import ChomskyNormal.CommandLine.Arguments
import ChomskyNormal.Recognition
import ChomskyNormal.Sentence
import ChomskyNormal.Text.NormalFormJson

/-!
# Running requests

The grammar is read and normalized once, then the requests are answered one after the other, each in
the format that was asked for. LaTeX is for grammars only; everything else is then printed as in
plain text. The first failure ends the run; what was printed before stays printed.
-/

namespace ChomskyNormal

def line (text : String) : String := text ++ "\n"

def Format.write (format : Format) (g : Grammar) : String :=
  match format with
  | plain => g.listing.plain
  | latex => g.listing.tex
  | json => g.listing.json

def Format.heading (format : Format) (pass : Pass) : String :=
  match format with
  | plain => line ("# " ++ pass.title)
  | latex => line ("% " ++ pass.title)
  | json => ""

def Format.writeType (format : Format) (type : HierarchyType) : String :=
  match format with
  | json => line (Json.object [("type", Json.quote type.title)])
  | _ => line type.title

def Format.writeSentences (format : Format) (sentences : List (List String)) : String :=
  match format with
  | json => line (Json.array (sentences.map fun sentence => Json.array (sentence.map Json.quote)))
  | _ => String.join (sentences.map fun sentence => line (" ".intercalate sentence))

def Format.writeVerdicts (format : Format) (verdicts : List (String × Bool)) : String :=
  match format with
  | json =>
    line (Json.array (verdicts.map fun (sentence, accepted) =>
      Json.object [("accepted", Json.boolean accepted), ("sentence", Json.quote sentence)]))
  | _ => String.join (verdicts.map fun (sentence, accepted) =>
      line (sentence ++ ": " ++ if accepted then "accepted" else "rejected"))

inductive ReadFault where
  | missing
  | directory
  | notText
  | failure (reason : String)
  deriving DecidableEq

def ReadFault.message : ReadFault → String
  | missing => "No such file or directory (os error 2)"
  | directory => "Is a directory (os error 21)"
  | notText => "stream did not contain valid UTF-8"
  | failure reason => reason

inductive RunError where
  | unreadable (source : String) (fault : ReadFault)
  | grammar (error : GrammarError)
  deriving DecidableEq

def RunError.message : RunError → String
  | unreadable source fault => s!"failed to read {source}: " ++ fault.message
  | grammar error => error.message

structure Outcome where
  code : Nat
  stdout : String
  stderr : String
  deriving DecidableEq

structure Workup where
  grammar : Grammar
  steps : List (Pass × Grammar)

namespace Workup

def ofText (text : String) : Except GrammarError Workup := do
  let grammar ← Grammar.parse text
  let steps ← grammar.normalizationSteps
  return ⟨grammar, steps⟩

def after (w : Workup) (pass : Pass) : Grammar := (w.steps.lookup pass).getD w.grammar

def trace (w : Workup) : String :=
  String.join (w.steps.map fun (pass, g) =>
    line (line ("# " ++ pass.title) ++ line g.listing.plain))

def verdicts (w : Workup) (sentences : List String) : Except GrammarError (List (String × Bool)) :=
  sentences.mapM fun sentence => do
    let accepted ← (w.after .binarize).acceptsSentence sentence
    return (sentence, accepted)

variable {σ : Type}

def answer (w : Workup) (options : Options) (chooser : Chooser σ) : Request → Growing σ String
  | .productions => return line (options.format.write w.grammar)
  | .epsilonFree => return line (options.format.write (w.after .epsilon))
  | .unitFree => return line (options.format.write (w.after .unit))
  | .useful => return line (options.format.write (w.after .useless))
  | .normalForm => return line (options.format.write (w.after .binarize))
  | .steps => return String.join (w.steps.map fun (pass, g) =>
      options.format.heading pass ++ line (options.format.write g))
  | .hierarchyType => return options.format.writeType w.grammar.hierarchyType
  | .sentences => do
    let sentences ← w.grammar.randomSentences chooser options.amount
    return options.format.writeSentences sentences
  | .membership => do
    let verdicts ← w.verdicts options.sentences
    return options.format.writeVerdicts verdicts

def answers (w : Workup) (options : Options) (chooser : Chooser σ) (s : σ) :
    List Request → String × Option GrammarError
  | [] => ("", none)
  | request :: requests =>
    match w.answer options chooser request s with
    | .error e => ("", some e)
    | .ok (text, s) =>
      let (later, failure) := w.answers options chooser s requests
      (text ++ later, failure)

end Workup

def Outcome.failed (stdout stderr : String) (error : RunError) : Outcome :=
  ⟨1, stdout, stderr ++ line ("error: " ++ error.message)⟩

variable {σ : Type}

def Options.runOnText (options : Options) (chooser : Chooser σ) (s : σ) (text : String) : Outcome :=
  match Workup.ofText text with
  | .error e => .failed "" "" (.grammar e)
  | .ok w =>
    let stderr := if options.verbose then w.trace else ""
    match w.answers options chooser s options.requests with
    | (stdout, none) => ⟨0, stdout, stderr⟩
    | (stdout, some e) => .failed stdout stderr (.grammar e)

def Options.source (options : Options) : String := options.file.getD "standard input"

def decodeText (bytes : ByteArray) : Except ReadFault String :=
  match String.fromUTF8? bytes with
  | some text => .ok text
  | none => .error .notText

def Options.run (options : Options) (chooser : Chooser σ) (s : σ)
    (content : Except ReadFault ByteArray) : Outcome :=
  match content >>= decodeText with
  | .error fault => .failed "" "" (.unreadable options.source fault)
  | .ok text => options.runOnText chooser s text

def versionText : String := "chomsky-helper 0.1.0"

/-- The whole program, given a way to read the named file or else the standard input. Arguments are
examined before anything is read. -/
def runProgram {m : Type → Type} [Monad m] (read : Option String → m (Except ReadFault ByteArray))
    (chooser : Chooser σ) (s : σ) (arguments : List String) : m Outcome :=
  match Invocation.read? arguments with
  | none => return ⟨2, "", line "error: the arguments are not understood"⟩
  | some (.help detailed) => return ⟨0, Help.text detailed, ""⟩
  | some .version => return ⟨0, line versionText, ""⟩
  | some (.run options) => do
    let content ← read options.file
    return options.run chooser s content

end ChomskyNormal
