import ChomskyNormal.CommandLine.Arguments
import Mathlib.Data.List.Induction
import Mathlib.Data.List.Nodup

/-!
# Arguments and the options they give

Each of the things that can be asked for has a name or an option of its own, the latter in a long
and a short form and with the value, if there is one, in the same argument or in the next. However
they are written, and in whatever order, the options of the run can be told from what is asked for:
the requests and the sentences in their order, and everything else by its only occurrence.
-/

namespace ChomskyNormal

inductive Argument where
  | request (request : Request)
  | file (path : String)
  | latex
  | json
  | amount (amount : Nat)
  | word (sentence : String)
  | verbose
  deriving DecidableEq

/-- The ways to write an option with its value, which must not look like an option where it stands
in an argument of its own. -/
inductive GivesValue (long short value : String) : List String → Prop where
  | long : GivesValue long short value [long ++ "=" ++ value]
  | longApart : value.toList.head? ≠ some '-' → GivesValue long short value [long, value]
  | short : GivesValue long short value [short ++ "=" ++ value]
  | shortApart : value.toList.head? ≠ some '-' → GivesValue long short value [short, value]
  | shortJoined : value ≠ "" → value.toList.head? ≠ some '=' →
      GivesValue long short value [short ++ value]

inductive Argument.Written : Argument → List String → Prop where
  | productions : Written (.request .productions) ["prod"]
  | epsilonFree : Written (.request .epsilonFree) ["eps"]
  | unitFree : Written (.request .unitFree) ["unit"]
  | useful : Written (.request .useful) ["useless"]
  | normalForm : Written (.request .normalForm) ["cnf"]
  | steps : Written (.request .steps) ["steps"]
  | hierarchyType : Written (.request .hierarchyType) ["type"]
  | sentences : Written (.request .sentences) ["gen"]
  | membership : Written (.request .membership) ["check"]
  | latex {text : String} : text ∈ ["--latex", "-l"] → Written .latex [text]
  | json {text : String} : text ∈ ["--json", "-j"] → Written .json [text]
  | verbose {text : String} : text ∈ ["--verbose", "-v"] → Written .verbose [text]
  | file {path : String} {texts : List String} : path ≠ "" →
      GivesValue "--file" "-f" path texts → Written (.file path) texts
  | amount {amount : Nat} {texts : List String} : amount < UInt64.size →
      GivesValue "--amount" "-n" (toString amount) texts → Written (.amount amount) texts
  | word {sentence : String} {texts : List String} :
      GivesValue "--word" "-w" sentence texts → Written (.word sentence) texts

namespace Argument

def request? : Argument → Option Request
  | request r => some r
  | _ => none

def file? : Argument → Option String
  | file path => some path
  | _ => none

def amount? : Argument → Option Nat
  | amount n => some n
  | _ => none

def word? : Argument → Option String
  | word sentence => some sentence
  | _ => none

/-- The option that is written, if it may be written only once. -/
def single? : Argument → Option OptionName
  | file _ => some .file
  | latex => some .latex
  | json => some .json
  | amount _ => some .amount
  | verbose => some .verbose
  | request _ | word _ => none

structure Consistent (given : List Argument) : Prop where
  requested : given.filterMap request? ≠ []
  single : (given.filterMap single?).Nodup
  format : ¬ (latex ∈ given ∧ json ∈ given)

end Argument

def Options.ofArguments (given : List Argument) : Options where
  requests := given.filterMap Argument.request?
  file := (given.filterMap Argument.file?).head?
  format := if .latex ∈ given then .latex else if .json ∈ given then .json else .plain
  amount := (given.filterMap Argument.amount?).head?.getD 5
  sentences := given.filterMap Argument.word?
  verbose := .verbose ∈ given

section Pieces

variable {option : OptionName} {name text value : String} {cut : List Piece}

def OptionName.IsName (option : OptionName) (name : String) : Prop :=
  name.toList = '-' :: '-' :: option.long.toList ∨ name.toList = ['-', option.short]

theorem argumentPieces_name (takes : option.takesValue) (isName : option.IsName name) :
    argumentPieces name = [.pending option] := by
  rcases isName with spelt | spelt
  · rw [argumentPieces, spelt]
    cases option <;> first | contradiction | rfl
  · rw [argumentPieces, spelt]
    cases option <;> first | contradiction | rfl

theorem argumentPieces_value (takes : option.takesValue) (isName : option.IsName name) :
    argumentPieces (name ++ "=" ++ value) = [.value option value] := by
  have split : (name ++ "=" ++ value).toList = name.toList ++ '=' :: value.toList := by simp
  have whole : [Piece.value option (String.ofList value.toList)] = [.value option value] := by
    rw [String.ofList_toList]
  rcases isName with spelt | spelt
  · rw [argumentPieces, split, spelt]
    cases option <;> first | contradiction | exact whole
  · rw [argumentPieces, split, spelt]
    cases option <;> first | contradiction | exact whole

theorem argumentPieces_joined (takes : option.takesValue)
    (spelt : name.toList = ['-', option.short]) (inhabited : value ≠ "")
    (bare : value.toList.head? ≠ some '=') :
    argumentPieces (name ++ value) = [.value option value] := by
  have split : (name ++ value).toList = '-' :: option.short :: value.toList := by simp [spelt]
  have pieces : argumentPieces (name ++ value) = shortPieces (option.short :: value.toList) := by
    rw [argumentPieces, split]
    cases option <;> rfl
  have known : OptionName.ofShort? option.short = some option := by cases option <;> rfl
  cases letters : value.toList with
  | nil => exact absurd (String.toList_eq_nil_iff.1 letters) inhabited
  | cons c cs =>
    have other : c ≠ '=' := fun e => bare (by rw [letters, e]; rfl)
    have cut : shortPieces (option.short :: c :: cs) =
        [.value option (String.ofList (c :: cs))] := by
      simp [shortPieces, known, takes, other]
    rw [pieces, letters, cut, ← letters, String.ofList_toList]

theorem argumentPieces_positional (bare : text.toList.head? ≠ some '-') :
    argumentPieces text = [.positional text] := by
  rw [argumentPieces]
  split <;> simp_all

theorem pieces_cons (e : argumentPieces text = cut) (inside : .separator ∉ cut)
    (texts : List String) : pieces (text :: texts) = cut ++ pieces texts := by
  have other : text ≠ "--" := by
    rintro rfl
    exact inside (e ▸ .head _)
  rw [pieces, if_neg other, e]

end Pieces

namespace Settings

variable {long short value : String} {texts : List String}

theorem interpret?_givesValue (option : OptionName) (takes : option.takesValue)
    (isLong : long.toList = '-' :: '-' :: option.long.toList)
    (isShort : short.toList = ['-', option.short]) (given : GivesValue long short value texts)
    (s : Settings) (rest : List String) : s.interpret? (pieces (texts ++ rest)) =
      (s.setValue? value option).bind fun s => s.interpret? (pieces rest) := by
  -- In an argument of its own the value is a positional piece, which the pending option takes.
  have apart (name : String) (isName : option.IsName name) (bare : value.toList.head? ≠ some '-') :
      s.interpret? (pieces (name :: value :: rest)) =
        (s.setValue? value option).bind fun s => s.interpret? (pieces rest) := by
    rw [pieces_cons (argumentPieces_name takes isName) (by simp),
      pieces_cons (argumentPieces_positional bare) (by simp)]
    rfl
  have together (text : String) (cut : argumentPieces text = [.value option value]) :
      s.interpret? (pieces (text :: rest)) =
        (s.setValue? value option).bind fun s => s.interpret? (pieces rest) := by
    rw [pieces_cons cut (by simp)]
    rfl
  cases given with
  | long => exact together _ (argumentPieces_value takes (.inl isLong))
  | longApart bare => exact apart long (.inl isLong) bare
  | short => exact together _ (argumentPieces_value takes (.inr isShort))
  | shortApart bare => exact apart short (.inr isShort) bare
  | shortJoined inhabited bare =>
    exact together _ (argumentPieces_joined takes isShort inhabited bare)

def take? (s : Settings) : Argument → Option Settings
  | .request request => some { s with requests := s.requests ++ [request] }
  | .file path => if s.file.isSome then none else some { s with file := some path }
  | .latex => s.setFlag? .latex
  | .json => s.setFlag? .json
  | .amount amount => if s.amount.isSome then none else some { s with amount := some amount }
  | .word sentence => some { s with sentences := s.sentences ++ [sentence] }
  | .verbose => s.setFlag? .verbose

theorem readAmount?_toString {amount : Nat} (bound : amount < UInt64.size) :
    readAmount? (toString amount) = some amount := by
  have digits : (toString amount).toList = Nat.toDigits 10 amount := Nat.toList_repr
  have digit : ∀ c ∈ Nat.toDigits 10 amount, c.isDigit = true := fun _ mem =>
    Nat.isDigit_of_mem_toDigits (by decide) (by decide) mem
  have value : (Nat.toDigits 10 amount).foldl (fun n c => 10 * n + (c.toNat - '0'.toNat)) 0 =
      amount := Nat.ofDigitChars_toDigits (by decide) (by decide)
  have inhabited : Nat.toDigits 10 amount ≠ [] := Nat.toDigits_ne_nil
  simp only [readAmount?, digits]
  split
  · next rest e => exact absurd (digit '+' (e ▸ .head _)) (by decide)
  · rw [value, if_pos ⟨inhabited, List.all_eq_true.2 digit, bound⟩]

theorem interpret?_written {argument : Argument} (written : argument.Written texts)
    (s : Settings) (rest : List String) : s.interpret? (pieces (texts ++ rest)) =
      (s.take? argument).bind fun s => s.interpret? (pieces rest) := by
  cases written with
  | file inhabited given =>
    rw [interpret?_givesValue .file rfl rfl rfl given]
    simp [setValue?, take?, inhabited]
  | amount bound given =>
    rw [interpret?_givesValue .amount rfl rfl rfl given]
    simp only [setValue?, take?, readAmount?_toString bound, Option.map_some]
  | word given => exact interpret?_givesValue .word rfl rfl rfl given s rest
  | latex spelt | json spelt | verbose spelt =>
    simp only [List.mem_cons, List.not_mem_nil, or_false] at spelt
    rcases spelt with rfl | rfl <;> rfl
  | _ => rfl

def ofArguments (given : List Argument) : Settings where
  requests := given.filterMap Argument.request?
  file := (given.filterMap Argument.file?).head?
  latex := .latex ∈ given
  json := .json ∈ given
  amount := (given.filterMap Argument.amount?).head?
  sentences := given.filterMap Argument.word?
  verbose := .verbose ∈ given

open Argument (request? file? amount? word?) in
theorem take?_ofArguments {given : List Argument} {argument : Argument}
    (new : ∀ option ∈ argument.single?, option ∉ given.filterMap Argument.single?) :
    (ofArguments given).take? argument = some (ofArguments (given ++ [argument])) := by
  have absent {option : OptionName} (e : argument.single? = some option) {other : Argument}
      (e' : other.single? = some option) : other ∉ given := fun mem =>
    new option e (List.mem_filterMap.2 ⟨other, mem, e'⟩)
  cases argument with
  | request | word => simp [take?, ofArguments, request?, file?, amount?, word?]
  | latex | json | verbose =>
    refine (if_neg fun found => absent rfl (by rfl) (of_decide_eq_true found)).trans ?_
    simp [ofArguments, request?, file?, amount?, word?]
  | file =>
    have none : given.filterMap file? = [] := List.filterMap_eq_nil_iff.2 fun
      | .file _, mem => absurd mem (absent rfl rfl)
      | .request _, _ | .latex, _ | .json, _ | .amount _, _ | .word _, _ | .verbose, _ => rfl
    simp [take?, ofArguments, none, request?, file?, amount?, word?]
  | amount =>
    have none : given.filterMap amount? = [] := List.filterMap_eq_nil_iff.2 fun
      | .amount _, mem => absurd mem (absent rfl rfl)
      | .request _, _ | .latex, _ | .json, _ | .file _, _ | .word _, _ | .verbose, _ => rfl
    simp [take?, ofArguments, none, request?, file?, amount?, word?]

theorem foldlM_take? {given : List Argument} (single : (given.filterMap Argument.single?).Nodup) :
    given.foldlM take? {} = some (ofArguments given) := by
  -- The settings so far are those of the arguments so far, so the induction is at the end.
  induction given using List.reverseRecOn with
  | nil => rfl
  | append_singleton given argument ih =>
    rw [List.filterMap_append, List.nodup_append] at single
    have ⟨before, _, apart⟩ := single
    have new : ∀ option ∈ argument.single?, option ∉ given.filterMap Argument.single? :=
      fun option found mem => apart option mem option (by simp [Option.mem_def.1 found]) rfl
    simp only [List.foldlM_append, ih before, List.foldlM_cons, List.foldlM_nil, bind,
      Option.bind, take?_ofArguments new, pure]

theorem interpret?_written_all {given : List Argument} {written : List (List String)}
    (spelt : List.Forall₂ Argument.Written given written) (s : Settings) :
    s.interpret? (pieces written.flatten) = (given.foldlM take? s).bind invocation? := by
  induction spelt generalizing s with
  | nil => rfl
  | cons first _ ih =>
    simp only [List.flatten_cons, interpret?_written first, ih, List.foldlM_cons]
    cases s.take? _ <;> rfl

end Settings

theorem Invocation.read?_written {given : List Argument} {written : List (List String)}
    (spelt : List.Forall₂ Argument.Written given written) (consistent : Argument.Consistent given) :
    read? written.flatten = some (.run (.ofArguments given)) := by
  have permitted : ¬ (given.filterMap Argument.request? = [] ∨ .latex ∈ given ∧ .json ∈ given) :=
    not_or.2 ⟨consistent.requested, consistent.format⟩
  rw [read?, Settings.interpret?_written_all spelt, Settings.foldlM_take? consistent.single,
    Option.bind_some, Settings.invocation?, if_neg]
  · simp [Settings.ofArguments, Settings.format, Options.ofArguments, defaultAmount]
  · simp only [Bool.or_eq_true, Bool.and_eq_true, decide_eq_true_eq]
    simpa only [Settings.ofArguments, decide_eq_true_eq] using permitted

end ChomskyNormal
