import ChomskyNormal.Proofs.Acceptance
import ChomskyNormal.Proofs.Printing

/-!
# Layout

Two texts that present the same alternatives are read alike. In particular each alternative may be
given a line of its own, with its left side and with single spaces.
-/

namespace ChomskyNormal

/-- One line for each alternative. -/
def layout (entries : List (String × List String)) : String :=
  "\n".intercalate (entries.map fun (left, body) => left ++ " -> " ++ " ".intercalate body)

structure LegibleEntry (entry : String × List String) : Prop where
  left : IsName entry.1
  body : LegibleBody entry.2

variable {entries : List (String × List String)}

theorem Presents.legible {ls : List (List Char)} (presents : Presents none ls entries) :
    ∀ entry ∈ entries, LegibleEntry entry := by
  obtain ⟨cs, gathered, rfl⟩ := exists_clauses_of_presents presents 1
  intro entry mem
  obtain ⟨clause, hc, he⟩ := List.mem_flatMap.1 mem
  obtain ⟨body, hb, rfl⟩ := List.mem_map.1 he
  have legible := legible_of_clauses_read gathered clause hc
  exact ⟨legible.left, legible.bodies.legible body hb⟩

theorem toList_layout (entries : List (String × List String)) :
    (layout entries).toList = ['\n'].intercalate
      (entries.map fun (left, body) => writtenLine 0 left body) := by
  have line (entry : String × List String) :
      (entry.1 ++ " -> " ++ " ".intercalate entry.2).toList = writtenLine 0 entry.1 entry.2 := by
    simp [writtenLine, spaced, arrow, String.toList_intercalate]
  rw [layout, String.toList_intercalate, List.map_map]
  congr 1
  exact List.map_congr_left fun entry _ => line entry

theorem lines_layout (legible : ∀ entry ∈ entries, LegibleEntry entry) :
    lines (layout entries).toList = entries.map fun (left, body) => writtenLine 0 left body := by
  rw [toList_layout, lines_intercalate]
  intro line mem
  obtain ⟨entry, he, rfl⟩ := List.mem_map.1 mem
  exact isLine_writtenLine 0 (legible entry he).left (legible entry he).body

theorem exists_ruleLine_writtenLine {left : String} {body : List String}
    (legible : LegibleEntry (left, body)) :
    ∃ rights, RuleLine (writtenLine 0 left body) left rights ∧
      alternativesIn left rights = [(left, body)] := by
  have describes := Line.read_eq_iff.1 (read_writtenLine 0 legible.left legible.body)
  obtain ⟨rights, rule, e⟩ := describes
  refine ⟨rights, rule, ?_⟩
  rw [alternativesIn_eq, ← e]
  rfl

theorem presents_writtenLines (legible : ∀ entry ∈ entries, LegibleEntry entry)
    (current : Option String) :
    Presents current (entries.map fun (left, body) => writtenLine 0 left body) entries := by
  induction entries generalizing current with
  | nil => exact .nil
  | cons entry entries ih =>
    obtain ⟨first, others⟩ := List.forall_mem_cons.1 legible
    obtain ⟨rights, rule, alone⟩ := exists_ruleLine_writtenLine first
    have presents : Presents current _ _ := .rule rule (ih others (some entry.1))
    rwa [alone] at presents

theorem presents_layout (legible : ∀ entry ∈ entries, LegibleEntry entry) :
    Presents none (lines (layout entries).toList) entries := by
  rw [lines_layout legible]
  exact presents_writtenLines legible none

namespace Grammar

theorem parse_congr {text text' : String} (presents : Presents none (lines text.toList) entries)
    (presents' : Presents none (lines text'.toList) entries) : parse text = parse text' := by
  obtain ⟨cs, gathers, e⟩ := exists_clauses_of_presents presents 1
  obtain ⟨cs', gathers', e'⟩ := exists_clauses_of_presents presents' 1
  have same : gathered cs = gathered cs' :=
    gathered_congr (inhabited_of_clauses gathers) (inhabited_of_clauses gathers') (e.trans e'.symm)
  rw [parse_of_clauses gathers, parse_of_clauses gathers', same]

/-- Only the alternatives count, each with its left side and in their order. -/
theorem parse_layout (text : String) (fitting : Fitting (lines text.toList)) :
    (∃! entries, Presents none (lines text.toList) entries) ∧
      ∀ entries, Presents none (lines text.toList) entries →
        parse (layout entries) = parse text := by
  refine ⟨fitting_iff_presents.1 fitting, fun entries presents => ?_⟩
  exact parse_congr (presents_layout presents.legible) presents

def ragged : String := "S ->a\u3000 T |\r\n\n | | a\n|\n-| -> epsilon | S b\nS -> a"

def tidy : String := "S -> a T\nS -> \nS -> \nS -> a\nS -> \n-| -> epsilon\n-| -> S b\nS -> a"

theorem parse_layout_ragged :
    Fitting (lines ragged.toList) ∧ parse tidy = parse ragged ∧ ∃ g, parse ragged = .ok g := by
  have fitting : Fitting (lines ragged.toList) := by decide
  obtain ⟨cs, gathers, written⟩ :
    ∃ cs, clauses 1 none ((lines ragged.toList).map Line.read) = .ok cs ∧
      layout (entriesOf cs) = tidy := ⟨_, rfl, rfl⟩
  have same := (parse_layout ragged fitting).2 _ (presents_of_clauses gathers)
  exact ⟨fitting, written ▸ same, _, rfl⟩

end Grammar

end ChomskyNormal
