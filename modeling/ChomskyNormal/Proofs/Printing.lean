import ChomskyNormal.Proofs.Reading
import ChomskyNormal.Text.Listing

/-!
# How listings are read

A listing in plain text is a list of lines, one for each alternative. The first line of a rule is
read as a rule, the others are read as continuations, and each gives back the alternative that was
written in it. Hence the reader finds in the listing of a grammar the productions of the grammar,
one clause for each.
-/

namespace ChomskyNormal

theorem ListedRule.plainLines_ne_nil {rule : ListedRule} (inhabited : rule.rights ≠ [])
    (width : Nat) :
    rule.plainLines width ≠ [] := by
  have ⟨right, others, e⟩ := List.exists_cons_of_ne_nil inhabited
  simp [plainLines, e]

theorem Listing.toList_plain (listing : Listing) : listing.plain.toList =
    ['\n'].intercalate
      ((listing.inhabited.flatMap (ListedRule.plainLines listing.width)).map String.toList) := by
  have inhabited : ∀ pieces ∈ listing.inhabited.map fun rule =>
      (rule.plainLines listing.width).map String.toList, pieces ≠ [] := by
    intro pieces mem
    have ⟨rule, hr, e⟩ := List.mem_map.1 mem
    have shown : rule.rights ≠ [] := by simpa using (List.mem_filter.1 hr).2
    subst e
    simpa using rule.plainLines_ne_nil shown listing.width
  rw [plain, String.toList_intercalate, List.map_flatMap, List.flatMap_def,
    ← intercalate_map_intercalate inhabited, List.map_map, List.map_map]
  congr 2
  funext rule
  exact String.toList_intercalate

theorem Listing.flatMap_inhabited {α : Type} {listing : Listing} {f : ListedRule → List α}
    (nothing : ∀ rule : ListedRule, rule.rights = [] → f rule = []) :
    listing.inhabited.flatMap f = listing.rules.flatMap f := by
  rw [inhabited]
  induction listing.rules with
  | nil => rfl
  | cons rule rules ih =>
    by_cases none : rule.rights = []
    · rw [List.filter_cons_of_neg (by simpa using none), List.flatMap_cons, nothing rule none,
        List.nil_append, ih]
    · rw [List.filter_cons_of_pos (by simpa using none), List.flatMap_cons, List.flatMap_cons, ih]

def spelling (right : List String) : List String := if right = [] then [epsilon] else right

theorem toList_plainRight (right : List String) :
    (plainRight right).toList = spaced (spelling right) := by
  rw [plainRight, spelling]
  split
  · rfl
  · exact String.toList_intercalate

theorem toList_alignRight (width : Nat) (s : String) :
    (alignRight width s).toList = List.replicate (width - s.length) ' ' ++ s.toList := by
  rw [alignRight, String.toList_append, String.toList_ofList]

def writtenLine (width : Nat) (left : String) (body : List String) : List Char :=
  List.replicate width ' ' ++ left.toList ++ [' '] ++ arrow ++ ' ' :: spaced body

theorem toList_firstLine (width : Nat) (left : String) (right : List String) :
    (alignRight width left ++ " -> " ++ plainRight right).toList =
      writtenLine (width - left.length) left (spelling right) := by
  simp [toList_alignRight, toList_plainRight, writtenLine, arrow]

theorem toList_laterLine (width : Nat) (right : List String) :
    (alignRight width "" ++ "  | " ++ plainRight right).toList =
      List.replicate width ' ' ++ [' ', ' '] ++ '|' :: ' ' :: spaced (spelling right) := by
  simp [toList_alignRight, toList_plainRight]

theorem IsName.not_mem {name : String} (isName : IsName name) {c : Char} (blank : isBlank c) :
    c ∉ name.toList := by
  intro mem
  rw [isName.isWord.not_blank c mem] at blank
  contradiction

theorem LegibleBody.spelled {right : List String} (legible : LegibleBody right) :
    LegibleBody (spelling right) := by
  rw [spelling]
  split
  · have isName : IsName epsilon := by decide
    exact ⟨by simpa using isName, by decide⟩
  · exact legible

section Text

variable {body : List String}

theorem arrow_infix_blank_cons_iff {cs : List Char} : arrow <:+: ' ' :: cs ↔ arrow <:+: cs := by
  have split : arrow <:+: [] ++ ' ' :: cs ↔ arrow <:+: [] ∨ arrow <:+: cs :=
    infix_append_cons_iff (by decide)
  simpa [arrow] using split

theorem arrow_infix_replicate_append_iff {n : Nat} {cs : List Char} :
    arrow <:+: List.replicate n ' ' ++ cs ↔ arrow <:+: cs := by
  induction n with
  | zero => rfl
  | succ n ih => rw [List.replicate_succ, List.cons_append, arrow_infix_blank_cons_iff, ih]

theorem arrowFree_spaced (isName : ∀ word ∈ body, IsName word) : ¬ arrow <:+: spaced body := by
  induction body with
  | nil => simp [arrow]
  | cons word body ih =>
    obtain ⟨first, others⟩ := List.forall_mem_cons.1 isName
    cases body with
    | nil => simpa using first.arrowFree
    | cons word' body =>
      rw [spaced_cons_cons, infix_append_cons_iff (by decide), not_or]
      exact ⟨first.arrowFree, ih others⟩

theorem readBodies_spaced (legible : LegibleBody body) :
    readBodies (' ' :: spaced body) = [body] := by
  have no_bar : '|' ∉ ' ' :: spaced body := by
    rw [List.mem_cons, not_or]
    exact ⟨by decide, not_mem_spaced (by decide) legible.barFree⟩
  rw [readBodies_of_not_mem no_bar, words_cons_blank (by decide),
    words_spaced fun word hw => (legible.isName word hw).isWord]

end Text

theorem read_writtenLine (width : Nat) {left : String} {body : List String} (isName : IsName left)
    (legible : LegibleBody body) :
    Line.read (writtenLine width left body) = .rule ⟨left, [body]⟩ := by
  have free : ¬ arrow <:+: List.replicate width ' ' ++ left.toList ++ [' '] := by
    rw [List.append_assoc, arrow_infix_replicate_append_iff,
      infix_append_cons_iff (by decide), not_or]
    exact ⟨isName.arrowFree, by simp [arrow]⟩
  have free' : ¬ arrow <:+: ' ' :: spaced body := by
    rw [arrow_infix_blank_cons_iff]
    exact arrowFree_spaced legible.isName
  have one : words (List.replicate width ' ' ++ left.toList ++ [' ']) = [left] := by
    rw [List.append_assoc, words_replicate_append, words_append_blank (by decide),
      words_of_isWord isName.isWord, String.ofList_toList, words_nil, List.append_nil]
  have pieces : splitArrows (writtenLine width left body) =
      [List.replicate width ' ' ++ left.toList ++ [' '], ' ' :: spaced body] := by
    rw [writtenLine, splitArrows_append free, splitArrows_of_free free']
  rw [Line.read_rule pieces one, readBodies_spaced legible]

theorem read_firstLine (width : Nat) {left : String} {right : List String} (isName : IsName left)
    (legible : LegibleBody right) :
    Line.read (alignRight width left ++ " -> " ++ plainRight right).toList =
      .rule ⟨left, [spelling right]⟩ := by
  rw [toList_firstLine, read_writtenLine _ isName legible.spelled]

theorem read_laterLine (width : Nat) {right : List String} (legible : LegibleBody right) :
    Line.read (alignRight width "" ++ "  | " ++ plainRight right).toList =
      .continuation [spelling right] := by
  have free : ¬ arrow <:+: List.replicate width ' ' ++ [' ', ' '] ++ '|' :: ' ' ::
      spaced (spelling right) := by
    rw [infix_append_cons_iff (by decide), arrow_infix_replicate_append_iff,
      arrow_infix_blank_cons_iff, arrow_infix_blank_cons_iff, arrow_infix_blank_cons_iff, not_or]
    exact ⟨by simp [arrow], arrowFree_spaced legible.spelled.isName⟩
  have bar : (List.replicate width ' ' ++ [' ', ' '] ++ '|' :: ' ' ::
      spaced (spelling right)).dropWhile isBlank = '|' :: ' ' :: spaced (spelling right) := by
    rw [List.dropWhile_append_of_pos]
    · rfl
    · intro c mem
      rcases List.mem_append.1 mem with mem | mem
      · exact (List.mem_replicate.1 mem).2 ▸ by decide
      · exact (show c = ' ' by simpa using mem) ▸ by decide
  rw [toList_laterLine, Line.read_continuation (splitArrows_of_free free) bar,
    readBodies_spaced legible.spelled]

structure ListedRule.Legible (rule : ListedRule) : Prop where
  left : IsName rule.left
  rights : ∀ right ∈ rule.rights, LegibleBody right

def ListedRule.written (rule : ListedRule) : List Clause :=
  rule.rights.map fun right => ⟨rule.left, [spelling right]⟩

section Gathering

variable {rest : List Line} {later : List Clause}
  (gathered : ∀ number current, clauses number current rest = .ok later)
include gathered

theorem clauses_laterLines (width : Nat) (left : String) {rights : List (List String)}
    (legible : ∀ right ∈ rights, LegibleBody right) (number : Nat) :
    clauses number (some left)
        (rights.map (fun right =>
          Line.read (alignRight width "" ++ "  | " ++ plainRight right).toList) ++ rest) =
      .ok (rights.map (fun right => ⟨left, [spelling right]⟩) ++ later) := by
  induction rights generalizing number with
  | nil => exact gathered number (some left)
  | cons right rights ih =>
    have ⟨first, others⟩ := List.forall_mem_cons.1 legible
    rw [List.map_cons, List.cons_append, read_laterLine width first,
      clauses_continuation, ih others]
    rfl

theorem clauses_plainLines {rule : ListedRule} (legible : rule.Legible) (width number : Nat)
    (current : Option String) :
    clauses number current
      ((rule.plainLines width).map (fun line => Line.read line.toList) ++ rest) =
      .ok (rule.written ++ later) := by
  have ⟨left, rights⟩ := rule
  cases rights with
  | nil => exact gathered number current
  | cons right rights =>
    have ⟨first, others⟩ := List.forall_mem_cons.1 legible.rights
    have tail := clauses_laterLines gathered width left others (number + 1)
    rw [ListedRule.plainLines, List.map_cons, List.cons_append,
      read_firstLine width legible.left first, clauses_rule, List.map_map, Function.comp_def, tail]
    rfl

end Gathering

theorem clauses_listing {rules : List ListedRule} (legible : ∀ rule ∈ rules, rule.Legible)
    (width number : Nat) (current : Option String) :
    clauses number current
      ((rules.flatMap (ListedRule.plainLines width)).map fun line => Line.read line.toList) =
      .ok (rules.flatMap ListedRule.written) := by
  induction rules generalizing number current with
  | nil => rfl
  | cons rule rules ih =>
    have ⟨first, others⟩ := List.forall_mem_cons.1 legible
    rw [List.flatMap_cons, List.map_append, clauses_plainLines (ih others) first, List.flatMap_cons]

theorem exists_of_mem_plainLines {rule : ListedRule} {width : Nat} {line : String}
    (mem : line ∈ rule.plainLines width) : ∃ right ∈ rule.rights,
      line = alignRight width rule.left ++ " -> " ++ plainRight right ∨
        line = alignRight width "" ++ "  | " ++ plainRight right := by
  rcases rule with ⟨left, _ | ⟨right, others⟩⟩
  · simp [ListedRule.plainLines] at mem
  · rcases List.mem_cons.1 mem with e | mem
    · exact ⟨right, List.mem_cons_self, .inl e⟩
    · have ⟨other, ho, e⟩ := List.mem_map.1 mem
      exact ⟨other, List.mem_cons_of_mem _ ho, .inr e.symm⟩

theorem LegibleBody.not_mem_spaced {body : List String} (legible : LegibleBody body) {c : Char}
    (blank : isBlank c) (ne : c ≠ ' ') : c ∉ spaced body :=
  ChomskyNormal.not_mem_spaced ne fun word mem => (legible.isName word mem).not_mem blank

theorem isLine_writtenLine (width : Nat) {left : String} {body : List String} (isName : IsName left)
    (legible : LegibleBody body) : IsLine (writtenLine width left body) := by
  have feed := legible.not_mem_spaced (show isBlank '\n' by decide) (by decide)
  have carriage := legible.not_mem_spaced (show isBlank '\r' by decide) (by decide)
  have feed' := isName.not_mem (show isBlank '\n' by decide)
  have carriage' := isName.not_mem (show isBlank '\r' by decide)
  exact ⟨by simp [writtenLine, arrow], by simp [writtenLine, arrow, feed, feed'],
    by simp [writtenLine, arrow, carriage, carriage']⟩

theorem isLine_of_mem_plainLines {rule : ListedRule} (legible : rule.Legible) {width : Nat}
    {line : String} (mem : line ∈ rule.plainLines width) : IsLine line.toList := by
  have ⟨right, hr, shape⟩ := exists_of_mem_plainLines mem
  have spelled := (legible.rights right hr).spelled
  rcases shape with e | e
  · rw [e, toList_firstLine]
    exact isLine_writtenLine _ legible.left spelled
  · have feed := spelled.not_mem_spaced (show isBlank '\n' by decide) (by decide)
    have carriage := spelled.not_mem_spaced (show isBlank '\r' by decide) (by decide)
    rw [e, toList_laterLine]
    exact ⟨by simp, by simp [feed], by simp [carriage]⟩

theorem Listing.lines_plain {listing : Listing}
    (legible : ∀ rule ∈ listing.inhabited, rule.Legible) :
    lines listing.plain.toList =
      (listing.inhabited.flatMap (ListedRule.plainLines listing.width)).map String.toList := by
  rw [toList_plain, lines_intercalate]
  intro text mem
  have ⟨line, mem, e⟩ := List.mem_map.1 mem
  have ⟨rule, hr, mem⟩ := List.mem_flatMap.1 mem
  exact e ▸ isLine_of_mem_plainLines (legible rule hr) mem

namespace Grammar

variable {g : Grammar}

def written (g : Grammar) : List Clause :=
  g.productions.map fun (left, right) => ⟨left, [spelling (right.map Symbol.name)]⟩

theorem flatMap_written_inhabited (g : Grammar) :
    g.listing.inhabited.flatMap ListedRule.written = g.written := by
  rw [Listing.flatMap_inhabited fun rule none => by rw [ListedRule.written, none, List.map_nil],
    listing, written, productions, List.flatMap_map, List.map_flatMap]
  simp [ListedRule.written, Function.comp_def]

theorem Printable.legible (printable : g.Printable) :
    ∀ rule ∈ g.listing.inhabited, rule.Legible := by
  intro rule mem
  have ⟨mem, inhabited⟩ := List.mem_filter.1 mem
  have ⟨⟨left, rights⟩, he, e⟩ := List.mem_map.1 mem
  subst e
  have declared := printable.wellFormed.lefts_declared left (List.mem_map.2 ⟨_, he, rfl⟩)
  refine ⟨printable.isName left (.inl declared), fun right hr => ?_⟩
  have ⟨alternative, ha, e⟩ := List.mem_map.1 hr
  subst e
  have alternative_mem : alternative ∈ g.alternatives left :=
    mem_alternatives_iff.2 ⟨rights, he, ha⟩
  constructor
  · intro word hw
    have ⟨symbol, hs, e⟩ := List.mem_map.1 hw
    have used := printable.wellFormed.rights_declared left alternative alternative_mem symbol hs
    cases symbol with
    | nonterminal name => exact e ▸ printable.isName name (.inl used)
    | terminal name => exact e ▸ printable.isName name (.inr used)
  · intro word hw
    have ⟨symbol, hs, e⟩ := List.mem_map.1 hw
    exact e ▸ printable.barFree left alternative alternative_mem symbol hs

theorem parse_plain (printable : g.Printable) : parse g.listing.plain = ofClauses g.written := by
  have gathered : clauses 1 none ((lines g.listing.plain.toList).map Line.read) =
      .ok g.written := by
    rw [Listing.lines_plain printable.legible, List.map_map, ← flatMap_written_inhabited]
    exact clauses_listing printable.legible g.listing.width 1 none
  rw [parse, gathered]
  rfl

end Grammar

end ChomskyNormal
