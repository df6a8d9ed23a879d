import ChomskyNormal.Proofs.Reading

/-!
# The line grammar

What a line of a text may be is described by what stands in it: how many arrows, how many words
before an arrow, what comes first. A line fits below other lines if it is blank, a rule, or a
continuation with a rule above it. Lines that fit are gathered, and the first one that does not fit
ends the reading.
-/

namespace ChomskyNormal

def arrowCount (line : List Char) : Nat := line.tails.countP (arrow.isPrefixOf ·)

def BlankLine (line : List Char) : Prop := ∀ c ∈ line, isBlank c

/-- The line has one arrow, with one word before it. -/
structure RuleLine (line : List Char) (left : String) (rights : List Char) : Prop where
  once : arrowCount line = 1
  parts : ∃ before, line = before ++ arrow ++ rights ∧ words before = [left]

/-- The line has no arrow, and a bar stands before everything else in it that is not blank. -/
structure ContinuationLine (line rights : List Char) : Prop where
  free : arrowCount line = 0
  parts : ∃ blanks, line = blanks ++ '|' :: rights ∧ BlankLine blanks

def IsRule (line : List Char) : Prop := ∃ left rights, RuleLine line left rights

def IsContinuation (line : List Char) : Prop := ∃ rights, ContinuationLine line rights

/-- Whether a line has its place below the lines `above`. -/
def Fits (above : List (List Char)) (line : List Char) : Prop :=
  BlankLine line ∨ IsRule line ∨ IsContinuation line ∧ ∃ earlier ∈ above, IsRule earlier

def FitBelow (above ls : List (List Char)) : Prop :=
  ∀ before line after, ls = before ++ line :: after → Fits (above ++ before) line

def Fitting (ls : List (List Char)) : Prop := FitBelow [] ls

/-- What there is to say against a line that does not fit. -/
def LineFault.Describes : LineFault → List Char → Prop
  | tooManyArrows, line => 2 ≤ arrowCount line
  | emptyLeft, line =>
    arrowCount line = 1 ∧ ∃ before rights, line = before ++ arrow ++ rights ∧ words before = []
  | blankInLeft, line =>
    arrowCount line = 1 ∧ ∃ before rights, line = before ++ arrow ++ rights ∧
      2 ≤ (words before).length
  | missingLeft, line => arrowCount line = 0

theorem arrowCount_cons (c : Char) (cs : List Char) :
    arrowCount (c :: cs) = arrowCount cs + if arrow.isPrefixOf (c :: cs) then 1 else 0 := by
  rw [arrowCount, List.tails_cons, List.countP_cons]
  rfl

theorem length_splitArrows (cs : List Char) : (splitArrows cs).length = arrowCount cs + 1 := by
  fun_induction splitArrows cs with
  | case1 => rfl
  | case2 rest ih =>
    have inner : arrowCount ('>' :: rest) = arrowCount rest := arrowCount_cons ..
    rw [List.length_cons, ih, arrowCount_cons, inner]
    rfl
  | case3 c rest no ih =>
    have start : ¬ arrow.isPrefixOf (c :: rest) := by
      rw [List.isPrefixOf_iff_prefix]
      rintro ⟨tail, e⟩
      cases e
      exact no tail rfl rfl
    rw [List.length_modifyHead, ih, arrowCount_cons, if_neg start]

theorem splitArrows_of_arrowCount_eq_zero {line : List Char} (free : arrowCount line = 0) :
    splitArrows line = [line] := by
  have ⟨piece, e⟩ :=
    List.length_eq_one_iff.1 ((length_splitArrows line).trans (congrArg (· + 1) free))
  have same := intercalate_splitArrows line
  rw [e, List.intercalate_singleton] at same
  rw [e, same]

theorem splitArrows_of_arrowCount_eq_one {before after : List Char}
    (once : arrowCount (before ++ arrow ++ after) = 1) :
    splitArrows (before ++ arrow ++ after) = [before, after] := by
  have count := length_splitArrows (before ++ arrow ++ after)
  rw [once, splitArrows_append_arrow, List.length_append, length_splitArrows,
    length_splitArrows] at count
  rw [splitArrows_append_arrow, splitArrows_of_arrowCount_eq_zero (by omega),
    splitArrows_of_arrowCount_eq_zero (by omega)]
  rfl

theorem RuleLine.not_blank {line : List Char} {left : String} {rights : List Char}
    (rule : RuleLine line left rights) :
    ¬ BlankLine line := by
  obtain ⟨before, e, _⟩ := rule.parts
  intro blank
  exact absurd (blank '-' (by simp [e, arrow])) (by decide)

theorem ContinuationLine.not_blank {line rights : List Char}
    (continuation : ContinuationLine line rights) :
    ¬ BlankLine line := by
  obtain ⟨blanks, e, _⟩ := continuation.parts
  intro blank
  exact absurd (blank '|' (by simp [e])) (by decide)

def Line.Describes : Line → List Char → Prop
  | .blank, line => BlankLine line
  | .rule clause, line =>
    ∃ rights, RuleLine line clause.left rights ∧ clause.bodies = readBodies rights
  | .continuation bodies, line =>
    ∃ rights, ContinuationLine line rights ∧ bodies = readBodies rights
  | .faulty fault, line => ¬ BlankLine line ∧ ¬ IsContinuation line ∧ fault.Describes line

theorem all_isBlank_iff {line : List Char} : line.all isBlank ↔ BlankLine line := List.all_eq_true

theorem Line.describes_read (line : List Char) : (Line.read line).Describes line := by
  have count := length_splitArrows line
  have whole := intercalate_splitArrows line
  rw [Line.read]
  split
  · next blank => exact all_isBlank_iff.1 blank
  · next shows =>
    rw [all_isBlank_iff] at shows
    split
    · next text pieces =>
      rw [pieces, List.length_singleton] at count
      rw [pieces, List.intercalate_singleton] at whole
      have free : arrowCount line = 0 := by omega
      subst whole
      split
      · next rest start =>
        refine ⟨rest, ⟨free, text.takeWhile isBlank, ?_,
          fun c mem => List.mem_takeWhile_imp mem⟩, rfl⟩
        rw [← start, List.takeWhile_append_dropWhile]
      · next other =>
        refine ⟨shows, ?_, free⟩
        rintro ⟨rights, _, blanks, e, blank⟩
        refine other rights ?_
        rw [e, List.dropWhile_append_of_pos blank]
        rfl
    · next before after pieces =>
      rw [pieces, List.length_cons, List.length_singleton] at count
      rw [pieces, List.intercalate_cons_cons, List.intercalate_singleton] at whole
      have once : arrowCount line = 1 := by omega
      have joined : ¬ IsContinuation line := by
        rintro ⟨_, free, _⟩
        omega
      split
      · next none => exact ⟨shows, joined, once, before, after, whole.symm, none⟩
      · next left one => exact ⟨after, ⟨once, before, whole.symm, one⟩, rfl⟩
      · next none one =>
        refine ⟨shows, joined, once, before, after, whole.symm, ?_⟩
        rcases e : words before with _ | ⟨left, _ | _⟩
        · exact absurd e none
        · exact absurd e (one left)
        · exact Nat.le_add_left 2 _
    · next one two =>
      have many : 2 ≤ arrowCount line := by
        rcases e : splitArrows line with _ | ⟨text, _ | ⟨after, _ | ⟨_, _⟩⟩⟩
        · exact absurd e (splitArrows_ne_nil line)
        · exact absurd e (one text)
        · exact absurd e (two text after)
        · rw [e] at count
          simp only [List.length_cons] at count
          omega
      refine ⟨shows, ?_, many⟩
      rintro ⟨_, free, _⟩
      omega

theorem Line.read_of_ruleLine {line : List Char} {left : String} {rights : List Char}
    (rule : RuleLine line left rights) : Line.read line = .rule ⟨left, readBodies rights⟩ := by
  obtain ⟨once, before, rfl, one⟩ := rule
  exact Line.read_rule (splitArrows_of_arrowCount_eq_one once) one

theorem Line.read_of_continuationLine {line rights : List Char}
    (continuation : ContinuationLine line rights) :
    Line.read line = .continuation (readBodies rights) := by
  obtain ⟨free, blanks, rfl, blank⟩ := continuation
  refine Line.read_continuation (splitArrows_of_arrowCount_eq_zero free) ?_
  rw [List.dropWhile_append_of_pos blank]
  rfl

theorem LineFault.Describes.arrowCount_eq_zero_iff {fault : LineFault} {line : List Char}
    (describes : fault.Describes line) : arrowCount line = 0 ↔ fault = missingLeft := by
  cases fault with
  | tooManyArrows => exact iff_of_false (fun e => by simp [Describes, e] at describes) (by simp)
  | emptyLeft => exact iff_of_false (fun e => by simp [Describes, e] at describes) (by simp)
  | blankInLeft => exact iff_of_false (fun e => by simp [Describes, e] at describes) (by simp)
  | missingLeft => exact iff_of_true describes rfl

theorem Line.read_of_describes {fault : LineFault} {line : List Char} (shows : ¬ BlankLine line)
    (other : ¬ IsContinuation line) (describes : fault.Describes line) :
    Line.read line = .faulty fault := by
  rw [Line.read, if_neg (mt all_isBlank_iff.1 shows)]
  cases fault with
  | tooManyArrows =>
    have many : 3 ≤ (splitArrows line).length := by
      rw [length_splitArrows]
      exact Nat.succ_le_succ describes
    split
    · next text one => exact absurd many (by simp [one])
    · next before after two => exact absurd many (by simp [two])
    · rfl
  | emptyLeft =>
    obtain ⟨once, before, rights, e, none⟩ := describes
    subst e
    rw [splitArrows_of_arrowCount_eq_one once]
    simp only [none]
  | blankInLeft =>
    obtain ⟨once, before, rights, e, several⟩ := describes
    subst e
    rw [splitArrows_of_arrowCount_eq_one once]
    dsimp only
    split
    · next none => exact absurd several (by simp [none])
    · next left one => exact absurd several (by simp [one])
    · rfl
  | missingLeft =>
    rw [splitArrows_of_arrowCount_eq_zero describes]
    have no_bar : ∀ rest, line.dropWhile isBlank ≠ '|' :: rest := by
      intro rest start
      refine other ⟨rest, describes, line.takeWhile isBlank, ?_,
        fun c mem => List.mem_takeWhile_imp mem⟩
      rw [← start, List.takeWhile_append_dropWhile]
    dsimp only
    split
    · next rest start => exact absurd start (no_bar rest)
    · rfl

theorem Line.read_eq_iff {line : List Char} {kind : Line} :
    Line.read line = kind ↔ kind.Describes line := by
  constructor
  · exact fun e => e ▸ Line.describes_read line
  · intro describes
    cases kind with
    | blank => exact if_pos (all_isBlank_iff.2 describes)
    | rule clause =>
      obtain ⟨rights, rule, e⟩ := describes
      rw [Line.read_of_ruleLine rule, ← e]
    | continuation bodies =>
      obtain ⟨rights, continuation, e⟩ := describes
      rw [Line.read_of_continuationLine continuation, ← e]
    | faulty fault => exact Line.read_of_describes describes.1 describes.2.1 describes.2.2

/-- The left side is known from the first rule on. -/
def Knows (above : List (List Char)) (current : Option String) : Prop :=
  current.isSome ↔ ∃ line ∈ above, IsRule line

theorem knows_nil : Knows [] none := by simp [Knows]

theorem FitBelow.head {above ls : List (List Char)} {line : List Char}
    (fit : FitBelow above (line :: ls)) :
    Fits above line := by
  simpa using fit [] line ls rfl

theorem FitBelow.tail {above ls : List (List Char)} {line : List Char}
    (fit : FitBelow above (line :: ls)) :
    FitBelow (above ++ [line]) ls := by
  intro before later after e
  have fits := fit (line :: before) later after (by rw [e, List.cons_append])
  rwa [List.append_cons] at fits

theorem Knows.rule {above : List (List Char)} {line : List Char} {left : String}
    {rights : List Char} (rule : RuleLine line left rights) : Knows (above ++ [line]) (some left) :=
  iff_of_true rfl ⟨line, by simp, left, rights, rule⟩

theorem Knows.other {above : List (List Char)} {current : Option String}
    (known : Knows above current) {line : List Char} (other : ¬ IsRule line) :
    Knows (above ++ [line]) current := by
  simpa [Knows, or_and_right, exists_or, other] using known

theorem BlankLine.not_isRule {line : List Char} (blank : BlankLine line) : ¬ IsRule line :=
  fun ⟨_, _, rule⟩ => rule.not_blank blank

theorem ContinuationLine.not_isRule {line rights : List Char}
    (continuation : ContinuationLine line rights) :
    ¬ IsRule line := by
  intro ⟨_, _, rule⟩
  have once := rule.once
  rw [continuation.free] at once
  contradiction

theorem map_append_map {ε : Type} (result : Except ε (List Clause)) (first second : List Clause) :
    (result.map (second ++ ·)).map (first ++ ·) = result.map (first ++ second ++ ·) := by
  cases result with
  | error => rfl
  | ok => exact congrArg Except.ok (List.append_assoc ..).symm

theorem exists_clauses_append {above ls : List (List Char)} {current : Option String}
    (known : Knows above current) (fit : FitBelow above ls) (number : Nat) :
    ∃ cs current', Knows (above ++ ls) current' ∧ ∀ later,
        clauses number current (ls.map Line.read ++ later) =
          (clauses (number + ls.length) current' later).map (cs ++ ·) := by
  induction ls generalizing above current number with
  | nil =>
    refine ⟨[], current, by rwa [List.append_nil], fun later => ?_⟩
    change clauses number current later = (clauses number current later).map fun cs => cs
    cases clauses number current later <;> rfl
  | cons line ls ih =>
    have counted : number + (line :: ls).length = number + 1 + ls.length := by
      rw [List.length_cons]
      omega
    rw [List.append_cons, counted]
    rcases fit.head with blank | ⟨left, rights, rule⟩ | ⟨⟨rights, continuation⟩, earlier⟩
    · obtain ⟨cs, current', known', gathered⟩ :=
        ih (known.other blank.not_isRule) fit.tail (number + 1)
      refine ⟨cs, current', known', fun later => ?_⟩
      rw [List.map_cons, List.cons_append,
        Line.read_eq_iff.2 (show Line.blank.Describes line from blank)]
      exact gathered later
    · obtain ⟨cs, current', known', gathered⟩ := ih (Knows.rule rule) fit.tail (number + 1)
      refine ⟨⟨left, readBodies rights⟩ :: cs, current', known', fun later => ?_⟩
      rw [List.map_cons, List.cons_append, Line.read_of_ruleLine rule, clauses_rule, gathered]
      exact map_append_map _ [_] cs
    · obtain ⟨left, rfl⟩ := Option.isSome_iff_exists.1 (known.2 earlier)
      obtain ⟨cs, current', known', gathered⟩ :=
        ih (known.other continuation.not_isRule) fit.tail (number + 1)
      refine ⟨⟨left, readBodies rights⟩ :: cs, current', known', fun later => ?_⟩
      rw [List.map_cons, List.cons_append, Line.read_of_continuationLine continuation,
        clauses_continuation, gathered]
      exact map_append_map _ [_] cs

theorem exists_clauses_of_fitting {ls : List (List Char)} (fitting : Fitting ls) :
    ∃ cs, clauses 1 none (ls.map Line.read) = .ok cs := by
  have ⟨cs, current, _, gathered⟩ := exists_clauses_append knows_nil fitting 1
  have all := gathered []
  rw [List.append_nil] at all
  exact ⟨cs ++ [], all⟩

theorem exists_describes {above : List (List Char)} {line : List Char}
    (misfit : ¬ Fits above line) :
    ∃ fault : LineFault, fault.Describes line := by
  have describes := Line.describes_read line
  generalize Line.read line = kind at describes
  cases kind with
  | blank => exact absurd (.inl describes) misfit
  | rule clause =>
    obtain ⟨rights, rule, _⟩ := describes
    exact absurd (.inr (.inl ⟨clause.left, rights, rule⟩)) misfit
  | continuation bodies =>
    obtain ⟨rights, continuation, _⟩ := describes
    exact ⟨.missingLeft, continuation.free⟩
  | faulty fault => exact ⟨fault, describes.2.2⟩

theorem clauses_of_misfit {before : List (List Char)} (fitting : Fitting before) {line : List Char}
    (misfit : ¬ Fits before line) {fault : LineFault} (describes : fault.Describes line)
    (after : List (List Char)) :
    clauses 1 none ((before ++ line :: after).map Line.read) =
      .error (.badLine (before.length + 1) fault) := by
  have ⟨cs, current, known, gathered⟩ := exists_clauses_append knows_nil fitting 1
  have shows : ¬ BlankLine line := fun blank => misfit (.inl blank)
  rw [List.map_append, List.map_cons, gathered, Nat.add_comm 1]
  by_cases continues : IsContinuation line
  · obtain ⟨rights, continuation⟩ := continues
    have missing := describes.arrowCount_eq_zero_iff.1 continuation.free
    cases current with
    | some left =>
      have earlier := known.1 rfl
      exact absurd (.inr (.inr ⟨⟨rights, continuation⟩, earlier⟩)) misfit
    | none =>
      rw [Line.read_of_continuationLine continuation, missing]
      rfl
  · rw [Line.read_of_describes shows continues describes]
    rfl

theorem fitting_or_exists_misfit (ls : List (List Char)) :
    Fitting ls ∨ ∃ before line after, ls = before ++ line :: after ∧ Fitting before ∧
    ¬ Fits before line := by
  induction ls using List.reverseRecOn with
  | nil => exact .inl fun before line after e => by simp at e
  | append_singleton ls line ih =>
    rcases ih with fitting | ⟨before, line', after, e, found⟩
    · by_cases fits : Fits ls line
      · refine .inl fun before line' after e => ?_
        rcases List.eq_nil_or_concat after with rfl | ⟨after', last, rfl⟩
        · obtain ⟨rfl, same⟩ := List.append_inj' e rfl
          exact List.singleton_inj.1 same ▸ fits
        · rw [List.concat_eq_append, ← List.cons_append, ← List.append_assoc] at e
          exact fitting before line' after' (List.append_inj' e rfl).1
      · exact .inr ⟨ls, line, [], rfl, fitting, fits⟩
    · exact .inr ⟨before, line', after ++ [line], by rw [e, List.append_assoc]; rfl, found⟩

theorem clauses_eq_error_iff {ls : List (List Char)} {e : GrammarError} :
    clauses 1 none (ls.map Line.read) = .error e ↔
      ∃ before line after fault, ls = before ++ line :: after ∧
      Fitting before ∧ ¬ Fits before line ∧ LineFault.Describes fault line ∧
      e = .badLine (before.length + 1) fault := by
  constructor
  · intro failed
    rcases fitting_or_exists_misfit ls with fitting | ⟨before, line, after, rfl, fitting, misfit⟩
    · have ⟨cs, gathered⟩ := exists_clauses_of_fitting fitting
      rw [gathered] at failed
      contradiction
    · have ⟨fault, describes⟩ := exists_describes misfit
      rw [clauses_of_misfit fitting misfit describes] at failed
      exact ⟨before, line, after, fault, rfl, fitting, misfit, describes,
        (Except.error.inj failed).symm⟩
  · rintro ⟨before, line, after, fault, rfl, fitting, misfit, describes, rfl⟩
    exact clauses_of_misfit fitting misfit describes after

theorem exists_clauses_iff_fitting {ls : List (List Char)} :
    (∃ cs, clauses 1 none (ls.map Line.read) = .ok cs) ↔ Fitting ls := by
  refine ⟨fun ⟨cs, gathered⟩ => ?_, exists_clauses_of_fitting⟩
  rcases fitting_or_exists_misfit ls with fitting | ⟨before, line, after, rfl, fitting, misfit⟩
  · exact fitting
  · have ⟨fault, describes⟩ := exists_describes misfit
    rw [clauses_of_misfit fitting misfit describes] at gathered
    contradiction

instance (ls : List (List Char)) : Decidable (Fitting ls) :=
  decidable_of_iff (clauses 1 none (ls.map Line.read)).toOption.isSome <| by
    rw [← exists_clauses_iff_fitting]
    cases clauses 1 none (ls.map Line.read) <;> simp [Except.toOption]

def alternativesIn (left : String) (rights : List Char) : List (String × List String) :=
  (rights.splitOn '|').map fun piece => (left, words piece)

/-- Line after line, the alternatives that stand in the lines. Above the first line there is a rule
for `current`. -/
inductive Presents : Option String → List (List Char) → List (String × List String) → Prop where
  | nil {current : Option String} : Presents current [] []
  | blank {current : Option String} {line : List Char} {later : List (List Char)}
      {entries : List (String × List String)} :
      BlankLine line → Presents current later entries → Presents current (line :: later) entries
  | rule {current : Option String} {line : List Char} {left : String} {rights : List Char}
      {later : List (List Char)} {entries : List (String × List String)} :
      RuleLine line left rights → Presents (some left) later entries →
      Presents current (line :: later) (alternativesIn left rights ++ entries)
  | continuation {line : List Char} {left : String} {rights : List Char} {later : List (List Char)}
      {entries : List (String × List String)} :
      ContinuationLine line rights → Presents (some left) later entries →
      Presents (some left) (line :: later) (alternativesIn left rights ++ entries)

def Clause.entries (clause : Clause) : List (String × List String) :=
  clause.bodies.map fun body => (clause.left, body)

def entriesOf (cs : List Clause) : List (String × List String) := cs.flatMap Clause.entries

theorem alternativesIn_eq (left : String) (rights : List Char) :
    alternativesIn left rights = (readBodies rights).map fun body => (left, body) := by
  rw [alternativesIn, readBodies, List.map_map]
  rfl

theorem entriesOf_cons (left : String) (rights : List Char) (cs : List Clause) :
    entriesOf (⟨left, readBodies rights⟩ :: cs) = alternativesIn left rights ++ entriesOf cs := by
  rw [entriesOf, List.flatMap_cons, Clause.entries, alternativesIn_eq]
  rfl

theorem exists_clauses_of_presents {current : Option String} {ls : List (List Char)}
    {entries : List (String × List String)} (presents : Presents current ls entries)
    (number : Nat) :
    ∃ cs, clauses number current (ls.map Line.read) = .ok cs ∧ entriesOf cs = entries := by
  induction presents generalizing number with
  | nil => exact ⟨[], rfl, rfl⟩
  | @blank _ line _ _ blank _ ih =>
    obtain ⟨cs, gathered, e⟩ := ih (number + 1)
    refine ⟨cs, ?_, e⟩
    rw [List.map_cons, Line.read_eq_iff.2 (show Line.blank.Describes line from blank)]
    exact gathered
  | @rule _ _ left rights _ _ rule _ ih =>
    obtain ⟨cs, gathered, e⟩ := ih (number + 1)
    refine ⟨⟨left, readBodies rights⟩ :: cs, ?_, by rw [entriesOf_cons, e]⟩
    rw [List.map_cons, Line.read_of_ruleLine rule, clauses_rule, gathered]
    rfl
  | @continuation _ left rights _ _ continuation _ ih =>
    obtain ⟨cs, gathered, e⟩ := ih (number + 1)
    refine ⟨⟨left, readBodies rights⟩ :: cs, ?_, by rw [entriesOf_cons, e]⟩
    rw [List.map_cons, Line.read_of_continuationLine continuation, clauses_continuation, gathered]
    rfl

theorem presents_of_clauses {ls : List (List Char)} {number : Nat} {current : Option String}
    {cs : List Clause} (gathered : clauses number current (ls.map Line.read) = .ok cs) :
    Presents current ls (entriesOf cs) := by
  induction ls generalizing number current cs with
  | nil =>
    cases gathered
    exact .nil
  | cons line ls ih =>
    have describes := Line.describes_read line
    rw [List.map_cons] at gathered
    generalize Line.read line = kind at describes gathered
    cases kind with
    | blank => exact .blank describes (ih gathered)
    | rule clause =>
      obtain ⟨left, bodies⟩ := clause
      obtain ⟨rights, rule, rfl⟩ := describes
      rw [clauses_rule] at gathered
      obtain ⟨later, gathered', rfl⟩ := exists_of_map_eq_ok gathered
      rw [entriesOf_cons]
      exact .rule rule (ih gathered')
    | continuation bodies =>
      obtain ⟨rights, continuation, rfl⟩ := describes
      cases current with
      | none => contradiction
      | some left =>
        rw [clauses_continuation] at gathered
        obtain ⟨later, gathered', rfl⟩ := exists_of_map_eq_ok gathered
        rw [entriesOf_cons]
        exact .continuation continuation (ih gathered')
    | faulty => contradiction

theorem Presents.unique {ls : List (List Char)} {entries entries' : List (String × List String)}
    (presents : Presents none ls entries) (presents' : Presents none ls entries') :
    entries = entries' := by
  obtain ⟨cs, gathered, e⟩ := exists_clauses_of_presents presents 1
  obtain ⟨cs', gathered', e'⟩ := exists_clauses_of_presents presents' 1
  have same : cs = cs' := Except.ok.inj (gathered.symm.trans gathered')
  rw [← e, ← e', same]

theorem fitting_iff_presents {ls : List (List Char)} :
    Fitting ls ↔ ∃! entries, Presents none ls entries := by
  rw [← exists_clauses_iff_fitting]
  constructor
  · rintro ⟨cs, gathered⟩
    have presents := presents_of_clauses gathered
    exact ⟨entriesOf cs, presents, fun _ other => other.unique presents⟩
  · rintro ⟨entries, presents, _⟩
    obtain ⟨cs, gathered, _⟩ := exists_clauses_of_presents presents 1
    exact ⟨cs, gathered⟩

theorem alternativesIn_ne_nil (left : String) (rights : List Char) :
    alternativesIn left rights ≠ [] := by
  simp [alternativesIn]

theorem mem_lefts_alternativesIn {name left : String} {rights : List Char} :
    name ∈ (alternativesIn left rights).map Prod.fst ↔ name = left := by
  obtain ⟨piece, pieces, e⟩ := List.exists_cons_of_ne_nil (List.splitOn_ne_nil '|' rights)
  simp [alternativesIn, e, eq_comm]

theorem Presents.eq_nil_iff {current : Option String} {ls : List (List Char)}
    {entries : List (String × List String)} (presents : Presents current ls entries) :
    entries = [] ↔ ∀ line ∈ ls, BlankLine line := by
  induction presents with
  | nil => simp
  | blank blank _ ih => rw [ih, List.forall_mem_cons, and_iff_right blank]
  | rule rule =>
    refine iff_of_false (by simp [alternativesIn_ne_nil]) fun all => ?_
    exact rule.not_blank (all _ List.mem_cons_self)
  | continuation continuation =>
    refine iff_of_false (by simp [alternativesIn_ne_nil]) fun all => ?_
    exact continuation.not_blank (all _ List.mem_cons_self)

def IsLeft (ls : List (List Char)) (name : String) : Prop :=
  ∃ line ∈ ls, ∃ rights, RuleLine line name rights

theorem RuleLine.left_unique {line : List Char} {left left' : String} {rights rights' : List Char}
    (rule : RuleLine line left rights) (rule' : RuleLine line left' rights') : left = left' := by
  have same := (Line.read_of_ruleLine rule).symm.trans (Line.read_of_ruleLine rule')
  simp only [Line.rule.injEq, Clause.mk.injEq] at same
  exact same.1

theorem isLeft_cons_of_rule {line : List Char} {left : String} {rights : List Char}
    (rule : RuleLine line left rights) {later : List (List Char)} {name : String} :
    IsLeft (line :: later) name ↔ name = left ∨ IsLeft later name := by
  rw [IsLeft, List.exists_mem_cons_iff]
  refine or_congr_left ⟨fun ⟨_, rule'⟩ => rule'.left_unique rule, fun e => ⟨rights, e ▸ rule⟩⟩

theorem isLeft_cons_of_not_isRule {line : List Char} (other : ¬ IsRule line)
    {later : List (List Char)} {name : String} :
    IsLeft (line :: later) name ↔ IsLeft later name := by
  rw [IsLeft, List.exists_mem_cons_iff]
  exact or_iff_right fun rule => other ⟨name, rule⟩

theorem Presents.mem_lefts_iff {current : Option String} {ls : List (List Char)}
    {entries : List (String × List String)} (presents : Presents current ls entries)
    {name : String} :
    name ∈ current ∨ name ∈ entries.map Prod.fst ↔ name ∈ current ∨ IsLeft ls name := by
  induction presents with
  | nil => simp [IsLeft]
  | blank blank _ ih => rw [ih, isLeft_cons_of_not_isRule blank.not_isRule]
  | rule rule _ ih =>
    rw [Option.mem_some_iff, eq_comm] at ih
    rw [List.map_append, List.mem_append, mem_lefts_alternativesIn, ih, isLeft_cons_of_rule rule]
  | continuation continuation _ ih =>
    rw [Option.mem_some_iff, eq_comm] at ih ⊢
    rw [List.map_append, List.mem_append, mem_lefts_alternativesIn, ih,
      isLeft_cons_of_not_isRule continuation.not_isRule, ← or_assoc, or_self]

end ChomskyNormal
