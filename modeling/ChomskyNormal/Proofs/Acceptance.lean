import ChomskyNormal.Proofs.LineGrammar

/-!
# Which texts are read, and as what

A text whose lines all fit is read as the grammar of its alternatives, unless there is no rule or no
word that could be a terminal; no other fault is left. Any other text is refused at the first line
that does not fit.
-/

namespace ChomskyNormal

/-- The words of an alternative that are terminals: not a lone epsilon, and no left side. -/
def foreignWords (lefts : OrderedSet String) (body : List String) : List String :=
  if ∃ word ∈ epsilonSpellings, body = [word] then [] else body.filter (· ∉ lefts)

/-- Everything in the grammar comes from the alternatives, in the order of its first occurrence. -/
structure Grammar.ComesFrom (g : Grammar) (entries : List (String × List String)) : Prop where
  start : (entries.head?.map Prod.fst) = some g.start
  nonterminals : g.nonterminals = .ofList (entries.map Prod.fst)
  terminals : g.terminals =
    .ofList (entries.flatMap fun (_, body) => foreignWords g.nonterminals body)
  lefts : g.rules.keys = g.nonterminals
  alternatives : ∀ left, g.alternatives left =
    .ofList ((entries.filter (·.1 = left)).map fun (_, body) => readAlternative g.nonterminals body)

section Clauses

variable {cs ds : List Clause}

theorem insertMany_lefts {clause : Clause} (inhabited : clause.bodies ≠ [])
    (lefts : OrderedSet String) :
    lefts.insertMany (clause.entries.map Prod.fst) = lefts.insert clause.left := by
  obtain ⟨body, bodies, e⟩ := List.exists_cons_of_ne_nil inhabited
  rw [Clause.entries, e, List.map_map, List.map_cons, OrderedSet.insertMany_cons]
  refine OrderedSet.insertMany_of_forall_mem fun name mem => ?_
  obtain ⟨_, _, same⟩ := List.mem_map.1 mem
  exact OrderedSet.mem_insert.2 (.inr same.symm)

theorem inhabited_of_clauses {ls : List (List Char)}
    (gathers : clauses 1 none (ls.map Line.read) = .ok cs) :
    ∀ clause ∈ cs, clause.bodies ≠ [] :=
  fun clause mem => (legible_of_clauses_read gathers clause mem).bodies.ne_nil

theorem entriesOf_eq_nil_iff (inhabited : ∀ clause ∈ cs, clause.bodies ≠ []) :
    entriesOf cs = [] ↔ cs = [] := by
  constructor
  · intro none
    refine List.eq_nil_iff_forall_not_mem.2 fun clause mem => ?_
    exact inhabited clause mem (List.map_eq_nil_iff.1 (List.flatMap_eq_nil_iff.1 none clause mem))
  · rintro rfl
    rfl

theorem leftsOf_eq (inhabited : ∀ clause ∈ cs, clause.bodies ≠ []) :
    leftsOf cs = .ofList ((entriesOf cs).map Prod.fst) := by
  rw [leftsOf, OrderedSet.ofList, OrderedSet.ofList]
  generalize (∅ : OrderedSet String) = lefts
  induction cs generalizing lefts with
  | nil => rfl
  | cons clause cs ih =>
    obtain ⟨first, others⟩ := List.forall_mem_cons.1 inhabited
    rw [entriesOf, List.flatMap_cons, List.map_append, OrderedSet.insertMany_append,
      insertMany_lefts first, List.map_cons, OrderedSet.insertMany_cons, ih others]
    rfl

theorem productionsOf_eq (cs : List Clause) : productionsOf cs =
    (entriesOf cs).map fun (left, body) => (left, readAlternative (leftsOf cs) body) := by
  rw [productionsOf, entriesOf, List.map_flatMap]
  simp only [Clause.entries, List.map_map]
  rfl

theorem gathered_congr (inhabited : ∀ clause ∈ cs, clause.bodies ≠ [])
    (inhabited' : ∀ clause ∈ ds, clause.bodies ≠ []) (same : entriesOf cs = entriesOf ds) :
    Grammar.gathered cs = Grammar.gathered ds := by
  have lefts : leftsOf cs = leftsOf ds := by rw [leftsOf_eq inhabited, leftsOf_eq inhabited', same]
  have productions : productionsOf cs = productionsOf ds := by
    rw [productionsOf_eq, productionsOf_eq, lefts, same]
  rw [Grammar.gathered, lefts, productions]
  rfl

theorem ofClauses_eq (cs : List Clause) :
    Grammar.ofClauses cs = (Grammar.gathered cs).validate.map fun _ => Grammar.gathered cs :=
  Grammar.build_eq ..

theorem filterMap_terminal_readAlternative (lefts : OrderedSet String) (body : List String) :
    (readAlternative lefts body).filterMap Symbol.terminal? = foreignWords lefts body := by
  rw [readAlternative, foreignWords]
  split
  · rfl
  · rw [List.filterMap_map, ← List.filterMap_eq_filter]
    refine List.filterMap_congr fun word _ => ?_
    by_cases mem : word ∈ lefts <;> simp [mem, Symbol.terminal?, Option.guard]

end Clauses

namespace Grammar

variable {cs : List Clause}

theorem terminals_gathered (cs : List Clause) : (gathered cs).terminals =
    .ofList ((entriesOf cs).flatMap fun (_, body) => foreignWords (leftsOf cs) body) := by
  rw [gathered, terminals_addProductions, bare, productionsOf_eq, List.flatMap_map]
  simp only [filterMap_terminal_readAlternative]

theorem alternatives_gathered (cs : List Clause) (left : String) : (gathered cs).alternatives left =
    .ofList (((entriesOf cs).filter (·.1 = left)).map fun (_, body) =>
      readAlternative (leftsOf cs) body) := by
  rw [gathered, alternatives_addProductions, alternatives_of_ofKeys rfl, productionsOf_eq,
    List.filter_map, List.map_map]
  rfl

theorem comesFrom_gathered (inhabited : ∀ clause ∈ cs, clause.bodies ≠ []) (ne : cs ≠ []) :
    (gathered cs).ComesFrom (entriesOf cs) where
  start := by
    have ⟨clause, others, e⟩ := List.exists_cons_of_ne_nil ne
    have ⟨body, bodies, e'⟩ :=
      List.exists_cons_of_ne_nil (inhabited clause (e ▸ List.mem_cons_self))
    rw [start_gathered, e, entriesOf, List.flatMap_cons, Clause.entries, e']
    rfl
  nonterminals := by rw [nonterminals_gathered, leftsOf_eq inhabited]
  terminals := by rw [nonterminals_gathered, terminals_gathered]
  lefts := by rw [keys_gathered, nonterminals_gathered]
  alternatives left := by rw [nonterminals_gathered, alternatives_gathered]

theorem start_mem_gathered (ne : cs ≠ []) : (gathered cs).start ∈ (gathered cs).nonterminals := by
  have ⟨clause, others, e⟩ := List.exists_cons_of_ne_nil ne
  rw [start_gathered, nonterminals_gathered, e]
  exact mem_leftsOf.2 ⟨clause, List.mem_cons_self, rfl⟩

theorem wellFormed_gathered (ne : cs ≠ []) (inhabited : ∃ name, name ∈ (gathered cs).terminals) :
    (gathered cs).WellFormed where
  nonterminals_inhabited := ⟨_, start_mem_gathered ne⟩
  terminals_inhabited := inhabited
  disjoint := by
    intro name mem mem'
    rw [nonterminals_gathered] at mem
    rw [terminals_gathered, OrderedSet.mem_ofList, List.mem_flatMap] at mem'
    obtain ⟨⟨left, body⟩, _, mem'⟩ := mem'
    dsimp only [foreignWords] at mem'
    split at mem'
    · simp at mem'
    · simp [mem] at mem'
  start_declared := start_mem_gathered ne
  lefts_declared name mem := by rwa [nonterminals_gathered, ← keys_gathered]
  rights_declared := by
    intro left right mem symbol hs
    cases symbol with
    | nonterminal name =>
      rw [mem_alternatives_gathered] at mem
      obtain ⟨_, _, _, body, _, rfl⟩ := mem_productionsOf.1 mem
      rw [UsesDeclared, nonterminals_gathered]
      rw [readAlternative] at hs
      split at hs
      · simp at hs
      · obtain ⟨word, _, e⟩ := List.mem_map.1 hs
        split at e
        · next known => cases e; exact known
        · contradiction
    | terminal name => exact mem_terminals_gathered.2 ⟨left, right, mem, hs⟩

theorem validate_of_no_terminals {g : Grammar} (inhabited : ∃ name, name ∈ g.nonterminals)
    (none : ∀ name, name ∉ g.terminals) : g.validate = .error (.malformed .noTerminals) := by
  have ⟨_, mem⟩ := inhabited
  have empty : g.terminals.isEmpty := by
    simpa [OrderedSet.isEmpty] using List.eq_nil_iff_forall_not_mem.2 none
  rw [validate, fault?, isEmpty_false_of_mem mem, empty]
  rfl

end Grammar

/-- The number and the fault of the first line that does not fit. -/
def FirstMisfit (ls : List (List Char)) (number : Nat) (fault : LineFault) : Prop :=
  ∃ before line after, ls = before ++ line :: after ∧ number = before.length + 1 ∧
    Fitting before ∧ ¬ Fits before line ∧ fault.Describes line

def Closed (ls : List (List Char)) (body : List String) : Prop :=
  (∃ word ∈ epsilonSpellings, body = [word]) ∨ ∀ word ∈ body, IsLeft ls word

theorem foreignWords_eq_nil_iff {lefts : OrderedSet String} {body : List String} :
    foreignWords lefts body = [] ↔
      (∃ word ∈ epsilonSpellings, body = [word]) ∨ ∀ word ∈ body, word ∈ lefts := by
  rw [foreignWords]
  split
  · next lone => exact iff_of_true rfl (.inl lone)
  · next other => simp [other]

theorem fitting_iff_forall_not_firstMisfit {ls : List (List Char)} :
    Fitting ls ↔ ∀ number fault, ¬ FirstMisfit ls number fault := by
  constructor
  · rintro fitting number fault ⟨before, line, after, e, _, _, misfit, _⟩
    exact misfit (fitting before line after e)
  · intro none
    rcases fitting_or_exists_misfit ls with fitting | ⟨before, line, after, e, fitting, misfit⟩
    · exact fitting
    · obtain ⟨fault, describes⟩ := exists_describes misfit
      exact absurd ⟨before, line, after, e, rfl, fitting, misfit, describes⟩ (none _ fault)

theorem ofClauses_ne_badLine (cs : List Clause) (number : Nat) (fault : LineFault) :
    Grammar.ofClauses cs ≠ .error (.badLine number fault) := by
  rw [ofClauses_eq, Grammar.validate]
  split <;> simp [Except.map]

namespace Grammar

section Texts

variable {text : String} {cs : List Clause}

theorem parse_of_clauses (gathers : clauses 1 none ((lines text.toList).map Line.read) = .ok cs) :
    parse text = (gathered cs).validate.map fun _ => gathered cs := by
  rw [parse, gathers]
  exact ofClauses_eq cs

theorem parse_eq_badLine_iff {number : Nat} {fault : LineFault} :
    parse text = .error (.badLine number fault) ↔ FirstMisfit (lines text.toList) number fault := by
  have found : clauses 1 none ((lines text.toList).map Line.read) = .error (.badLine number fault) ↔
      FirstMisfit (lines text.toList) number fault := by
    rw [clauses_eq_error_iff, FirstMisfit]
    simp only [GrammarError.badLine.injEq]
    constructor
    · rintro ⟨before, line, after, fault, e, fitting, misfit, describes, rfl, rfl⟩
      exact ⟨before, line, after, e, rfl, fitting, misfit, describes⟩
    · rintro ⟨before, line, after, e, rfl, fitting, misfit, describes⟩
      exact ⟨before, line, after, fault, e, fitting, misfit, describes, rfl, rfl⟩
  rw [← found, parse]
  cases clauses 1 none ((lines text.toList).map Line.read) with
  | error e =>
    change Except.error e = _ ↔ _
    rw [Except.error.injEq, Except.error.injEq]
  | ok cs => exact iff_of_false (ofClauses_ne_badLine cs number fault) (by simp)

theorem mem_leftsOf_iff_isLeft {ls : List (List Char)} (presents : Presents none ls (entriesOf cs))
    (inhabited : ∀ clause ∈ cs, clause.bodies ≠ []) {name : String} :
    name ∈ leftsOf cs ↔ IsLeft ls name := by
  rw [leftsOf_eq inhabited, OrderedSet.mem_ofList]
  simpa using presents.mem_lefts_iff

theorem closed_iff_forall_not_mem_terminals {ls : List (List Char)}
    (presents : Presents none ls (entriesOf cs)) (inhabited : ∀ clause ∈ cs, clause.bodies ≠ []) :
    (∀ entry ∈ entriesOf cs, Closed ls entry.2) ↔ ∀ name, name ∉ (gathered cs).terminals := by
  have closed (body : List String) : Closed ls body ↔ foreignWords (leftsOf cs) body = [] := by
    simp only [Closed, foreignWords_eq_nil_iff, mem_leftsOf_iff_isLeft presents inhabited]
  simp only [closed, terminals_gathered, OrderedSet.mem_ofList, ← List.eq_nil_iff_forall_not_mem,
    List.flatMap_eq_nil_iff]

end Texts

/-- What becomes of lines that fit and present the alternatives in `entries`. -/
structure Verdict (ls : List (List Char)) (entries : List (String × List String))
    (result : Except GrammarError Grammar) : Prop where
  blank : (∀ line ∈ ls, BlankLine line) → result = .error (.malformed .noNonterminals)
  closed : (∃ line ∈ ls, ¬ BlankLine line) → (∀ entry ∈ entries, Closed ls entry.2) →
    result = .error (.malformed .noTerminals)
  accepted : (∃ entry ∈ entries, ¬ Closed ls entry.2) →
    ∃ g, result = .ok g ∧ g.validate = .ok () ∧ (∀ name, name ∈ g.nonterminals ↔ IsLeft ls name) ∧
      g.ComesFrom entries

theorem verdict_of_clauses {text : String} {cs : List Clause}
    (gathers : clauses 1 none ((lines text.toList).map Line.read) = .ok cs) :
    Verdict (lines text.toList) (entriesOf cs) (parse text) := by
  have inhabited := inhabited_of_clauses gathers
  have presents := presents_of_clauses gathers
  have closed := closed_iff_forall_not_mem_terminals presents inhabited
  rw [parse_of_clauses gathers]
  have silent : cs = [] ↔ ∀ line ∈ lines text.toList, BlankLine line :=
    (entriesOf_eq_nil_iff inhabited).symm.trans presents.eq_nil_iff
  constructor
  · intro blank
    rw [silent.2 blank]
    rfl
  · intro shows all
    have ne : cs ≠ [] := fun nil => by
      obtain ⟨line, mem, shown⟩ := shows
      exact shown (silent.1 nil line mem)
    rw [validate_of_no_terminals ⟨_, start_mem_gathered ne⟩ (closed.1 all)]
    rfl
  · intro foreign
    have ne : cs ≠ [] := by
      rintro rfl
      simp [entriesOf] at foreign
    have terminals : ∃ name, name ∈ (gathered cs).terminals := by
      by_contra! none
      obtain ⟨entry, mem, word⟩ := foreign
      exact word (closed.2 none entry mem)
    have valid := validate_eq_ok_iff.2 (wellFormed_gathered ne terminals)
    have lefts (name : String) : name ∈ (gathered cs).nonterminals ↔
        IsLeft (lines text.toList) name := by
      rw [nonterminals_gathered, mem_leftsOf_iff_isLeft presents inhabited]
    exact ⟨gathered cs, by rw [valid]; rfl, valid, lefts, comesFrom_gathered inhabited ne⟩

/-- The reader refuses a text at the first line that does not fit, for nothing else but a missing
kind of symbol, and otherwise returns what the lines present. -/
theorem parse_exact (text : String) :
    (∀ number fault, parse text = .error (.badLine number fault) ↔
      FirstMisfit (lines text.toList) number fault) ∧
    ((∀ number fault, ¬ FirstMisfit (lines text.toList) number fault) ↔
      ∃! entries, Presents none (lines text.toList) entries) ∧
    ∀ entries, Presents none (lines text.toList) entries →
      Verdict (lines text.toList) entries (parse text) := by
  refine ⟨fun number fault => parse_eq_badLine_iff, ?_, fun entries presents => ?_⟩
  · rw [← fitting_iff_presents, fitting_iff_forall_not_firstMisfit]
  · obtain ⟨cs, gathers, rfl⟩ := exists_clauses_of_presents presents 1
    exact verdict_of_clauses gathers

def torn : String := "S -> a\n\nA B -> b"

def scattered : String := "S -> a T\n\n  | ε\nT -> b S"

theorem parse_exact_torn_scattered : FirstMisfit (lines torn.toList) 3 .blankInLeft ∧
    ∃ entries g, Presents none (lines scattered.toList) entries ∧ parse scattered = .ok g ∧
      g.ComesFrom entries := by
  have ⟨g, read⟩ : ∃ g, parse scattered = .ok g := ⟨_, rfl⟩
  obtain ⟨misfits, fits, verdicts⟩ := parse_exact scattered
  obtain ⟨entries, presents, _⟩ := fits.1 fun number fault misfit => by
    have refused := (misfits number fault).2 misfit
    rw [read] at refused
    contradiction
  have verdict := verdicts entries presents
  have shows : ∃ line ∈ lines scattered.toList, ¬ BlankLine line :=
    ⟨_, List.mem_cons_self, fun blank => absurd (blank 'S' List.mem_cons_self) (by decide)⟩
  have foreign : ∃ entry ∈ entries, ¬ Closed (lines scattered.toList) entry.2 := by
    by_contra! closed
    have refused := verdict.closed shows closed
    rw [read] at refused
    contradiction
  obtain ⟨h, made, _, _, origin⟩ := verdict.accepted foreign
  exact ⟨((parse_exact torn).1 3 .blankInLeft).1 rfl, entries, h, presents, made, origin⟩

end Grammar

end ChomskyNormal
