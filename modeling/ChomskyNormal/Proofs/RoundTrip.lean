import ChomskyNormal.Proofs.FixedPoints
import ChomskyNormal.Proofs.Printing

/-!
# Writing and reading

A grammar that can be written is read back from its listing in plain text exactly when it is
faithful, that is, when it holds nothing that no text can express. What has been read from a text is
always faithful, so that writing and reading once more gives the same grammar.
-/

namespace ChomskyNormal

namespace Grammar

variable {g h : Grammar}

instance (g : Grammar) : Decidable g.Printable :=
  decidable_of_iff (g.fault? = none ∧ (∀ name ∈ g.nonterminals.toList, name ∈ g.rules.keys) ∧
      (∀ name ∈ g.names, IsName name) ∧
      ∀ production ∈ g.productions, ∀ symbol ∈ production.2, '|' ∉ symbol.name.toList) <| by
    simp only [fault?_eq_none_iff, mem_names, Prod.forall, mem_productions]
    exact ⟨fun ⟨wf, keyed, isName, barFree⟩ => ⟨wf, keyed, isName, barFree⟩,
      fun h => ⟨h.wellFormed, h.keyed, h.isName, h.barFree⟩⟩

instance (g : Grammar) : Decidable g.Faithful :=
  decidable_of_iff
    (((g.rules.entries.find? fun rule => rule.2.toList ≠ []).map Prod.fst = some g.start) ∧
      (∀ name ∈ g.nonterminals.toList, (g.alternatives name).toList ≠ []) ∧
      (∀ terminal ∈ g.terminals.toList, terminal ∈ g.usedTerminals) ∧
      ∀ production ∈ g.productions, ∀ symbol ∈ production.2, production.2 = [symbol] →
        symbol.name ∉ epsilonSpellings) <| by
    simp only [mem_usedTerminals_iff, Prod.forall, mem_productions]
    constructor
    · intro ⟨first, inhabited, used, spelled⟩
      refine ⟨first, fun name mem => ?_, used, fun left symbol mem => ?_⟩
      · exact List.exists_mem_of_ne_nil _ (inhabited name mem)
      · exact spelled left [symbol] mem symbol (List.mem_singleton_self _) rfl
    · intro faithful
      refine ⟨faithful.start_first, fun name mem => ?_, faithful.used,
        fun left right mem symbol _ alone => ?_⟩
      · have ⟨right, hr⟩ := faithful.inhabited name mem
        exact List.ne_nil_of_mem hr
      · exact faithful.spelled left symbol (alone ▸ mem)

theorem head?_written (g : Grammar) : g.written.head?.map Clause.left =
    (g.rules.entries.find? fun rule => rule.2.toList ≠ []).map Prod.fst := by
  rw [written, productions, List.head?_map, Option.map_map]
  induction g.rules.entries with
  | nil => rfl
  | cons rule rules ih =>
    cases e : rule.2.toList with
    | nil => simpa [e] using ih
    | cons right rights => simp [e]

theorem mem_written {clause : Clause} : clause ∈ g.written ↔
    ∃ left, ∃ right ∈ g.alternatives left, ⟨left, [spelling (right.map Symbol.name)]⟩ = clause := by
  simp [written, mem_productions]

theorem mem_leftsOf_written {name : String} :
    name ∈ leftsOf g.written ↔ ∃ right, right ∈ g.alternatives name := by
  rw [mem_leftsOf]
  constructor
  · rintro ⟨clause, mem, e⟩
    have ⟨left, right, hr, e'⟩ := mem_written.1 mem
    subst e' e
    exact ⟨right, hr⟩
  · exact fun ⟨right, hr⟩ => ⟨_, mem_written.2 ⟨name, right, hr, rfl⟩, rfl⟩

theorem readAlternative_spelling {lefts : OrderedSet String} {right : Alternative}
    (kinds : ∀ symbol ∈ right, symbol.name ∈ lefts ↔ symbol.isTerminal = false)
    (spelled : ∀ symbol, right = [symbol] → symbol.name ∉ epsilonSpellings) :
    readAlternative lefts (spelling (right.map Symbol.name)) = right := by
  by_cases nil : right = []
  · subst nil
    rfl
  · have several : ¬ ∃ word ∈ epsilonSpellings, right.map Symbol.name = [word] := by
      rintro ⟨word, spelling, e⟩
      obtain ⟨symbol, alone, named⟩ := List.map_eq_singleton_iff.1 e
      exact spelled symbol alone (named ▸ spelling)
    have spells : spelling (right.map Symbol.name) = right.map Symbol.name :=
      if_neg (by simpa using nil)
    rw [readAlternative, spells, if_neg several, List.map_map]
    refine (List.map_congr_left fun symbol hs => ?_).trans (List.map_id right)
    have kind := kinds symbol hs
    cases symbol with
    | nonterminal name => exact if_pos (kind.2 rfl)
    | terminal name => exact if_neg fun mem => absurd (kind.1 mem) (by simp [Symbol.isTerminal])

theorem leftsOf_written (wf : g.WellFormed) (faithful : g.Faithful) {name : String} :
    name ∈ leftsOf g.written ↔ name ∈ g.nonterminals := by
  rw [mem_leftsOf_written]
  exact ⟨fun ⟨_, mem⟩ => wf.left_declared mem, faithful.inhabited name⟩

theorem mem_productionsOf_written (wf : g.WellFormed) (faithful : g.Faithful) {left : String}
    {right : Alternative} : (left, right) ∈ productionsOf g.written ↔
      right ∈ g.alternatives left := by
  have reread {left : String} {right : Alternative} (mem : right ∈ g.alternatives left) :
      readAlternative (leftsOf g.written) (spelling (right.map Symbol.name)) = right := by
    have kinds : ∀ symbol ∈ right, symbol.name ∈ leftsOf g.written ↔ symbol.isTerminal = false := by
      intro symbol hs
      have declared := wf.rights_declared left right mem symbol hs
      rw [leftsOf_written wf faithful]
      cases symbol with
      | nonterminal name => exact iff_of_true declared rfl
      | terminal name =>
        exact iff_of_false (fun mem => wf.disjoint name mem declared) (by simp [Symbol.isTerminal])
    exact readAlternative_spelling kinds fun symbol alone =>
      faithful.spelled left symbol (alone ▸ mem)
  rw [mem_productionsOf]
  constructor
  · rintro ⟨clause, hc, e, body, hb, e'⟩
    obtain ⟨left', right', mem, rfl⟩ := mem_written.1 hc
    rw [List.mem_singleton.1 hb, reread mem] at e'
    exact e ▸ e' ▸ mem
  · exact fun mem =>
      ⟨_, mem_written.2 ⟨left, right, mem, rfl⟩, rfl, _, List.mem_singleton_self _, reread mem⟩

theorem same_gathered_written (printable : g.Printable) (faithful : g.Faithful) :
    (gathered g.written).Same g := by
  have wf := printable.wellFormed
  have productions {left : String} {right : Alternative} :
      right ∈ (gathered g.written).alternatives left ↔ right ∈ g.alternatives left :=
    mem_alternatives_gathered.trans (mem_productionsOf_written wf faithful)
  refine .of_mem_iff ?_ ?_ ?_ ?_ fun _ _ => productions
  · rw [start_gathered, head?_written, faithful.start_first]
    rfl
  · intro name
    rw [nonterminals_gathered, leftsOf_written wf faithful]
  · intro terminal
    have uses : (gathered g.written).Uses terminal ↔ g.Uses terminal := by
      simp only [Uses, productions]
    rw [mem_terminals_gathered, uses]
    refine ⟨?_, faithful.used terminal⟩
    rintro ⟨left, right, mem, hs⟩
    exact wf.rights_declared left right mem _ hs
  · intro name
    rw [keys_gathered, leftsOf_written wf faithful]
    exact ⟨printable.keyed name, wf.lefts_declared name⟩

theorem exists_parse_plain (printable : g.Printable) (faithful : g.Faithful) :
    ∃ h, parse g.listing.plain = .ok h ∧ h.Same g := by
  have same := same_gathered_written printable faithful
  refine ⟨_, ?_, same⟩
  rw [parse_plain printable]
  exact ofClauses_eq_ok_iff.2 ⟨rfl, same.symm.wellFormed printable.wellFormed⟩

theorem faithful_of_parse_plain (printable : g.Printable) (read : parse g.listing.plain = .ok h)
    (same : h.Same g) :
    g.Faithful := by
  -- `Same` forgets which rule comes first. The listing does not: its first line gave the start
  -- symbol.
  have ⟨_, faithful⟩ := printable_and_faithful_of_parse read
  rw [parse_plain printable] at read
  have ⟨made, wf⟩ := ofClauses_eq_ok_iff.1 read
  refine ⟨?_, fun name mem => ?_, fun terminal mem => ?_, fun left symbol mem => ?_⟩
  · rw [← head?_written, left_head?_of_wellFormed (made ▸ wf), made, same.start]
  · have ⟨right, hr⟩ := faithful.inhabited name (same.mem_nonterminals_iff.2 mem)
    exact ⟨right, same.mem_alternatives_iff.1 hr⟩
  · exact same.uses_iff.1 (faithful.used terminal (same.mem_terminals_iff.2 mem))
  · exact faithful.spelled left symbol (same.mem_alternatives_iff.2 mem)

/-- Reading the listing of a grammar that can be written gives the grammar back, up to order,
exactly when the grammar is faithful; what has been read from any text can be written and is
faithful. -/
theorem parse_plain_round_trip :
    (∀ g : Grammar, g.Printable →
      ((∃ h, parse g.listing.plain = .ok h ∧ h.Same g) ↔ g.Faithful)) ∧
      ∀ (text : String) (g : Grammar), parse text = .ok g →
        g.Printable ∧ g.Faithful ∧ ∃ h, parse g.listing.plain = .ok h ∧ h.Same g := by
  constructor
  · intro g printable
    exact ⟨fun ⟨_, read, same⟩ => faithful_of_parse_plain printable read same,
      exists_parse_plain printable⟩
  · intro text g read
    have ⟨printable, faithful⟩ := printable_and_faithful_of_parse read
    exact ⟨printable, faithful, exists_parse_plain printable faithful⟩

def idle : Grammar :=
  let names := OrderedSet.ofList ["S", "T"]
  addProductions ⟨"S", names, .ofList ["a"], .ofKeys names ∅⟩ [("S", [.terminal "a"])]

def marks : String := "|S -> - ε | >\n- ->"

theorem parse_plain_round_trip_marks :
    idle.Printable ∧ (¬ ∃ h, parse idle.listing.plain = .ok h ∧ h.Same idle) ∧
      ∃ g, parse marks = .ok g ∧ ∃ h, parse g.listing.plain = .ok h ∧ h.Same g := by
  have printable : idle.Printable := by decide
  have unfaithful : ¬ idle.Faithful := by decide
  have ⟨g, read⟩ : ∃ g, parse marks = .ok g := ⟨_, rfl⟩
  refine ⟨printable, fun back => ?_, g, read, (parse_plain_round_trip.2 marks g read).2.2⟩
  exact unfaithful ((parse_plain_round_trip.1 idle printable).1 back)

end Grammar

end ChomskyNormal
