import ChomskyNormal.Grammar.Equivalence
import ChomskyNormal.Proofs.Idempotence

/-!
# Fixed points of normalization

Everything that makes a grammar normalized is unaffected by the order of names, rules and
alternatives. The first and the last pass leave a normalized grammar as it is up to this order, the
passes between them literally. Since the result of normalization is normalized, the normalized
grammars are its fixed points, and a second normalization changes nothing.
-/

namespace ChomskyNormal

namespace Grammar

variable {g h : Grammar}

namespace Same

theorem derives_iff (s : g.Same h) {form : List Symbol} {word : List String} :
    g.Derives form word ↔ h.Derives form word :=
  derives_congr fun _ _ => s.mem_alternatives_iff

theorem leads_eq (s : g.Same h) : g.Leads = h.Leads := by
  funext name other
  simp only [Leads, s.mem_alternatives_iff]

theorem reachable_iff (s : g.Same h) {name : String} : g.Reachable name ↔ h.Reachable name := by
  rw [Reachable, Reachable, s.leads_eq, s.start]

theorem productive_iff (s : g.Same h) {name : String} : g.Productive name ↔ h.Productive name := by
  simp only [Productive, s.derives_iff]

theorem uses_iff (s : g.Same h) {terminal : String} : g.Uses terminal ↔ h.Uses terminal := by
  simp only [Uses, s.mem_alternatives_iff]

theorem mem_mentioned_iff (s : g.Same h) {name : String} :
    name ∈ g.mentioned ↔ name ∈ h.mentioned := by
  simp only [mem_mentioned, s.mem_alternatives_iff]

theorem usesDeclared_iff (s : g.Same h) {symbol : Symbol} :
    g.UsesDeclared symbol ↔ h.UsesDeclared symbol := by
  cases symbol with
  | nonterminal name => exact s.mem_nonterminals_iff
  | terminal name => exact s.mem_terminals_iff

theorem wellFormed (s : g.Same h) (wf : g.WellFormed) : h.WellFormed where
  nonterminals_inhabited := wf.nonterminals_inhabited.imp fun _ => s.mem_nonterminals_iff.1
  terminals_inhabited := wf.terminals_inhabited.imp fun _ => s.mem_terminals_iff.1
  disjoint := fun name mem mem' =>
    wf.disjoint name (s.mem_nonterminals_iff.2 mem) (s.mem_terminals_iff.2 mem')
  start_declared := by
    rw [← s.start]
    exact s.mem_nonterminals_iff.1 wf.start_declared
  lefts_declared := fun name mem =>
    s.mem_nonterminals_iff.1 (wf.lefts_declared name (s.mem_keys_iff.2 mem))
  rights_declared := fun name right mem symbol hs =>
    s.usesDeclared_iff.1 (wf.rights_declared name right (s.mem_alternatives_iff.2 mem) symbol hs)

theorem startAlone (s : g.Same h) (alone : g.StartAlone) : h.StartAlone := by
  constructor
  · intro name mem
    rw [← s.start]
    exact alone.1 name (s.mem_nonterminals_iff.2 mem)
  · exact fun name right mem => alone.2 name right (s.mem_alternatives_iff.2 mem)

theorem allUseful (s : g.Same h) (useful : g.AllUseful) : h.AllUseful := by
  intro name mem
  obtain ⟨reachable, productive⟩ := useful name (s.mem_nonterminals_iff.2 mem)
  exact ⟨s.reachable_iff.1 reachable, s.productive_iff.1 productive⟩

theorem terminalsUsed (s : g.Same h) (used : g.TerminalsUsed) : h.TerminalsUsed := by
  apply used.imp
  · exact fun all terminal mem => s.uses_iff.1 (all terminal (s.mem_terminals_iff.2 mem))
  · exact fun none terminal uses => none terminal (s.uses_iff.2 uses)

theorem normalized (s : g.Same h) (n : g.Normalized) : h.Normalized where
  normal := by
    rw [isNormal_iff, ← s.start]
    exact fun name right mem => isNormal_iff.1 n.normal name right (s.mem_alternatives_iff.2 mem)
  empty := by
    rw [← s.start, ← s.mem_alternatives_iff, ← s.mem_mentioned_iff]
    exact n.empty
  useful := n.useful.imp s.allUseful s.startAlone
  used := s.terminalsUsed n.used

end Same

theorem same_eliminateEpsilon (empty : g.EmptyOnlyAtStart) :
    ∃ h, g.eliminateEpsilon = .ok h ∧ h.Same g := by
  refine ⟨_, eliminateEpsilon_of_emptyOnlyAtStart empty,
    .of_mem_iff rfl (fun _ => Iff.rfl) (fun _ => Iff.rfl) ?_ ?_⟩
  · intro name
    rw [thinned, epsilonFreeRules, OrderedMap.keys_mapValues]
  · intro name variant
    rw [mem_alternatives_thinned]
    constructor
    · intro mem
      rcases mem with ⟨_, right, mem, mem'⟩ | ⟨rfl, rfl, nullable, _⟩
      · rw [variants_of_mentioned empty mem, List.mem_singleton] at mem'
        exact mem' ▸ mem
      · exact (mem_nullable_iff_nil_mem empty).1 (of_decide_eq_true nullable)
    · intro mem
      by_cases nil : variant = []
      · subst nil
        have nullable := (mem_nullable_iff_nil_mem empty).2 mem
        have start := (empty name mem).1
        exact .inr ⟨rfl, start, decide_eq_true (start ▸ nullable), mem_keys_of_mem_alternatives mem⟩
      · exact .inl ⟨nil, variant, mem, mem_variants_self _ _⟩

theorem same_binarize (wf : g.WellFormed)
    (short : ∀ name, ∀ right ∈ g.alternatives name, Alternative.Short right)
    (keys : ∀ name ∈ g.nonterminals, name ∈ g.rules.keys) : ∃ h, g.binarize = .ok h ∧ h.Same g := by
  obtain ⟨h, e, _, _, shortened⟩ := exists_binarize wf
  obtain rfl := Except.ok.inj ((binarize_of_short short).symm.trans e)
  refine ⟨_, e, .of_mem_iff (by simp [withoutRules]) (by simp [withoutRules]) (by
    simp [withoutRules]) ?_ ?_⟩
  · intro name
    rw [shortened.keys, nonterminals_addProductions]
    exact ⟨keys name, wf.lefts_declared name⟩
  · intro name right
    rw [mem_alternatives_addProductions, mem_productions]
    exact or_iff_right mem_alternatives_withoutRules

theorem Normalized.short (n : g.Normalized) {name : String} {right : Alternative}
    (mem : right ∈ g.alternatives name) :
    Alternative.Short right := by
  rcases isNormal_iff.1 n.normal name right mem with normal | ⟨rfl, _⟩
  · exact .inr normal
  · exact .inl (by simp)

theorem exists_normalize_same (wf : g.WellFormed) (n : g.Normalized)
    (keys : ∀ name ∈ g.nonterminals, name ∈ g.rules.keys) :
    ∃ c, g.normalize = .ok c ∧ c.Same g := by
  obtain ⟨h, e, same⟩ := same_eliminateEpsilon n.emptyOnlyAtStart
  have wf₁ := same.symm.wellFormed wf
  have n₁ := same.symm.normalized n
  have units : h.eliminateUnits = h :=
    eliminateUnits_eq_self n₁.unitFree fun name mem => (n₁.emptyOnlyAtStart name mem).1
  have useless : h.eliminateUseless = h := eliminateUseless_eq_self wf₁ n₁.useful n₁.used
  obtain ⟨c, e', same'⟩ := same_binarize wf₁ (fun _ _ mem => n₁.short mem) fun name mem =>
    same.mem_keys_iff.2 (keys name (same.mem_nonterminals_iff.1 mem))
  refine ⟨c, ?_, same'.trans same⟩
  rw [normalize_of_eliminateEpsilon wf e, units, useless, e']

theorem normalize_same_iff (valid : g.validate = .ok ()) :
    ((∀ name ∈ g.nonterminals, name ∈ g.rules.keys) →
      ((∃ c, g.normalize = .ok c ∧ c.Same g) ↔ g.Normalized)) ∧
        ∃ c d, g.normalize = .ok c ∧ c.normalize = .ok d ∧ d.Same c := by
  have wf := validate_eq_ok_iff.1 valid
  obtain ⟨c, e, wfc, normalized, keys, _⟩ := exists_normalize wf
  constructor
  · intro entries
    constructor
    · intro ⟨c', e', same⟩
      obtain rfl := Except.ok.inj (e.symm.trans e')
      exact same.normalized normalized
    · exact fun n => exists_normalize_same wf n entries
  · obtain ⟨d, e', same⟩ := exists_normalize_same wfc normalized fun name mem => keys ▸ mem
    exact ⟨c, d, e, e', same⟩

theorem normalize_crowded_same_iff : crowded.validate = .ok () ∧
    (∀ name ∈ crowded.nonterminals, name ∈ crowded.rules.keys) ∧
      ((∃ c, crowded.normalize = .ok c ∧ c.Same crowded) ↔ crowded.Normalized) ∧
        ∃ c d, crowded.normalize = .ok c ∧ c.normalize = .ok d ∧ d.Same c :=
  have entries : ∀ name ∈ crowded.nonterminals.toList, name ∈ crowded.rules.keys := by decide
  have ⟨fixed, twice⟩ := normalize_same_iff validate_crowded
  ⟨validate_crowded, entries, fixed entries, twice⟩

end Grammar

end ChomskyNormal
