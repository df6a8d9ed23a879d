import ChomskyNormal.Proofs.FixedPoints
import ChomskyNormal.Proofs.Roles
import Mathlib.Data.Set.Function

/-!
# Independence of order

What the passes before binarization give is determined by their input as a set: from grammars that
are the same they make grammars that are the same. Binarization gives names in the order of the
productions. The roles behind the names do not depend on this order, so what it makes of the two
differs by a renaming of the new nonterminals.
-/

namespace ChomskyNormal

theorem variants_congr {nullable nullable' : OrderedSet String}
    (same : ∀ name, name ∈ nullable ↔ name ∈ nullable') (right : Alternative) :
    variants nullable right = variants nullable' right := by
  induction right with
  | nil => rfl
  | cons symbol right ih =>
    cases symbol with
    | terminal name => rw [variants, variants, ih]
    | nonterminal name => simp only [variants, same, ih]

namespace Grammar

variable {g h : Grammar}

namespace Same

theorem declares_iff (s : g.Same h) {name : String} : g.Declares name ↔ h.Declares name :=
  or_congr s.mem_nonterminals_iff s.mem_terminals_iff

theorem primed_eq (s : g.Same h) (name : String) : g.primed name = h.primed name := by
  fun_induction primed g name with
  | case1 name declared ih =>
    rw [ih, primed.eq_def h name, dif_pos (s.declares_iff.1 declared)]
  | case2 name free => rw [primed, dif_neg fun declared => free (s.declares_iff.2 declared)]

theorem mem_nullable_iff (s : g.Same h) {name : String} :
    name ∈ g.nullable ↔ name ∈ h.nullable := by
  rw [Grammar.mem_nullable_iff, Grammar.mem_nullable_iff, s.derives_iff]

theorem thinned (s : g.Same h) (keepsEmpty : Bool) :
    (g.thinned keepsEmpty).Same (h.thinned keepsEmpty) := by
  refine .of_mem_iff s.start (fun _ => s.mem_nonterminals_iff) (fun _ => s.mem_terminals_iff) ?_ ?_
  · intro name
    simp only [Grammar.thinned, epsilonFreeRules, OrderedMap.keys_mapValues, s.mem_keys_iff]
  · intro name variant
    simp only [mem_alternatives_thinned, s.mem_alternatives_iff, s.mem_keys_iff, s.start,
      variants_congr fun _ => s.mem_nullable_iff]

theorem adopt (s : g.Same h) (start : String) : (g.adopt start).Same (h.adopt start) := by
  refine .of_mem_iff rfl (fun name => ?_) (fun _ => s.mem_terminals_iff) (fun name => ?_)
    fun name right => ?_
  · exact OrderedSet.mem_insert.trans
      ((or_congr_left s.mem_nonterminals_iff).trans OrderedSet.mem_insert.symm)
  · simp only [Grammar.adopt, addProduction, declare, OrderedMap.keys_modify,
      OrderedMap.keys_insert, OrderedSet.mem_insert, s.mem_keys_iff]
  · simp only [mem_alternatives_adopt, s.mem_alternatives_iff, s.start]

theorem exists_eliminateEpsilon (s : g.Same h) :
    ∃ g' h', g.eliminateEpsilon = .ok g' ∧ h.eliminateEpsilon = .ok h' ∧ g'.Same h' := by
  have replaced_iff : g.start ∈ g.nullable ∧ g.start ∈ g.mentioned ↔
      h.start ∈ h.nullable ∧ h.start ∈ h.mentioned := by
    rw [s.start, s.mem_nullable_iff, s.mem_mentioned_iff]
  by_cases replaced : g.start ∈ g.nullable ∧ g.start ∈ g.mentioned
  · refine ⟨_, _, eliminateEpsilon_of_replaced replaced,
      eliminateEpsilon_of_replaced (replaced_iff.1 replaced), ?_⟩
    rw [s.primed_eq, s.start]
    exact (s.thinned false).adopt _
  · refine ⟨_, _, eliminateEpsilon_of_kept replaced,
      eliminateEpsilon_of_kept (mt replaced_iff.2 replaced), ?_⟩
    have nullable : decide (g.start ∈ g.nullable) = decide (h.start ∈ h.nullable) := by
      rw [s.start, decide_eq_decide, s.mem_nullable_iff]
    rw [nullable]
    exact s.thinned _

theorem leadsUnit_eq (s : g.Same h) : g.LeadsUnit = h.LeadsUnit := by
  funext name other
  simp only [LeadsUnit, s.mem_alternatives_iff]

theorem eliminateUnits (s : g.Same h) : g.eliminateUnits.Same h.eliminateUnits := by
  refine .of_mem_iff s.start (fun _ => s.mem_nonterminals_iff) (fun _ => s.mem_terminals_iff) ?_ ?_
  · intro name
    simp only [Grammar.eliminateUnits, OrderedMap.keys_mapValues, s.mem_keys_iff]
  · intro name right
    simp only [mem_alternatives_eliminateUnits, UnitChain, s.leadsUnit_eq,
      s.mem_alternatives_iff, s.start]

theorem prune (s : g.Same h) : g.prune.Same h.prune := by
  refine .of_mem_iff s.start (fun _ => s.mem_nonterminals_iff) (fun _ => s.mem_terminals_iff) ?_ ?_
  · intro name
    simp only [Grammar.prune, OrderedMap.keys_mapValues, s.mem_keys_iff]
  · intro name right
    simp only [mem_alternatives_prune, s.mem_alternatives_iff, s.productive_iff]

theorem retainNonterminals (s : g.Same h) {keep keep' : String → Bool}
    (agree : ∀ name, keep name = keep' name) :
    (g.retainNonterminals keep).Same (h.retainNonterminals keep') := by
  have nonterminals : ∀ name, name ∈ (g.retainNonterminals keep).nonterminals ↔
      name ∈ (h.retainNonterminals keep').nonterminals := by
    intro name
    rw [mem_retainNonterminals, mem_retainNonterminals, s.mem_nonterminals_iff, s.start, agree]
  refine .of_mem_iff s.start nonterminals (fun _ => s.mem_terminals_iff) (fun name => ?_)
    fun name right => ?_
  · rw [mem_keys_retainNonterminals, mem_keys_retainNonterminals, nonterminals, s.mem_keys_iff]
  · rw [mem_alternatives_retainNonterminals, mem_alternatives_retainNonterminals, nonterminals,
      s.mem_alternatives_iff]

theorem dropUnproductive (s : g.Same h) : g.dropUnproductive.Same h.dropUnproductive := by
  rw [dropUnproductive_eq, dropUnproductive_eq]
  apply s.prune.retainNonterminals
  intro name
  rw [decide_eq_decide, mem_productive_iff, mem_productive_iff, s.productive_iff]

theorem dropUnreachable (s : g.Same h) : g.dropUnreachable.Same h.dropUnreachable := by
  apply s.retainNonterminals
  intro name
  rw [decide_eq_decide, mem_reachable_iff, mem_reachable_iff, s.reachable_iff]

theorem dropUnusedTerminals (s : g.Same h) : g.dropUnusedTerminals.Same h.dropUnusedTerminals := by
  have terminals : ∀ name, name ∈ g.dropUnusedTerminals.terminals ↔
      name ∈ h.dropUnusedTerminals.terminals := by
    intro name
    simp only [mem_terminals_dropUnusedTerminals, s.mem_terminals_iff, s.uses_iff]
  obtain ⟨_, e, _⟩ := g.dropUnusedTerminals_eq
  obtain ⟨_, e', _⟩ := h.dropUnusedTerminals_eq
  rw [e, e'] at terminals ⊢
  exact .of_mem_iff s.start (fun _ => s.mem_nonterminals_iff) terminals (fun _ => s.mem_keys_iff)
    fun _ _ => s.mem_alternatives_iff

theorem eliminateUseless (s : g.Same h) : g.eliminateUseless.Same h.eliminateUseless :=
  s.dropUnproductive.dropUnreachable.dropUnusedTerminals

theorem mem_productions_iff (s : g.Same h) {production : String × Alternative} :
    production ∈ g.productions ↔ production ∈ h.productions := by
  rw [mem_productions, mem_productions, s.mem_alternatives_iff]

theorem mem_roles_iff (s : g.Same h) {role : Role} : role ∈ g.roles ↔ role ∈ h.roles := by
  simp only [roles, rolesAfter, List.mem_append, List.mem_flatMap, List.mem_map,
    s.mem_productions_iff, OrderedSet.mem_toList, s.mem_nonterminals_iff]

theorem mem_rows_iff (s : g.Same h) {row : Row} : row ∈ g.rows ↔ row ∈ h.rows := by
  simp only [rows, List.mem_flatMap, s.mem_productions_iff]

end Same

end Grammar

def Symbol.rename (f : String → String) : Symbol → Symbol
  | nonterminal name => .nonterminal (f name)
  | terminal name => .terminal name

theorem map_rename_spell {f : String → String} {nameOf nameOf' : Role → String}
    {symbols : List RoleSymbol}
    (translates : ∀ role, .nonterminal role ∈ symbols → f (nameOf role) = nameOf' role) :
    (symbols.map (RoleSymbol.spell nameOf)).map (Symbol.rename f) = symbols.map
      (RoleSymbol.spell nameOf') := by
  rw [List.map_map]
  apply List.map_congr_left
  intro symbol mem
  cases symbol with
  | nonterminal role => exact congrArg Symbol.nonterminal (translates role mem)
  | terminal => rfl

namespace Grammar

variable {g h c d : Grammar}

def rename (g : Grammar) (f : String → String) : Grammar :=
  addProductions ⟨f g.start, .ofList (g.nonterminals.toList.map f), g.terminals,
      .ofKeys (.ofList (g.rules.keys.toList.map f)) ∅⟩
    (g.productions.map fun production => (f production.1, production.2.map (Symbol.rename f)))

theorem mem_rename {f : String → String} {name : String} :
    name ∈ (g.rename f).nonterminals ↔ ∃ old ∈ g.nonterminals, f old = name := by
  rw [rename, nonterminals_addProductions, OrderedSet.mem_ofList, List.mem_map]
  exact Iff.rfl

theorem mem_keys_rename {f : String → String} {name : String} :
    name ∈ (g.rename f).rules.keys ↔ ∃ old ∈ g.rules.keys, f old = name := by
  rw [rename, keys_addProductions, OrderedMap.keys_ofKeys, OrderedSet.mem_ofList, List.mem_map]
  · exact Iff.rfl
  · intro production mem
    obtain ⟨old, old_mem, rfl⟩ := List.mem_map.1 mem
    rw [OrderedMap.keys_ofKeys, OrderedSet.mem_ofList]
    exact List.mem_map_of_mem (mem_keys_of_mem_alternatives (mem_productions.1 old_mem))

theorem mem_alternatives_rename {f : String → String} {name : String} {right : Alternative} :
    right ∈ (g.rename f).alternatives name ↔
      ∃ old, ∃ right' ∈ g.alternatives old, f old = name ∧
        right'.map (Symbol.rename f) = right := by
  rw [rename, mem_alternatives_addProductions, or_iff_right (not_mem_alternatives_of_ofKeys rfl),
    List.mem_map]
  simp only [Prod.exists, Prod.mk.injEq, mem_productions]

/-- Up to order, `h` is `g` under other names, and no two nonterminals get the same name. -/
structure RenamesTo (g : Grammar) (f : String → String) (h : Grammar) : Prop where
  bijective : Set.BijOn f {name | name ∈ g.nonterminals} {name | name ∈ h.nonterminals}
  same : (g.rename f).Same h

namespace Spells

variable {nameOf nameOf' : Role → String} {roles : List Role} {rows : List Row}

theorem bijOn (s : c.Spells nameOf roles rows) :
    Set.BijOn nameOf {role | role ∈ roles} {name | name ∈ c.nonterminals} := by
  refine ⟨fun role mem => (s.nonterminals _).2 ⟨role, mem, rfl⟩, fun role mem role' mem' e => ?_,
    fun name mem => ?_⟩
  · exact s.injective role mem role' mem' e
  · exact (s.nonterminals name).1 mem

theorem exists_translation (s : c.Spells nameOf roles rows) (s' : d.Spells nameOf' roles rows) :
    ∃ f, (∀ role ∈ roles, f (nameOf role) = nameOf' role) ∧
      Set.BijOn f {name | name ∈ c.nonterminals} {name | name ∈ d.nonterminals} := by
  have inverse := s.bijOn.invOn_invFunOn
  refine ⟨nameOf' ∘ Function.invFunOn nameOf {role | role ∈ roles}, fun role mem => ?_, ?_⟩
  · exact congrArg nameOf' (inverse.1 mem)
  · exact s'.bijOn.comp (Set.BijOn.symm inverse.symm s.bijOn)

theorem mem_alternatives_rename_iff (s : c.Spells nameOf roles rows)
    (s' : d.Spells nameOf' roles rows) {f : String → String}
    (translates : ∀ role ∈ roles, f (nameOf role) = nameOf' role) {name : String}
    {right : Alternative} : right ∈ (c.rename f).alternatives name ↔
      right ∈ d.alternatives name := by
  have renamed : ∀ row ∈ rows, f (nameOf row.left) = nameOf' row.left ∧
      (row.right.map (RoleSymbol.spell nameOf)).map (Symbol.rename f) =
        row.right.map (RoleSymbol.spell nameOf') := by
    intro row mem
    obtain ⟨hl, hr⟩ := s.known row mem
    exact ⟨translates _ hl, map_rename_spell fun role hs => translates role (hr role hs)⟩
  rw [mem_alternatives_rename, s'.alternatives]
  constructor
  · intro ⟨old, right', spelled, left, e⟩
    obtain ⟨row, mem, rfl, rfl⟩ := (s.alternatives old right').1 spelled
    exact ⟨row, mem, (renamed row mem).1 ▸ left, (renamed row mem).2 ▸ e⟩
  · intro ⟨row, mem, left, e⟩
    exact ⟨_, _, (s.alternatives _ _).2 ⟨row, mem, rfl, rfl⟩, (renamed row mem).1.trans left,
      (renamed row mem).2.trans e⟩

end Spells

/-- The old names are names of the same roles on both sides, so a translation leaves them as they
are. -/
theorem exists_renamesTo_binarize (wf : g.WellFormed) (s : g.Same h) :
    ∃ c d f, g.binarize = .ok c ∧ h.binarize = .ok d ∧ c.start = g.start ∧
      (∀ name ∈ g.nonterminals, f name = name) ∧ c.RenamesTo f d := by
  have wf' := s.wellFormed wf
  obtain ⟨c, e, conservative, _, shortened⟩ := exists_binarize wf
  obtain ⟨d, e', conservative', _, shortened'⟩ := exists_binarize wf'
  obtain ⟨_, nameOf, made, spells⟩ := exists_spells_binarize wf
  obtain ⟨_, nameOf', made', spells'⟩ := exists_spells_binarize wf'
  obtain rfl := Except.ok.inj (e.symm.trans made)
  obtain rfl := Except.ok.inj (e'.symm.trans made')
  have spells'' : d.Spells nameOf' g.roles g.rows :=
    spells'.of_mem_iff (fun _ => s.mem_roles_iff) fun _ => s.mem_rows_iff
  obtain ⟨f, translates, bijective⟩ := spells.exists_translation spells''
  have fixes : ∀ name ∈ g.nonterminals, f name = name := by
    intro name mem
    have translated := translates (.old name) (old_mem_rolesAfter_iff.2 mem)
    rwa [spells.old, spells''.old] at translated
  have nonterminals : ∀ name, (∃ old ∈ c.nonterminals, f old = name) ↔ name ∈ d.nonterminals :=
    fun name => Set.ext_iff.1 bijective.image_eq name
  refine ⟨c, d, f, e, e', conservative.start, fixes, bijective,
    .of_mem_iff ?_ (fun name => ?_) ?_ (fun name => ?_) ?_⟩
  · rw [rename, start_addProductions, conservative.start, conservative'.start, ← s.start,
      fixes _ wf.start_declared]
  · exact mem_rename.trans (nonterminals name)
  · intro terminal
    rw [rename, terminals_addProductions, conservative.terminals, conservative'.terminals,
      s.mem_terminals_iff]
  · rw [mem_keys_rename, shortened.keys, shortened'.keys, nonterminals]
  · exact fun _ _ => spells.mem_alternatives_rename_iff spells'' translates

theorem same_passes (valid : g.validate = .ok ()) (s : g.Same h) :
    (∃ g' h', g.eliminateEpsilon = .ok g' ∧ h.eliminateEpsilon = .ok h' ∧ g'.Same h') ∧
      g.eliminateUnits.Same h.eliminateUnits ∧ g.eliminateUseless.Same h.eliminateUseless ∧
        ∃ u c d f, [Pass.epsilon, .unit, .useless].foldlM Pass.apply g = .ok u ∧
          g.normalize = .ok c ∧ h.normalize = .ok d ∧ f c.start = c.start ∧
            (∀ name ∈ u.nonterminals, f name = name) ∧ c.RenamesTo f d := by
  refine ⟨s.exists_eliminateEpsilon, s.eliminateUnits, s.eliminateUseless, ?_⟩
  have wf := validate_eq_ok_iff.1 valid
  obtain ⟨g', h', e, e', s'⟩ := s.exists_eliminateEpsilon
  obtain ⟨_, made, wf', _⟩ := exists_eliminateEpsilon wf
  obtain rfl := Except.ok.inj (e.symm.trans made)
  have wfu := wellFormed_eliminateUseless (wellFormed_eliminateUnits wf')
  obtain ⟨c, d, f, result, result', start, fixes, renames⟩ :=
    exists_renamesTo_binarize wfu s'.eliminateUnits.eliminateUseless
  refine ⟨g'.eliminateUnits.eliminateUseless, c, d, f, ?_, ?_, ?_, ?_, fixes, renames⟩
  · simp only [List.foldlM_cons, List.foldlM_nil, Pass.apply, e, bind, Except.bind]
    rfl
  · rw [normalize_of_eliminateEpsilon wf e, result]
  · rw [normalize_of_eliminateEpsilon (s.wellFormed wf) e', result']
  · rw [start]
    exact fixes _ wfu.start_declared

def collisions : List (String × Alternative) :=
  [("S", [.terminal "a", .terminal "a'"]),
    ("S", [.terminal "a'", .terminal "a", .nonterminal "T_a"]), ("T_a", [.terminal "a"])]

def colliding : Grammar := (bare "S" ["S", "T_a"] ["a", "a'"]).addProductions collisions

def collidingReversed : Grammar :=
  (bare "S" ["T_a", "S"] ["a'", "a"]).addProductions collisions.reverse

theorem same_passes_colliding : colliding.validate = .ok () ∧ colliding.Same collidingReversed ∧
    ∃ u c d f, [Pass.epsilon, .unit, .useless].foldlM Pass.apply colliding = .ok u ∧
      colliding.normalize = .ok c ∧ collidingReversed.normalize = .ok d ∧ f c.start = c.start ∧
        (∀ name ∈ u.nonterminals, f name = name) ∧ c.RenamesTo f d :=
  have valid : colliding.validate = .ok () := rfl
  have same : colliding.Same collidingReversed := by decide
  ⟨valid, same, (same_passes valid same).2.2.2⟩

-- The name `T_a` is taken, so the first terminal that needs a wrapper gets the next one, and this
-- is not the same.
example : (colliding.normalize.toOption.map fun c => (c.alternatives "T_a'").toList) =
    some [[.terminal "a"]] := by
  cbv

example : (collidingReversed.normalize.toOption.map fun d => (d.alternatives "T_a'").toList) =
    some [[.terminal "a'"]] := by
  cbv

end Grammar

end ChomskyNormal
