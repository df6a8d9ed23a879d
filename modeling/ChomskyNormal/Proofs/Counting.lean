import ChomskyNormal.Proofs.Roles
import Mathlib.Data.List.Count
import Mathlib.Data.List.Perm.Basic

/-!
# How much binarization adds

Nothing merges when alternatives are rewritten. If the roles in a row are read as what they
abbreviate, the row says again what its production says, so different productions have different
rows, and different roles have different names anyway. To count nonterminals and productions is
therefore to count roles and rows: both grow by one wrapper for each terminal that needs one and by
the links of the long alternatives, each with one alternative.
-/

namespace ChomskyNormal

theorem length_flatMap_eq_total {α β : Type} (f : α → List β) (xs : List α) :
    (xs.flatMap f).length = total (fun x => (f x).length) xs := by
  induction xs with
  | nil => rfl
  | cons x xs ih => rw [List.flatMap_cons, List.length_append, ih, total]

/-- The terminals that have to be wrapped in an alternative, once for each occurrence. -/
def Alternative.wrapped (right : Alternative) : List String :=
  if 2 ≤ right.length then right.filterMap Symbol.terminal? else []

theorem Alternative.wrapped_of_short {right : Alternative} (short : Alternative.Short right) :
    Alternative.wrapped right = [] := by
  rcases Alternative.short_iff.1 short with few | ⟨first, second, rfl⟩
  · exact if_neg (by omega)
  · rfl

theorem Alternative.wrapped_of_not_short {right : Alternative} (long : ¬ Alternative.Short right) :
    Alternative.wrapped right = right.filterMap Symbol.terminal? := by
  apply if_pos
  by_contra few
  exact long (.inl (by omega))

def Role.form : Role → List Symbol
  | old name => [.nonterminal name]
  | wrapper terminal => [.terminal terminal]
  | link _ _ rest => rest

def RoleSymbol.form : RoleSymbol → List Symbol
  | nonterminal role => role.form
  | terminal name => [.terminal name]

theorem Symbol.form_role (symbol : Symbol) : symbol.role.form = [symbol] := by
  cases symbol <;> rfl

theorem Symbol.form_kept (symbol : Symbol) : symbol.kept.form = [symbol] := by
  cases symbol <;> rfl

theorem flatMap_form_map {f : Symbol → RoleSymbol} (form_eq : ∀ symbol, (f symbol).form = [symbol])
    (symbols : List Symbol) : (symbols.map f).flatMap RoleSymbol.form = symbols := by
  simp only [List.flatMap_map, form_eq, List.flatMap_singleton']

theorem length_le_two_of_forall_ne {symbols : List Symbol}
    (short : ∀ first second third rest, symbols = first :: second :: third :: rest → False) :
    symbols.length ≤ 2 := by
  rcases symbols with _ | ⟨first, _ | ⟨second, _ | ⟨third, rest⟩⟩⟩
  · exact Nat.zero_le 2
  · exact Nat.le_succ 1
  · exact Nat.le_refl 2
  · exact (short first second third rest rfl).elim

namespace Role

theorem length_links (left : String) (right symbols : Alternative) :
    (links left right symbols).length = symbols.length - 2 := by
  fun_induction links left right symbols with
  | case1 first second third rest ih =>
    rw [List.length_cons, ih]
    rfl
  | case2 symbols short => exact (Nat.sub_eq_zero_of_le (length_le_two_of_forall_ne short)).symm

theorem links_eq_nil {left : String} {right symbols : Alternative} (few : symbols.length ≤ 2) :
    links left right symbols = [] := by
  rw [← List.length_eq_zero_iff, length_links, Nat.sub_eq_zero_of_le few]

theorem nodup_links (left : String) (right symbols : Alternative) :
    (links left right symbols).Nodup := by
  fun_induction links left right symbols with
  | case1 first second third rest ih =>
    exact List.nodup_cons.2 ⟨link_not_mem_links left right _, ih⟩
  | case2 => exact List.nodup_nil

theorem ofProduction_eq (production : String × Alternative) : ofProduction production =
    (Alternative.wrapped production.2).map wrapper ++
      links production.1 production.2 production.2 := by
  rw [ofProduction]
  split
  · next short =>
    rw [Alternative.wrapped_of_short short, links_eq_nil short.length_le_two]
    rfl
  · next long => rw [wrappers, Alternative.wrapped_of_not_short long]

end Role

namespace Row

def own (production : String × Alternative) : List Row :=
  if Alternative.Short production.2 then [⟨.old production.1, production.2.map Symbol.kept⟩]
  else chain production.1 production.2 (.old production.1) production.2

theorem ofProduction_eq (production : String × Alternative) :
    ofProduction production = (Alternative.wrapped production.2).map wrapper ++ own production := by
  rw [ofProduction, own]
  split
  · next short =>
    rw [Alternative.wrapped_of_short short]
    rfl
  · next long => rw [wrappers, Alternative.wrapped_of_not_short long]

theorem lefts_chain (left : String) (right : Alternative) (owner : Role) (symbols : List Symbol) :
    (chain left right owner symbols).map Row.left = owner :: Role.links left right symbols := by
  fun_induction chain left right owner symbols with
  | case1 owner first second third rest ih =>
    rw [List.map_cons, ih, Role.links]
  | case2 owner symbols short =>
    rw [Role.links_eq_nil (length_le_two_of_forall_ne short)]
    rfl

theorem lefts_own (production : String × Alternative) : (own production).map Row.left =
    .old production.1 :: Role.links production.1 production.2 production.2 := by
  rw [own]
  split
  · next short =>
    rw [Role.links_eq_nil short.length_le_two]
    rfl
  · rw [lefts_chain]

theorem mem_chain {left : String} {right : Alternative} {owner : Role}
    {symbols : List Symbol} {row : Row} (mem : row ∈ chain left right owner symbols) :
    (row.left = owner ∧ row.right.flatMap RoleSymbol.form = symbols) ∨
    ∃ rest, row.left = .link left right rest := by
  fun_induction chain left right owner symbols with
  | case1 owner first second third rest ih =>
    rcases List.mem_cons.1 mem with rfl | mem
    · refine .inl ⟨rfl, ?_⟩
      -- the link abbreviates what is left behind the first symbol
      change first.role.form ++ (second :: third :: rest ++ []) = first :: second :: third :: rest
      rw [Symbol.form_role, List.append_nil, List.singleton_append]
    · rcases ih mem with ⟨e, _⟩ | later
      · exact .inr ⟨_, e⟩
      · exact .inr later
  | case2 owner symbols =>
    cases List.mem_singleton.1 mem
    have form_eq : ∀ symbol : Symbol, (RoleSymbol.nonterminal symbol.role).form = [symbol] :=
      Symbol.form_role
    exact .inl ⟨rfl, flatMap_form_map form_eq symbols⟩

/-- The production that a row is part of, if it is part of one only. -/
def source? (row : Row) : Option (String × Alternative) :=
  match row.left with
  | .old name => some (name, row.right.flatMap RoleSymbol.form)
  | .wrapper _ => none
  | .link left right _ => some (left, right)

theorem source?_of_mem_own {production : String × Alternative} {row : Row}
    (mem : row ∈ own production) :
    row.source? = some production := by
  have shape : (row.left = .old production.1 ∧ row.right.flatMap RoleSymbol.form = production.2) ∨
      ∃ rest, row.left = .link production.1 production.2 rest := by
    rw [own] at mem
    split at mem
    · cases List.mem_singleton.1 mem
      exact .inl ⟨rfl, flatMap_form_map Symbol.form_kept _⟩
    · exact mem_chain mem
  rcases shape with ⟨left, right⟩ | ⟨rest, left⟩
  · simp only [source?, left, right]
  · simp only [source?, left]

theorem nodup_own (production : String × Alternative) : (own production).Nodup := by
  apply List.Nodup.of_map Row.left
  rw [lefts_own]
  refine List.nodup_cons.2 ⟨fun mem => ?_, Role.nodup_links ..⟩
  obtain ⟨rest, e, _⟩ := Role.exists_of_mem_links mem
  contradiction

end Row

namespace Grammar

theorem size_alternatives (g : Grammar) (name : String) :
    (g.alternatives name).size = (g.productions.map Prod.fst).count name := by
  rw [OrderedSet.size, ← filter_productions, List.length_map,
    ← List.countP_eq_length_filter, List.count, List.countP_map]
  rfl

end Grammar

theorem RoleSymbol.spell_injOn {nameOf : Role → String} {roles : List Role}
    (injective : ∀ role ∈ roles, ∀ role' ∈ roles, nameOf role = nameOf role' → role = role')
    {symbols symbols' : List RoleSymbol}
    (known : ∀ role, .nonterminal role ∈ symbols → role ∈ roles)
    (known' : ∀ role, .nonterminal role ∈ symbols' → role ∈ roles)
    (e : symbols.map (RoleSymbol.spell nameOf) = symbols'.map (RoleSymbol.spell nameOf)) :
    symbols = symbols' := by
  induction symbols generalizing symbols' with
  | nil => exact (List.map_eq_nil_iff.1 e.symm).symm
  | cons symbol symbols ih =>
    obtain ⟨symbol', symbols', rfl, head, tail⟩ := List.map_eq_cons_iff.1 e.symm
    have same : symbol = symbol' := by
      cases symbol with
      | terminal name => cases symbol' with
        | terminal name' => exact congrArg terminal (Symbol.terminal.inj head).symm
        | nonterminal role' => contradiction
      | nonterminal role => cases symbol' with
        | terminal name' => contradiction
        | nonterminal role' =>
          have named := (Symbol.nonterminal.inj head).symm
          exact congrArg nonterminal
            (injective role (known role (.head _)) role' (known' role' (.head _)) named)
    rw [same, ih (fun role mem => known role (.tail _ mem))
      (fun role mem => known' role (.tail _ mem)) tail.symm]

namespace Grammar.Spells

variable {h : Grammar} {nameOf : Role → String} {roles : List Role} {rows : List Row}

theorem perm_nonterminals (s : h.Spells nameOf roles rows) (nodup : roles.Nodup) :
    h.nonterminals.toList.Perm (roles.map nameOf) := by
  refine (List.perm_ext_iff_of_nodup h.nonterminals.nodup (nodup.map_on ?_)).2 fun name => ?_
  · exact fun role mem role' mem' => s.injective role mem role' mem'
  · rw [OrderedSet.mem_toList, s.nonterminals, List.mem_map]

theorem perm_productions (s : h.Spells nameOf roles rows) (nodup : rows.Nodup) : h.productions.Perm
    (rows.map fun row => (nameOf row.left, row.right.map (RoleSymbol.spell nameOf))) := by
  refine (List.perm_ext_iff_of_nodup h.nodup_productions (nodup.map_on ?_)).2
    fun (left, right) => ?_
  · intro row mem row' mem' e
    obtain ⟨el, er⟩ := Prod.mk.inj e
    have left := s.injective _ (s.known row mem).1 _ (s.known row' mem').1 el
    have right := RoleSymbol.spell_injOn s.injective (s.known row mem).2 (s.known row' mem').2 er
    cases row
    cases row'
    congr
  · rw [mem_productions, s.alternatives, List.mem_map]
    simp only [Prod.mk.injEq]

theorem size_alternatives (s : h.Spells nameOf roles rows) (nodup : rows.Nodup) {role : Role}
    (mem : role ∈ roles) :
    (h.alternatives (nameOf role)).size = (rows.map Row.left).count role := by
  rw [Grammar.size_alternatives, ((s.perm_productions nodup).map Prod.fst).count_eq,
    List.map_map, List.count, List.count, List.countP_map, List.countP_map]
  refine List.countP_congr fun row hr => ?_
  simp only [Function.comp, beq_iff_eq]
  exact ⟨s.injective _ (s.known row hr).1 _ mem, congrArg nameOf⟩

end Grammar.Spells

namespace Grammar

variable {g : Grammar}

/-- The terminals that occur in alternatives of two symbols or more. -/
def wrappedTerminals (g : Grammar) : OrderedSet String :=
  .ofList (g.productions.flatMap fun production => Alternative.wrapped production.2)

def addedRoles (g : Grammar) : List Role :=
  g.wrappedTerminals.toList.map Role.wrapper ++
    g.productions.flatMap fun production => Role.links production.1 production.2 production.2

def distinctRows (g : Grammar) : List Row :=
  g.wrappedTerminals.toList.map Row.wrapper ++ g.productions.flatMap Row.own

theorem mem_wrappedTerminals {terminal : String} : terminal ∈ g.wrappedTerminals ↔
    ∃ production ∈ g.productions, terminal ∈ Alternative.wrapped production.2 := by
  rw [wrappedTerminals, OrderedSet.mem_ofList, List.mem_flatMap]

theorem length_addedRoles (g : Grammar) :
    g.addedRoles.length = g.wrappedTerminals.size + g.excess := by
  rw [addedRoles, List.length_append, List.length_map, length_flatMap_eq_total, excess,
    OrderedSet.size]
  simp only [Role.length_links]

theorem mem_wrapped_append_iff {β : Type} {wrap : String → β}
    {rest : String × Alternative → List β} {x : β} :
    x ∈ g.wrappedTerminals.toList.map wrap ++ g.productions.flatMap rest ↔
      x ∈ g.productions.flatMap fun production =>
        (Alternative.wrapped production.2).map wrap ++ rest production := by
  simp only [List.mem_append, List.mem_map, List.mem_flatMap, OrderedSet.mem_toList,
    mem_wrappedTerminals]
  constructor
  · rintro (⟨terminal, ⟨production, mem, wrapped⟩, e⟩ | ⟨production, mem, hx⟩)
    · exact ⟨production, mem, .inl ⟨terminal, wrapped, e⟩⟩
    · exact ⟨production, mem, .inr hx⟩
  · rintro ⟨production, mem, ⟨terminal, wrapped, e⟩ | hx⟩
    · exact .inl ⟨terminal, ⟨production, mem, wrapped⟩, e⟩
    · exact .inr ⟨production, mem, hx⟩

theorem mem_roles_iff {role : Role} :
    role ∈ g.nonterminals.toList.map Role.old ++ g.addedRoles ↔ role ∈ g.roles := by
  rw [roles, rolesAfter, List.mem_append, List.mem_append, or_comm, addedRoles,
    mem_wrapped_append_iff, funext Role.ofProduction_eq]

theorem mem_rows_iff {row : Row} : row ∈ g.distinctRows ↔ row ∈ g.rows := by
  rw [distinctRows, rows, mem_wrapped_append_iff, funext Row.ofProduction_eq]

theorem nodup_flatMap_productions {β : Type} {f : String × Alternative → List β}
    (nodup : ∀ production, (f production).Nodup)
    (source : ∀ production production' x, x ∈ f production → x ∈ f production' →
      production = production') :
    (g.productions.flatMap f).Nodup := by
  refine List.nodup_flatMap.2 ⟨fun production _ => nodup production, g.nodup_productions.imp ?_⟩
  exact fun ne x mem mem' => ne (source _ _ x mem mem')

theorem nodup_addedRoles (g : Grammar) : g.addedRoles.Nodup := by
  refine List.nodup_append.2 ⟨g.wrappedTerminals.nodup.map fun _ _ => Role.wrapper.inj, ?_, ?_⟩
  · refine nodup_flatMap_productions (fun _ => Role.nodup_links ..)
      fun production production' role mem mem' => ?_
    obtain ⟨_, e, _⟩ := Role.exists_of_mem_links mem
    obtain ⟨_, e', _⟩ := Role.exists_of_mem_links mem'
    rw [e, Role.link.injEq] at e'
    exact Prod.ext e'.1 e'.2.1
  · intro role mem role' mem' e
    obtain ⟨terminal, _, rfl⟩ := List.mem_map.1 mem
    obtain ⟨_, _, mem'⟩ := List.mem_flatMap.1 mem'
    obtain ⟨_, e', _⟩ := Role.exists_of_mem_links mem'
    rw [e'] at e
    contradiction

theorem nodup_distinctRows (g : Grammar) : g.distinctRows.Nodup := by
  refine List.nodup_append.2 ⟨g.wrappedTerminals.nodup.map ?_, ?_, ?_⟩
  · exact fun _ _ e => Role.wrapper.inj (Row.mk.inj e).1
  · refine nodup_flatMap_productions Row.nodup_own fun production production' row mem mem' => ?_
    exact Option.some.inj ((Row.source?_of_mem_own mem).symm.trans (Row.source?_of_mem_own mem'))
  · intro row mem row' mem' e
    obtain ⟨terminal, _, rfl⟩ := List.mem_map.1 mem
    obtain ⟨_, _, mem'⟩ := List.mem_flatMap.1 mem'
    have source := Row.source?_of_mem_own mem'
    rw [← e] at source
    contradiction

theorem perm_lefts (g : Grammar) : (g.distinctRows.map Row.left).Perm
    (g.productions.map (fun production => Role.old production.1) ++ g.addedRoles) := by
  have wrappers : (g.wrappedTerminals.toList.map Row.wrapper).map Row.left =
      g.wrappedTerminals.toList.map Role.wrapper := List.map_map
  have own : (g.productions.flatMap Row.own).map Row.left = g.productions.flatMap fun production =>
      Role.old production.1 :: Role.links production.1 production.2 production.2 := by
    simp only [List.map_flatMap, Row.lefts_own]
  rw [distinctRows, List.map_append, wrappers, own, addedRoles, ← List.append_assoc]
  refine ((List.map_append_flatMap_perm ..).symm.append_left _).trans ?_
  rw [← List.append_assoc]
  exact List.perm_append_comm.append_right _

theorem old_not_mem_addedRoles (g : Grammar) (name : String) : .old name ∉ g.addedRoles := by
  intro mem
  rcases List.mem_append.1 mem with mem | mem
  · obtain ⟨_, _, e⟩ := List.mem_map.1 mem
    contradiction
  · obtain ⟨_, _, mem⟩ := List.mem_flatMap.1 mem
    obtain ⟨_, e, _⟩ := Role.exists_of_mem_links mem
    contradiction

theorem count_lefts_of_added {role : Role} (mem : role ∈ g.addedRoles) :
    (g.distinctRows.map Row.left).count role = 1 := by
  have new : role ∉ g.productions.map fun production => Role.old production.1 := by
    intro old
    obtain ⟨production, _, rfl⟩ := List.mem_map.1 old
    exact g.old_not_mem_addedRoles _ mem
  rw [g.perm_lefts.count_eq, List.count_append, List.count_eq_zero.2 new,
    List.count_eq_one_of_mem g.nodup_addedRoles mem]

theorem count_lefts_old (g : Grammar) (name : String) :
    (g.distinctRows.map Row.left).count (.old name) = (g.alternatives name).size := by
  have old : (g.productions.map fun production => Role.old production.1).count (.old name) =
      (g.productions.map Prod.fst).count name := by
    rw [← List.count_map_of_injective _ _ fun _ _ => Role.old.inj, List.map_map]
    rfl
  rw [g.perm_lefts.count_eq, List.count_append,
    List.count_eq_zero.2 (g.old_not_mem_addedRoles name), old, Nat.add_zero, size_alternatives]

theorem length_distinctRows (g : Grammar) :
    g.distinctRows.length = g.productionCount + (g.wrappedTerminals.size + g.excess) := by
  rw [← List.length_map (f := Row.left), g.perm_lefts.length_eq, List.length_append,
    List.length_map, length_addedRoles, productionCount]

theorem nodup_distinctRoles (g : Grammar) :
    (g.nonterminals.toList.map Role.old ++ g.addedRoles).Nodup := by
  refine List.nodup_append.2
    ⟨g.nonterminals.nodup.map fun _ _ => Role.old.inj, g.nodup_addedRoles, ?_⟩
  intro role old role' added e
  obtain ⟨name, _, rfl⟩ := List.mem_map.1 old
  exact g.old_not_mem_addedRoles name (e ▸ added)

/-- The names in `links production` are those of the nonterminals that the alternative needs for its
chain. -/
theorem exists_counted_binarize (valid : g.validate = .ok ()) :
    ∃ h, ∃ wrapper : String → String, ∃ links : String × Alternative → List String,
      g.binarize = .ok h ∧
      h.nonterminals.size = g.nonterminals.size + (g.wrappedTerminals.size + g.excess) ∧
      h.productionCount = g.productionCount + (g.wrappedTerminals.size + g.excess) ∧
      h.nonterminals.toList.Perm (g.nonterminals.toList ++ (g.wrappedTerminals.toList.map wrapper ++
        g.productions.flatMap links)) ∧
      (∀ terminal ∈ g.wrappedTerminals,
        (h.alternatives (wrapper terminal)).toList = [[.terminal terminal]]) ∧
      (∀ production ∈ g.productions, (links production).length = production.2.length - 2 ∧
        ∀ name ∈ links production, (h.alternatives name).size = 1) ∧
      ∀ name ∈ g.nonterminals, (h.alternatives name).size = (g.alternatives name).size := by
  obtain ⟨h, nameOf, e, spells⟩ := exists_spells_binarize (validate_eq_ok_iff.1 valid)
  -- with each role and row listed once, the lists are permutations of what the grammar has
  have s := spells.of_mem_iff (fun _ => mem_roles_iff) (fun _ => mem_rows_iff)
  have added : ∀ role ∈ g.addedRoles, (h.alternatives (nameOf role)).size = 1 := by
    intro role mem
    rw [s.size_alternatives g.nodup_distinctRows (List.mem_append_right _ mem),
      count_lefts_of_added mem]
  have names := s.perm_nonterminals g.nodup_distinctRoles
  refine ⟨h, fun terminal => nameOf (.wrapper terminal),
    fun production => (Role.links production.1 production.2 production.2).map nameOf, e, ?_, ?_,
      ?_, ?_, ?_, ?_⟩
  · rw [OrderedSet.size, names.length_eq, List.length_map, List.length_append, List.length_map,
      length_addedRoles]
    rfl
  · rw [productionCount, (s.perm_productions g.nodup_distinctRows).length_eq, List.length_map,
      length_distinctRows]
  · rw [List.map_append, addedRoles, List.map_append, List.map_map, List.map_map,
      List.map_flatMap] at names
    rw [List.map_id'' (f := nameOf ∘ Role.old) s.old] at names
    exact names
  · intro terminal mem
    have added_wrapper : Role.wrapper terminal ∈ g.addedRoles :=
      List.mem_append_left _ (List.mem_map_of_mem mem)
    have row : Row.wrapper terminal ∈ g.distinctRows :=
      List.mem_append_left _ (List.mem_map_of_mem mem)
    have alternative :=
      (s.alternatives (nameOf (.wrapper terminal)) [.terminal terminal]).2 ⟨_, row, rfl, rfl⟩
    obtain ⟨right, only⟩ := List.length_eq_one_iff.1 (added _ added_wrapper)
    rw [← OrderedSet.mem_toList, only, List.mem_singleton] at alternative
    rw [only, alternative]
  · refine fun production mem => ⟨?_, ?_⟩
    · rw [List.length_map, Role.length_links]
    · intro name hn
      obtain ⟨role, hr, rfl⟩ := List.mem_map.1 hn
      exact added role (List.mem_append_right _ (List.mem_flatMap.2 ⟨production, mem, hr⟩))
  · intro name mem
    rw [← s.old name, s.size_alternatives g.nodup_distinctRows, count_lefts_old, s.old]
    exact List.mem_append_left _ (List.mem_map_of_mem mem)

theorem exists_counted_binarize_prepared : prepared.validate = .ok () ∧
    ∃ h, prepared.binarize = .ok h ∧ h.nonterminals.size = 3 + (2 + 2) ∧
      h.productionCount = 5 + (2 + 2) ∧
      ∀ name ∈ prepared.nonterminals,
        (h.alternatives name).size = (prepared.alternatives name).size := by
  have valid : prepared.validate = .ok () := rfl
  obtain ⟨h, _, _, e, nonterminals, productions, _, _, _, kept⟩ := exists_counted_binarize valid
  exact ⟨valid, h, e, nonterminals.trans (by decide), productions.trans (by decide), kept⟩

end Grammar

end ChomskyNormal
