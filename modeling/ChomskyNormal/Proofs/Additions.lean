import ChomskyNormal.Grammar.Validity

/-!
# Adding nonterminals and productions

What a grammar holds after a nonterminal has been declared, after a production has been added and
after a list of productions has been added, and when it is still well formed then.
-/

namespace ChomskyNormal

namespace Grammar

variable {g : Grammar}

def declare (g : Grammar) (name : String) : Grammar :=
  { g with nonterminals := g.nonterminals.insert name, rules := g.rules.insert name ∅ }

theorem mem_alternatives_declare {name other : String} {right : Alternative} :
    right ∈ (g.declare name).alternatives other ↔ other ≠ name ∧ right ∈ g.alternatives other := by
  simp only [alternatives, declare, OrderedMap.get?_insert]
  split
  · next h => simp [h]
  · next h => simp [h]

theorem wellFormed_declare (wf : g.WellFormed) {name : String} (fresh : name ∉ g.terminals) :
    (g.declare name).WellFormed where
  nonterminals_inhabited := ⟨name, OrderedSet.mem_insert.2 (.inr rfl)⟩
  terminals_inhabited := wf.terminals_inhabited
  disjoint := by
    intro other mem
    rcases OrderedSet.mem_insert.1 mem with mem | rfl
    · exact wf.disjoint other mem
    · exact fresh
  start_declared := OrderedSet.mem_insert.2 (.inl wf.start_declared)
  lefts_declared := by
    intro other mem
    rw [declare, OrderedMap.keys_insert, OrderedSet.mem_insert] at mem
    exact OrderedSet.mem_insert.2 (mem.imp (wf.lefts_declared other) id)
  rights_declared := by
    intro other right mem symbol hs
    have := wf.rights_declared other right (mem_alternatives_declare.1 mem).2 symbol hs
    cases symbol with
    | terminal => exact this
    | nonterminal => exact OrderedSet.mem_insert.2 (.inl this)

theorem mem_alternatives_addProduction {left name : String} {right right' : Alternative} :
    right' ∈ (g.addProduction left right).alternatives name ↔
      right' ∈ g.alternatives name ∨ (name, right') = (left, right) := by
  rw [alternatives_addProduction]
  split
  · next h => simp [h]
  · next h => simp [h]

theorem wellFormed_addProduction_iff {left : String} {right : Alternative} :
    (g.addProduction left right).WellFormed ↔
      g.WellFormed ∧ left ∈ g.nonterminals ∧ ∀ symbol ∈ right, g.UsesDeclared symbol := by
  have keys (name : String) :
      name ∈ (g.addProduction left right).rules.keys ↔ name ∈ g.rules.keys ∨ name = left := by
    simp [addProduction]
  constructor
  · intro wf
    refine ⟨⟨wf.nonterminals_inhabited, wf.terminals_inhabited, wf.disjoint, wf.start_declared,
      ?_, ?_⟩, ?_, ?_⟩
    · exact fun name mem => wf.lefts_declared name ((keys name).2 (.inl mem))
    · exact fun name right mem =>
        wf.rights_declared name right (mem_alternatives_addProduction.2 (.inl mem))
    · exact wf.lefts_declared left ((keys left).2 (.inr rfl))
    · exact wf.rights_declared left right (mem_alternatives_addProduction.2 (.inr rfl))
  · intro found
    obtain ⟨wf, hl, hr⟩ := found
    refine ⟨wf.nonterminals_inhabited, wf.terminals_inhabited, wf.disjoint,
      wf.start_declared, ?_, ?_⟩
    · intro name mem
      rcases (keys name).1 mem with mem | rfl
      · exact wf.lefts_declared name mem
      · exact hl
    · intro name right' mem
      rcases mem_alternatives_addProduction.1 mem with mem | e
      · exact wf.rights_declared name right' mem
      · cases e
        exact hr

def addProductions (g : Grammar) (productions : List (String × Alternative)) : Grammar :=
  productions.foldl (fun g (left, right) => g.addProduction left right) g

@[simp] theorem addProductions_nil (g : Grammar) : g.addProductions [] = g := rfl

@[simp] theorem addProductions_cons (g : Grammar) (left : String) (right : Alternative)
    (productions : List (String × Alternative)) :
    g.addProductions ((left, right) :: productions) =
      (g.addProduction left right).addProductions productions :=
  rfl

theorem alternatives_addProductions (g : Grammar) (productions : List (String × Alternative))
    (name : String) :
    (g.addProductions productions).alternatives name =
      (g.alternatives name).insertMany ((productions.filter (·.1 = name)).map Prod.snd) := by
  induction productions generalizing g with
  | nil => rfl
  | cons production productions ih =>
    rw [addProductions_cons, ih, alternatives_addProduction]
    by_cases same : production.1 = name
    · rw [if_pos same.symm, List.filter_cons_of_pos (by simpa using same), List.map_cons,
        OrderedSet.insertMany_cons, same]
    · rw [if_neg (Ne.symm same), List.filter_cons_of_neg (by simpa using same)]

theorem flatMap_eq_lookup {rules : List (String × OrderedSet Alternative)}
    (nodup : (rules.map Prod.fst).Nodup) (name : String) :
    (rules.flatMap fun rule => if rule.1 = name then rule.2.toList else []) =
        ((rules.lookup name).getD ∅).toList := by
  induction rules with
  | nil => rfl
  | cons rule rules ih =>
    obtain ⟨left, rights⟩ := rule
    have ⟨new, nodup⟩ := List.nodup_cons.1 nodup
    by_cases same : left = name
    · have others : ∀ other ∈ rules, (if other.1 = name then other.2.toList else []) = [] :=
        fun other mem => if_neg fun same' =>
          new (List.mem_map.2 ⟨other, mem, same'.trans same.symm⟩)
      rw [List.flatMap_cons, if_pos same, List.flatMap_eq_nil_iff.2 others, List.append_nil]
      simp [same]
    · rw [List.flatMap_cons, if_neg same, List.nil_append, ih nodup]
      simp [List.lookup_cons, beq_false_of_ne (Ne.symm same)]

theorem filter_productions (g : Grammar) (name : String) :
    (g.productions.filter (·.1 = name)).map Prod.snd = (g.alternatives name).toList := by
  rw [alternatives, OrderedMap.get?, ← flatMap_eq_lookup g.rules.nodup_keys, productions,
    List.filter_flatMap, List.map_flatMap]
  congr 1
  funext rule
  rw [List.filter_map, List.map_map]
  by_cases same : rule.1 = name
  · simp [Function.comp_def, same]
  · simp [Function.comp_def, same]

theorem mem_alternatives_addProductions {productions : List (String × Alternative)} {name : String}
    {right : Alternative} : right ∈ (g.addProductions productions).alternatives name ↔
      right ∈ g.alternatives name ∨ (name, right) ∈ productions := by
  rw [alternatives_addProductions, OrderedSet.mem_insertMany]
  simp

theorem addProductions_frame (g : Grammar) (productions : List (String × Alternative)) :
    (g.addProductions productions).start = g.start ∧
      (g.addProductions productions).nonterminals = g.nonterminals ∧
      (g.addProductions productions).terminals = g.terminals := by
  induction productions generalizing g with
  | nil => exact ⟨rfl, rfl, rfl⟩
  | cons production productions ih => exact ih (g.addProduction production.1 production.2)

@[simp] theorem start_addProductions (g : Grammar) (productions : List (String × Alternative)) :
    (g.addProductions productions).start = g.start := (g.addProductions_frame productions).1

@[simp] theorem nonterminals_addProductions (g : Grammar)
    (productions : List (String × Alternative)) :
    (g.addProductions productions).nonterminals = g.nonterminals :=
  (g.addProductions_frame productions).2.1

@[simp] theorem terminals_addProductions (g : Grammar) (productions : List (String × Alternative)) :
    (g.addProductions productions).terminals = g.terminals :=
  (g.addProductions_frame productions).2.2

theorem wellFormed_addProductions_iff {productions : List (String × Alternative)} :
    (g.addProductions productions).WellFormed ↔ g.WellFormed ∧ ∀ production ∈ productions,
      production.1 ∈ g.nonterminals ∧ ∀ symbol ∈ production.2, g.UsesDeclared symbol := by
  induction productions generalizing g with
  | nil => simp
  | cons production productions ih =>
    rw [addProductions_cons, ih, wellFormed_addProduction_iff, List.forall_mem_cons, and_assoc]
    exact Iff.rfl

theorem keys_addProductions {productions : List (String × Alternative)}
    (known : ∀ production ∈ productions, production.1 ∈ g.rules.keys) :
    (g.addProductions productions).rules.keys = g.rules.keys := by
  induction productions generalizing g with
  | nil => rfl
  | cons production productions ih =>
    have ⟨first, others⟩ := List.forall_mem_cons.1 known
    have same : (g.addProduction production.1 production.2).rules.keys = g.rules.keys := by
      rw [addProduction, OrderedMap.keys_modify, OrderedSet.insert_of_mem first]
    rw [addProductions_cons, ih fun other mem => same ▸ others other mem, same]

/-- The declared names, with a rule without alternatives for each nonterminal. -/
def bare (start : String) (nonterminals terminals : List String) : Grammar :=
  ⟨start, .ofList nonterminals, .ofList terminals, .ofKeys (.ofList nonterminals) ∅⟩

theorem alternatives_of_ofKeys {names : OrderedSet String} (rules : g.rules = .ofKeys names ∅)
    (name : String) :
    g.alternatives name = ∅ := by
  rw [alternatives, rules, OrderedMap.get?_ofKeys]
  split <;> rfl

theorem not_mem_alternatives_of_ofKeys {names : OrderedSet String}
    (rules : g.rules = .ofKeys names ∅) {name : String} {right : Alternative} :
    right ∉ g.alternatives name := by
  rw [alternatives_of_ofKeys rules]
  exact OrderedSet.not_mem_empty right

theorem build_eq (start : String) (nonterminals terminals : List String)
    (productions : List (String × Alternative)) :
    build start nonterminals terminals productions =
      ((bare start nonterminals terminals).addProductions productions).validate.map fun _ =>
        (bare start nonterminals terminals).addProductions productions := by
  change ((bare start nonterminals terminals).addProductions productions).validate.bind
    (fun _ => .ok _) = _
  cases ((bare start nonterminals terminals).addProductions productions).validate <;> rfl

theorem build_eq_ok_iff {start : String} {nonterminals terminals : List String}
    {productions : List (String × Alternative)} :
    build start nonterminals terminals productions = .ok g ↔
        (bare start nonterminals terminals).addProductions productions = g ∧ g.WellFormed := by
  rw [build_eq]
  cases valid : ((bare start nonterminals terminals).addProductions productions).validate with
  | ok =>
    have wf := validate_eq_ok_iff.1 valid
    refine ⟨fun h => ?_, fun h => congrArg Except.ok h.1⟩
    have made := Except.ok.inj h
    exact ⟨made, made ▸ wf⟩
  | error =>
    refine ⟨fun h => (nomatch h), fun h => ?_⟩
    rw [h.1, validate_eq_ok_iff.2 h.2] at valid
    contradiction

theorem keys_of_build {start : String} {nonterminals terminals : List String}
    {productions : List (String × Alternative)}
    (built : build start nonterminals terminals productions = .ok g) :
    g.rules.keys = g.nonterminals := by
  have ⟨made, wf⟩ := build_eq_ok_iff.1 built
  subst made
  have keys : (bare start nonterminals terminals).rules.keys =
      (bare start nonterminals terminals).nonterminals :=
    OrderedMap.keys_ofKeys ..
  rw [nonterminals_addProductions, keys_addProductions, keys]
  intro production mem
  rw [keys]
  exact ((wellFormed_addProductions_iff.1 wf).2 production mem).1

end Grammar

end ChomskyNormal
