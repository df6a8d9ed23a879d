import ChomskyNormal.Grammar.Equivalence
import ChomskyNormal.Proofs.Additions

/-!
# Construction of grammars

Names and productions are given as lists, in which anything may be repeated. A grammar comes of them
exactly when they are consistent; it then holds everything once, in the order of first occurrence.
So order and repetitions decide nothing but the order in the result. A fault that is reported names
something in the lists that is inconsistent.
-/

namespace ChomskyNormal

section FirstOccurrences

variable {α : Type} [DecidableEq α] [BEq α] [LawfulBEq α]

theorem OrderedSet.toList_insertMany (s : OrderedSet α) (as : List α) :
    (s.insertMany as).toList = s.toList ++ (as.filter (· ∉ s)).eraseDups := by
  induction as generalizing s with
  | nil => simp
  | cons a as ih =>
    rw [insertMany_cons, ih]
    by_cases mem : a ∈ s
    · rw [insert_of_mem mem, List.filter_cons_of_neg (by simpa using mem)]
    · have unseen : as.filter (· ∉ s.insert a) = (as.filter (· ∉ s)).filter fun b => !b == a := by
        rw [List.filter_filter]
        apply List.filter_congr
        intro b _
        by_cases same : b = a <;> simp [same]
      rw [toList_insert_of_not_mem mem, List.filter_cons_of_pos (by simpa using mem),
        List.eraseDups_cons, unseen, List.append_assoc, List.singleton_append]

theorem OrderedSet.toList_ofList (as : List α) : (ofList as).toList = as.eraseDups := by
  rw [ofList, toList_insertMany, List.filter_eq_self.2 fun a _ => decide_eq_true (not_mem_empty a),
    toList_empty, List.nil_append]

end FirstOccurrences

namespace Grammar

variable {g : Grammar}

def Has (g : Grammar) : Malformed → Prop
  | .noNonterminals => ∀ name, name ∉ g.nonterminals
  | .noTerminals => ∀ name, name ∉ g.terminals
  | .undeclaredStart name => name = g.start ∧ name ∉ g.nonterminals
  | .bothKinds name => name ∈ g.nonterminals ∧ name ∈ g.terminals
  | .undeclaredLeft name => name ∈ g.rules.keys ∧ name ∉ g.nonterminals
  | .undeclaredTerminal name left =>
    (∃ right ∈ g.alternatives left, .terminal name ∈ right) ∧ name ∉ g.terminals
  | .undeclaredNonterminal name left =>
    (∃ right ∈ g.alternatives left, .nonterminal name ∈ right) ∧ name ∉ g.nonterminals

theorem not_mem_of_isEmpty {s : OrderedSet String} (empty : s.isEmpty = true) (name : String) :
    name ∉ s := by
  intro mem
  rw [isEmpty_false_of_mem mem] at empty
  contradiction

theorem has_of_symbolFault? {left : String} {right : Alternative} {symbol : Symbol}
    {fault : Malformed} (mem : right ∈ g.alternatives left) (used : symbol ∈ right)
    (found : g.symbolFault? left symbol = some fault) :
    g.Has fault := by
  cases symbol with
  | nonterminal name =>
    simp only [symbolFault?, Option.ite_none_left_eq_some, Option.some.injEq] at found
    exact found.2 ▸ ⟨⟨right, mem, used⟩, found.1⟩
  | terminal name =>
    simp only [symbolFault?, Option.ite_none_left_eq_some, Option.some.injEq] at found
    exact found.2 ▸ ⟨⟨right, mem, used⟩, found.1⟩

theorem has_of_ruleFault? {left : String} {rights : OrderedSet Alternative} {fault : Malformed}
    (mem : (left, rights) ∈ g.rules.entries) (found : g.ruleFault? left rights = some fault) :
    g.Has fault := by
  rw [ruleFault?] at found
  split at found
  · obtain ⟨symbol, hs, found⟩ := List.exists_of_findSome?_eq_some found
    obtain ⟨right, hr, used⟩ := List.mem_flatten.1 hs
    exact has_of_symbolFault? (mem_alternatives_iff.2 ⟨rights, mem, hr⟩) used found
  · next undeclared =>
    cases found
    exact ⟨List.mem_map.2 ⟨_, mem, rfl⟩, undeclared⟩

theorem has_of_fault? {fault : Malformed} (found : g.fault? = some fault) : g.Has fault := by
  rw [fault?] at found
  split at found
  · next empty =>
    cases found
    exact not_mem_of_isEmpty empty
  split at found
  · next empty =>
    cases found
    exact not_mem_of_isEmpty empty
  split at found
  · next name both =>
    cases found
    exact ⟨List.mem_of_find?_eq_some both, by simpa using List.find?_some both⟩
  split at found
  · obtain ⟨rule, mem, found⟩ := List.exists_of_findSome?_eq_some found
    exact has_of_ruleFault? mem found
  · next undeclared =>
    cases found
    exact ⟨rfl, undeclared⟩

theorem exists_has_of_validate {e : GrammarError} (refused : g.validate = .error e) :
    ∃ fault, e = .malformed fault ∧ g.Has fault := by
  rw [validate] at refused
  split at refused
  · contradiction
  · next fault found =>
    cases refused
    exact ⟨fault, rfl, has_of_fault? found⟩

end Grammar

section Given

variable (start : String) (nonterminals terminals : List String)
  (productions : List (String × Alternative))

def Symbol.GivenIn : Symbol → Prop
  | nonterminal name => name ∈ nonterminals
  | terminal name => name ∈ terminals

structure Consistent : Prop where
  nonterminals_inhabited : nonterminals ≠ []
  terminals_inhabited : terminals ≠ []
  disjoint : ∀ name ∈ nonterminals, name ∉ terminals
  start_given : start ∈ nonterminals
  lefts_given : ∀ production ∈ productions, production.1 ∈ nonterminals
  rights_given : ∀ production ∈ productions, ∀ symbol ∈ production.2,
    symbol.GivenIn nonterminals terminals

/-- The condition that the fault stands for is violated by the names in it. -/
def Malformed.Violated : Malformed → Prop
  | noNonterminals => nonterminals = []
  | noTerminals => terminals = []
  | undeclaredStart name => name = start ∧ name ∉ nonterminals
  | bothKinds name => name ∈ nonterminals ∧ name ∈ terminals
  | undeclaredLeft name => (∃ right, (name, right) ∈ productions) ∧ name ∉ nonterminals
  | undeclaredTerminal name left =>
    (∃ right, (left, right) ∈ productions ∧ .terminal name ∈ right) ∧ name ∉ terminals
  | undeclaredNonterminal name left =>
    (∃ right, (left, right) ∈ productions ∧ .nonterminal name ∈ right) ∧ name ∉ nonterminals

/-- The grammar has what is given, each thing once, in the order of first occurrence, and one rule
for each nonterminal. -/
structure Grammar.Collects (g : Grammar) : Prop where
  start_eq : g.start = start
  toList_nonterminals : g.nonterminals.toList = nonterminals.eraseDups
  toList_terminals : g.terminals.toList = terminals.eraseDups
  map_entries : (g.rules.entries.map fun (left, rights) => (left, rights.toList)) =
    nonterminals.eraseDups.map fun left =>
      (left, ((productions.filter (·.1 = left)).map Prod.snd).eraseDups)

end Given

namespace Grammar

variable {g : Grammar} {start : String} {nonterminals terminals : List String}
  {productions : List (String × Alternative)}

theorem wellFormed_bare_iff : (bare start nonterminals terminals).WellFormed ↔
    nonterminals ≠ [] ∧ terminals ≠ [] ∧
    (∀ name ∈ nonterminals, name ∉ terminals) ∧ start ∈ nonterminals := by
  have inhabited (names : List String) : (∃ name, name ∈ OrderedSet.ofList names) ↔ names ≠ [] := by
    simp only [OrderedSet.mem_ofList]
    exact ⟨fun given => given.elim fun _ => List.ne_nil_of_mem, List.exists_mem_of_ne_nil names⟩
  have declared (name : String) : name ∈ (bare start nonterminals terminals).nonterminals ↔
      name ∈ nonterminals :=
    OrderedSet.mem_ofList
  have declared' (name : String) : name ∈ (bare start nonterminals terminals).terminals ↔
      name ∈ terminals :=
    OrderedSet.mem_ofList
  constructor
  · intro wf
    have disjoint : ∀ name ∈ nonterminals, name ∉ terminals :=
      fun name mem mem' => wf.disjoint name ((declared name).2 mem) ((declared' name).2 mem')
    exact ⟨(inhabited _).1 wf.nonterminals_inhabited,
      (inhabited _).1 wf.terminals_inhabited, disjoint, (declared start).1 wf.start_declared⟩
  · rintro ⟨nonempty, nonempty', disjoint, first⟩
    exact {
      nonterminals_inhabited := (inhabited _).2 nonempty
      terminals_inhabited := (inhabited _).2 nonempty'
      disjoint := fun name mem mem' =>
        disjoint name ((declared name).1 mem) ((declared' name).1 mem')
      start_declared := (declared start).2 first
      lefts_declared := fun name mem => by rwa [bare, OrderedMap.keys_ofKeys] at mem
      rights_declared := fun name right mem => absurd mem (not_mem_alternatives_of_ofKeys rfl) }

theorem usesDeclared_bare_iff {symbol : Symbol} :
    (bare start nonterminals terminals).UsesDeclared symbol ↔
      symbol.GivenIn nonterminals terminals := by
  cases symbol with
  | nonterminal name => exact OrderedSet.mem_ofList
  | terminal name => exact OrderedSet.mem_ofList

theorem wellFormed_built_iff :
    ((bare start nonterminals terminals).addProductions productions).WellFormed ↔
      Consistent start nonterminals terminals productions := by
  have declared (name : String) : name ∈ (bare start nonterminals terminals).nonterminals ↔
      name ∈ nonterminals :=
    OrderedSet.mem_ofList
  simp only [wellFormed_addProductions_iff, wellFormed_bare_iff, usesDeclared_bare_iff, declared]
  constructor
  · intro ⟨⟨nonempty, nonempty', disjoint, first⟩, all⟩
    exact ⟨nonempty, nonempty', disjoint, first, fun p mem => (all p mem).1,
      fun p mem => (all p mem).2⟩
  · intro c
    exact ⟨⟨c.nonterminals_inhabited, c.terminals_inhabited, c.disjoint, c.start_given⟩,
      fun p mem => ⟨c.lefts_given p mem, c.rights_given p mem⟩⟩

theorem exists_build_iff : (∃ g, build start nonterminals terminals productions = .ok g) ↔
    Consistent start nonterminals terminals productions := by
  simp only [build_eq_ok_iff, exists_eq_left', wellFormed_built_iff]

theorem map_entries (g : Grammar) :
    (g.rules.entries.map fun (left, rights) => (left, rights.toList)) =
      g.rules.keys.toList.map fun left => (left, (g.alternatives left).toList) := by
  rw [OrderedMap.toList_keys, List.map_map]
  apply List.map_congr_left
  intro (left, rights) mem
  rw [Function.comp_apply, alternatives_of_mem_entries mem]

theorem toList_alternatives_built (left : String) :
    (((bare start nonterminals terminals).addProductions productions).alternatives left).toList =
      ((productions.filter (·.1 = left)).map Prod.snd).eraseDups := by
  rw [alternatives_addProductions, alternatives_of_ofKeys rfl]
  exact OrderedSet.toList_ofList _

theorem collects_of_build (built : build start nonterminals terminals productions = .ok g) :
    g.Collects start nonterminals terminals productions := by
  have keys := keys_of_build built
  have ⟨made, _⟩ := build_eq_ok_iff.1 built
  subst made
  have names :
      ((bare start nonterminals terminals).addProductions productions).nonterminals.toList =
        nonterminals.eraseDups := by
    rw [nonterminals_addProductions]
    exact OrderedSet.toList_ofList nonterminals
  exact {
    start_eq := start_addProductions ..
    toList_nonterminals := names
    toList_terminals := by
      rw [terminals_addProductions]
      exact OrderedSet.toList_ofList terminals
    map_entries := by
      rw [Grammar.map_entries, keys, names]
      simp only [toList_alternatives_built] }

theorem mem_alternatives_built {left : String} {right : Alternative} :
    right ∈ ((bare start nonterminals terminals).addProductions productions).alternatives left ↔
      (left, right) ∈ productions := by
  have nothing : right ∉ (bare start nonterminals terminals).alternatives left :=
    not_mem_alternatives_of_ofKeys rfl
  simp only [mem_alternatives_addProductions, nothing, false_or]

section Members

variable {nonterminals' terminals' : List String} {productions' : List (String × Alternative)}
  (names : ∀ name, name ∈ nonterminals ↔ name ∈ nonterminals')
  (names' : ∀ name, name ∈ terminals ↔ name ∈ terminals')
  (same : ∀ production, production ∈ productions ↔ production ∈ productions')
include names names' same

theorem consistent_of_mem_iff (c : Consistent start nonterminals terminals productions) :
    Consistent start nonterminals' terminals' productions' where
  nonterminals_inhabited := List.ne_nil_of_mem ((names start).1 c.start_given)
  terminals_inhabited := by
    have ⟨name, mem⟩ := List.exists_mem_of_ne_nil _ c.terminals_inhabited
    exact List.ne_nil_of_mem ((names' name).1 mem)
  disjoint name mem mem' := c.disjoint name ((names name).2 mem) ((names' name).2 mem')
  start_given := (names start).1 c.start_given
  lefts_given production mem := (names _).1 (c.lefts_given production ((same production).2 mem))
  rights_given production mem symbol used := by
    have given := c.rights_given production ((same production).2 mem) symbol used
    cases symbol with
    | nonterminal name => exact (names name).1 given
    | terminal name => exact (names' name).1 given

theorem same_of_build {g' : Grammar}
    (built : build start nonterminals terminals productions = .ok g)
    (built' : build start nonterminals' terminals' productions' = .ok g') : g.Same g' := by
  have keys := keys_of_build built
  have keys' := keys_of_build built'
  have ⟨made, _⟩ := build_eq_ok_iff.1 built
  have ⟨made', _⟩ := build_eq_ok_iff.1 built'
  subst made made'
  have declared (name : String) :
      name ∈ ((bare start nonterminals terminals).addProductions productions).nonterminals ↔
      name ∈ ((bare start nonterminals' terminals').addProductions productions').nonterminals := by
    simp only [nonterminals_addProductions, bare, OrderedSet.mem_ofList, names]
  apply Same.of_mem_iff
  · rw [start_addProductions, start_addProductions]
    rfl
  · exact declared
  · intro name
    simp only [terminals_addProductions, bare, OrderedSet.mem_ofList, names']
  · rw [keys, keys']
    exact declared
  · intro left right
    rw [mem_alternatives_built, mem_alternatives_built, same]

end Members

theorem mem_keys_addProductions {name : String} : name ∈ (g.addProductions productions).rules.keys ↔
    name ∈ g.rules.keys ∨ ∃ right, (name, right) ∈ productions := by
  induction productions generalizing g with
  | nil => simp
  | cons production productions ih =>
    have ⟨left, right⟩ := production
    rw [addProductions_cons, ih, addProduction, OrderedMap.keys_modify,
      OrderedSet.mem_insert, or_assoc]
    simp only [List.mem_cons, Prod.mk.injEq, exists_or, exists_and_left, exists_eq, and_true]

theorem violated_of_has {fault : Malformed}
    (found : ((bare start nonterminals terminals).addProductions productions).Has fault) :
    fault.Violated start nonterminals terminals productions := by
  have declared (name : String) :
    name ∈ ((bare start nonterminals terminals).addProductions productions).nonterminals ↔
      name ∈ nonterminals := by
    rw [nonterminals_addProductions]
    exact OrderedSet.mem_ofList
  have declared' (name : String) :
    name ∈ ((bare start nonterminals terminals).addProductions productions).terminals ↔
      name ∈ terminals := by
    rw [terminals_addProductions]
    exact OrderedSet.mem_ofList
  cases fault with
  | noNonterminals =>
    exact List.eq_nil_iff_forall_not_mem.2 fun name mem => found name ((declared name).2 mem)
  | noTerminals =>
    exact List.eq_nil_iff_forall_not_mem.2 fun name mem => found name ((declared' name).2 mem)
  | undeclaredStart name =>
    exact ⟨found.1.trans (start_addProductions ..), fun mem => found.2 ((declared name).2 mem)⟩
  | bothKinds name => exact ⟨(declared name).1 found.1, (declared' name).1 found.2⟩
  | undeclaredLeft name =>
    have undeclared : name ∉ nonterminals := fun mem => found.2 ((declared name).2 mem)
    have bare_keys : name ∉ (bare start nonterminals terminals).rules.keys := by
      rw [bare, OrderedMap.keys_ofKeys, OrderedSet.mem_ofList]
      exact undeclared
    exact ⟨(mem_keys_addProductions.1 found.1).resolve_left bare_keys, undeclared⟩
  | undeclaredTerminal name left =>
    have ⟨⟨right, mem, used⟩, undeclared⟩ := found
    exact ⟨⟨right, mem_alternatives_built.1 mem, used⟩,
      fun mem => undeclared ((declared' name).2 mem)⟩
  | undeclaredNonterminal name left =>
    have ⟨⟨right, mem, used⟩, undeclared⟩ := found
    exact ⟨⟨right, mem_alternatives_built.1 mem, used⟩,
      fun mem => undeclared ((declared name).2 mem)⟩

theorem exists_violated_of_build {e : GrammarError}
    (refused : build start nonterminals terminals productions = .error e) :
    ∃ fault, e = .malformed fault ∧ fault.Violated start nonterminals terminals productions := by
  rw [build_eq] at refused
  cases checked : ((bare start nonterminals terminals).addProductions productions).validate with
  | ok =>
    rw [checked] at refused
    contradiction
  | error fault =>
    rw [checked] at refused
    cases refused
    have ⟨fault, e, found⟩ := exists_has_of_validate checked
    exact ⟨fault, e, violated_of_has found⟩

/-- Only what is consistent is built, everything that is given is in the result once and in order,
other lists of the same names and productions do as well, and a fault that is reported is there. -/
theorem build_exact (start : String) (nonterminals terminals : List String)
    (productions : List (String × Alternative)) :
    ((∃ g, build start nonterminals terminals productions = .ok g) ↔
      Consistent start nonterminals terminals productions) ∧
    (∀ g, build start nonterminals terminals productions = .ok g →
      g.Collects start nonterminals terminals productions) ∧
    (∀ nonterminals' terminals' productions', (∀ name, name ∈ nonterminals ↔ name ∈ nonterminals') →
      (∀ name, name ∈ terminals ↔ name ∈ terminals') →
      (∀ production, production ∈ productions ↔ production ∈ productions') →
        ((∃ g, build start nonterminals terminals productions = .ok g) ↔
          ∃ g', build start nonterminals' terminals' productions' = .ok g') ∧
        ∀ g g', build start nonterminals terminals productions = .ok g →
          build start nonterminals' terminals' productions' = .ok g' → g.Same g') ∧
    ∀ e, build start nonterminals terminals productions = .error e →
      ∃ fault, e = .malformed fault ∧ fault.Violated start nonterminals terminals productions := by
  refine ⟨exists_build_iff, fun g built => collects_of_build built, ?_,
    fun e refused => exists_violated_of_build refused⟩
  intro nonterminals' terminals' productions' names names' same
  have there (c : Consistent start nonterminals terminals productions) :=
    consistent_of_mem_iff names names' same c
  have back (c : Consistent start nonterminals' terminals' productions') :=
    consistent_of_mem_iff (fun name => (names name).symm) (fun name => (names' name).symm)
      (fun production => (same production).symm) c
  exact ⟨exists_build_iff.trans (Iff.intro there back |>.trans exists_build_iff.symm),
    fun g g' built built' => same_of_build names names' same built built'⟩

theorem build_exact_repeated :
    let ab : String × Alternative := ("S", [.nonterminal "A", .terminal "b"])
    let a : String × Alternative := ("A", [.terminal "a"])
    (∃ g g', build "S" ["S", "A", "S"] ["a", "b"] [ab, a, ab] = .ok g ∧
      build "S" ["A", "S"] ["b", "b", "a"] [a, a, ab] = .ok g' ∧ g ≠ g' ∧ g.Same g' ∧
        g.Collects "S" ["S", "A", "S"] ["a", "b"] [ab, a, ab]) ∧
    ∃ fault : Malformed, build "S" ["S"] ["a"] [("S", []), ("a", [])] = .error (.malformed fault) ∧
      fault.Violated "S" ["S"] ["a"] [("S", []), ("a", [])] := by
  intro ab a
  have ⟨_, collected, others, _⟩ := build_exact "S" ["S", "A", "S"] ["a", "b"] [ab, a, ab]
  have ⟨_, _, _, violated⟩ := build_exact "S" ["S"] ["a"] [("S", []), ("a", [])]
  have ⟨_, same⟩ := others ["A", "S"] ["b", "b", "a"] [a, a, ab] (by grind) (by grind) (by grind)
  have ⟨fault, e, wrong⟩ := violated _ rfl
  exact ⟨⟨_, _, rfl, rfl, by decide, same _ _ rfl rfl, collected _ rfl⟩, fault, congrArg _ e, wrong⟩

end Grammar

end ChomskyNormal
