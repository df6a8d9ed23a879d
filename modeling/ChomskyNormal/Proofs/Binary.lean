import ChomskyNormal.NormalForm
import ChomskyNormal.Proofs.Conservative

/-!
# Binarization

A draft together with the productions that still have to be put back is a grammar, the whole of the
draft. Each operation of the pass extends the whole conservatively, and since preferred names are
primed until they are free, none of them fails. At the end nothing has to be put back, and every
alternative is short.
-/

namespace ChomskyNormal

theorem exists_foldlM {α σ ε : Type} {f : σ → α → Except ε σ} {p : List α → σ → Prop}
    (step : ∀ a as s, p (a :: as) s → ∃ s', f s a = .ok s' ∧ p as s') (as : List α) (s : σ)
    (h : p as s) :
    ∃ s', as.foldlM f s = .ok s' ∧ p [] s' := by
  induction as generalizing s with
  | nil => exact ⟨s, rfl, h⟩
  | cons a as ih =>
    obtain ⟨s', e, h'⟩ := step a as s h
    obtain ⟨t, e', ht⟩ := ih s' h'
    refine ⟨t, ?_, ht⟩
    rw [List.foldlM_cons, e]
    exact e'

def Alternative.Short (right : Alternative) : Prop := right.length ≤ 1 ∨ Alternative.isNormal right

instance (right : Alternative) : Decidable (Alternative.Short right) :=
  inferInstanceAs (Decidable (_ ∨ _))

theorem Alternative.short_iff {right : Alternative} : Alternative.Short right ↔
    right.length ≤ 1 ∨ ∃ first second, right = [.nonterminal first, .nonterminal second] := by
  constructor
  · intro short
    rcases short with short | normal
    · exact .inl short
    · unfold Alternative.isNormal at normal
      split at normal
      · exact .inl (by simp)
      · exact .inr ⟨_, _, rfl⟩
      · contradiction
  · intro shape
    rcases shape with short | ⟨first, second, rfl⟩
    · exact .inl short
    · exact .inr rfl

theorem Alternative.Short.length_le_two {right : Alternative} (short : Alternative.Short right) :
    right.length ≤ 2 := by
  rcases Alternative.short_iff.1 short with few | ⟨first, second, rfl⟩
  · exact Nat.le_succ_of_le few
  · exact Nat.le_refl 2

structure Grammar.Shortened (g : Grammar) : Prop where
  rights : ∀ name, ∀ right ∈ g.alternatives name, Alternative.Short right
  keys : g.rules.keys = g.nonterminals

namespace Draft

open Grammar

variable {d d' d'' : Draft} {todo todo' todo'' : List (String × Alternative)}

/-- The grammar of the draft with the productions that have not been put back yet. -/
def whole (d : Draft) (todo : List (String × Alternative)) : Grammar :=
  d.grammar.addProductions todo

@[simp] theorem start_whole (d : Draft) (todo : List (String × Alternative)) :
    (d.whole todo).start = d.grammar.start := start_addProductions ..

@[simp] theorem nonterminals_whole (d : Draft) (todo : List (String × Alternative)) :
    (d.whole todo).nonterminals = d.grammar.nonterminals := nonterminals_addProductions ..

@[simp] theorem terminals_whole (d : Draft) (todo : List (String × Alternative)) :
    (d.whole todo).terminals = d.grammar.terminals := terminals_addProductions ..

theorem mem_alternatives_whole {name : String} {right : Alternative} :
    right ∈ (d.whole todo).alternatives name ↔
      right ∈ d.grammar.alternatives name ∨ (name, right) ∈ todo :=
  mem_alternatives_addProductions

theorem wellFormed_whole_iff : (d.whole todo).WellFormed ↔
    d.grammar.WellFormed ∧ ∀ production ∈ todo,
    production.1 ∈ d.grammar.nonterminals ∧
    ∀ symbol ∈ production.2, d.grammar.UsesDeclared symbol :=
  wellFormed_addProductions_iff

theorem mem_alternatives_whole_cons {left name : String} {right right' : Alternative} :
    right' ∈ (d.whole ((left, right) :: todo)).alternatives name ↔
      right' ∈ (d.whole todo).alternatives name ∨ (name, right') = (left, right) := by
  rw [mem_alternatives_whole, mem_alternatives_whole, List.mem_cons, or_left_comm, or_comm]

theorem wellFormed_whole_cons_iff {left : String} {right : Alternative} :
    (d.whole ((left, right) :: todo)).WellFormed ↔ (d.whole todo).WellFormed ∧
      left ∈ d.grammar.nonterminals ∧ ∀ symbol ∈ right, d.grammar.UsesDeclared symbol := by
  rw [wellFormed_whole_iff, wellFormed_whole_iff, List.forall_mem_cons, and_left_comm, and_comm]

def excess (todo : List (String × Alternative)) : Nat :=
  total (fun production => production.2.length - 2) todo

/-- Every remembered wrapper is declared, and its only alternative is its terminal. -/
def Fits (d : Draft) (todo : List (String × Alternative)) : Prop :=
  ∀ terminal name, d.names.wrappers.get? terminal = some name →
    name ∈ d.grammar.nonterminals ∧ (d.whole todo).Stands (.terminal terminal) name

theorem Fits.of_long (fits : d.Fits todo) {left : String} {right : Alternative}
    (mem : right ∈ (d.whole todo).alternatives left) (long : 2 ≤ right.length)
    (wrappers : d'.names.wrappers = d.names.wrappers)
    (declared : ∀ name ∈ d.grammar.nonterminals, name ∈ d'.grammar.nonterminals)
    (keep : ∀ name ∈ d.grammar.nonterminals, name ≠ left → ∀ right',
      right' ∈ (d'.whole todo').alternatives name ↔ right' ∈ (d.whole todo).alternatives name) :
    d'.Fits todo' := by
  intro terminal name h
  rw [wrappers] at h
  obtain ⟨old, only⟩ := fits terminal name h
  -- No wrapper has a long alternative, so `left` is not a wrapper.
  refine ⟨declared name old, fun right' => (keep name old ?_ right').trans (only right')⟩
  intro same
  subst same
  rw [(only right).1 mem] at long
  simp at long

/-- What one or more operations do to a draft and to the productions that wait. -/
structure Advances (d : Draft) (todo : List (String × Alternative)) (d' : Draft)
    (todo' : List (String × Alternative)) : Prop where
  conservative : Conservative (d.whole todo) (d'.whole todo')
  useful : (d.whole todo).AllUseful → (d'.whole todo').AllUseful
  fits : d'.Fits todo'
  short : d.grammar.Shortened → d'.grammar.Shortened
  counter : d'.names.counter + UInt64.ofNat (excess todo') =
    d.names.counter + UInt64.ofNat (excess todo)

theorem Advances.trans (a : d.Advances todo d' todo') (a' : d'.Advances todo' d'' todo'') :
    d.Advances todo d'' todo'' :=
  ⟨a.conservative.trans a'.conservative, fun h => a'.useful (a.useful h), a'.fits,
    fun h => a'.short (a.short h), a'.counter.trans a.counter⟩

theorem shortened_addProduction {g : Grammar} {left : String} {right : Alternative}
    (h : Alternative.Short right) (declared : left ∈ g.nonterminals) (short : g.Shortened) :
    (g.addProduction left right).Shortened where
  rights := by
    intro name right' mem
    rcases mem_alternatives_addProduction.1 mem with mem | e
    · exact short.rights name right' mem
    · cases e
      exact h
  keys := by
    rw [Grammar.addProduction, OrderedMap.keys_modify, short.keys]
    exact OrderedSet.insert_of_mem declared

theorem advances_addProduction {left : String} {right : Alternative}
    (wf : (d.whole ((left, right) :: todo)).WellFormed) (fits : d.Fits ((left, right) :: todo))
    (h : Alternative.Short right) :
    d.Advances ((left, right) :: todo) (d.addProduction left right) todo := by
  have few : right.length - 2 = 0 := Nat.sub_eq_zero_of_le h.length_le_two
  have same : excess ((left, right) :: todo) = excess todo := by
    rw [excess, total, few, Nat.zero_add]
    rfl
  exact ⟨.of_same_productions wf rfl rfl rfl fun _ _ => Iff.rfl, id, fits,
    shortened_addProduction h ((wellFormed_whole_iff.1 wf).2 _ (.head _)).1, by rw [same]; rfl⟩

theorem mem_alternatives_declare_of_fresh {g : Grammar} (wf : g.WellFormed) {name : String}
    (fresh : ¬ g.Declares name) {other : String} {right : Alternative} :
    right ∈ (g.declare name).alternatives other ↔ right ∈ g.alternatives other := by
  rw [mem_alternatives_declare]
  constructor
  · exact And.right
  · refine fun mem => ⟨?_, mem⟩
    intro same
    subst same
    exact fresh (.inl (wf.left_declared mem))

theorem usesDeclared_declare {g : Grammar} {name : String} {symbol : Symbol}
    (h : g.UsesDeclared symbol) :
    (g.declare name).UsesDeclared symbol := by
  cases symbol with
  | terminal => exact h
  | nonterminal => exact OrderedSet.mem_insert.2 (.inl h)

theorem shortened_declare {g : Grammar} (wf : g.WellFormed) {name : String}
    (fresh : ¬ g.Declares name) (short : g.Shortened) : (g.declare name).Shortened where
  rights := fun other right mem =>
    short.rights other right ((mem_alternatives_declare_of_fresh wf fresh).1 mem)
  keys := by
    rw [declare, OrderedMap.keys_insert, short.keys]

theorem exists_newLink (d : Draft) : ∃ link, ¬ d.grammar.Declares link ∧ d.newLink =
    .ok (link, ⟨d.grammar.declare link, { d.names with counter := d.names.counter + 1 }⟩) := by
  refine ⟨d.grammar.primed s!"V{d.names.counter + 1}", d.grammar.not_declares_primed _, ?_⟩
  rw [newLink, addNonterminal_primed]
  rfl

theorem exists_wrapper (d : Draft) {terminal : String} (h : d.names.wrappers.get? terminal = none) :
    ∃ name, ¬ d.grammar.Declares name ∧ d.wrapper terminal =
      .ok (name, ⟨(d.grammar.declare name).addProduction name [.terminal terminal],
        { d.names with wrappers := d.names.wrappers.insert terminal name }⟩) := by
  refine ⟨d.grammar.primed s!"T_{terminal}", d.grammar.not_declares_primed _, ?_⟩
  rw [wrapper, h]
  simp only [addNonterminal_primed]
  rfl

/-- What the making of wrappers does to a draft. The wrappers in `names` need not be reachable
yet. -/
structure Wraps (d : Draft) (todo : List (String × Alternative)) (d' : Draft)
    (names : List String) : Prop where
  conservative : Conservative (d.whole todo) (d'.whole todo)
  fits : d'.Fits todo
  keeps : ∀ terminal name, d.names.wrappers.get? terminal = some name →
    d'.names.wrappers.get? terminal = some name
  new : ∀ name ∈ d'.grammar.nonterminals, name ∈ d.grammar.nonterminals ∨ name ∈ names
  short : d.grammar.Shortened → d'.grammar.Shortened
  counter : d'.names.counter = d.names.counter

theorem Wraps.trans {names names' : List String} (a : d.Wraps todo d' names)
    (a' : d'.Wraps todo d'' names') :
    d.Wraps todo d'' (names ++ names') where
  conservative := a.conservative.trans a'.conservative
  fits := a'.fits
  keeps := fun terminal name h => a'.keeps terminal name (a.keeps terminal name h)
  new := by
    intro name mem
    rw [List.mem_append, ← or_assoc]
    exact (a'.new name mem).imp (a.new name) id
  short := fun h => a'.short (a.short h)
  counter := a'.counter.trans a.counter

theorem Wraps.of_fits (wf : (d.whole todo).WellFormed) (fits : d.Fits todo) (names : List String) :
    d.Wraps todo d names :=
  ⟨.of_same_productions wf rfl rfl rfl fun _ _ => Iff.rfl, fits, fun _ _ h => h,
    fun _ h => .inl h, id, rfl⟩

theorem wellFormed_whole_declare (wf : (d.whole todo).WellFormed) {name : String}
    (fresh : ¬ d.grammar.Declares name) (names : FreshNames) :
    (whole ⟨d.grammar.declare name, names⟩ todo).WellFormed := by
  obtain ⟨wfd, declared⟩ := wellFormed_whole_iff.1 wf
  apply wellFormed_whole_iff.2
  refine ⟨wellFormed_declare wfd fun h => fresh (.inr h), fun production mem => ?_⟩
  obtain ⟨hl, hr⟩ := declared production mem
  exact ⟨OrderedSet.mem_insert.2 (.inl hl), fun symbol hs => usesDeclared_declare (hr symbol hs)⟩

theorem mem_alternatives_whole_declare (wf : (d.whole todo).WellFormed) {name : String}
    (fresh : ¬ d.grammar.Declares name) {names : FreshNames} {other : String}
    {right : Alternative} :
    right ∈ (whole ⟨d.grammar.declare name, names⟩ todo).alternatives other ↔
      right ∈ (d.whole todo).alternatives other := by
  have wfd := (wellFormed_whole_iff.1 wf).1
  rw [mem_alternatives_whole, mem_alternatives_declare_of_fresh wfd fresh, mem_alternatives_whole]

theorem not_mem_whole {name : String} (fresh : ¬ d.grammar.Declares name) :
    name ∉ (d.whole todo).nonterminals := by
  rw [nonterminals_whole]
  exact fun mem => fresh (.inl mem)

theorem addsWrapper_whole (wf : (d.whole todo).WellFormed) {name terminal : String}
    (fresh : ¬ d.grammar.Declares name) (used : (d.whole todo).Uses terminal) (names : FreshNames) :
    AddsWrapper name terminal (d.whole todo)
      (whole ⟨(d.grammar.declare name).addProduction name [.terminal terminal], names⟩ todo) where
  wellFormed_before := wf
  wellFormed := by
    obtain ⟨left, right, mem, hs⟩ := used
    have known := wf.rights_declared left right mem _ hs
    rw [UsesDeclared, terminals_whole] at known
    apply (wellFormed_whole_cons_iff (d := ⟨d.grammar.declare name, names⟩)).2
    refine ⟨wellFormed_whole_declare wf fresh names, OrderedSet.mem_insert.2 (.inr rfl),
      fun symbol hs => ?_⟩
    rw [List.mem_singleton.1 hs]
    exact known
  start := by
    rw [start_whole, start_whole]
    rfl
  terminals := by
    rw [terminals_whole, terminals_whole]
    rfl
  nonterminals := by
    intro other
    rw [nonterminals_whole, nonterminals_whole]
    exact OrderedSet.mem_insert
  productions := by
    intro other right
    rw [← mem_alternatives_whole_declare wf fresh]
    exact mem_alternatives_whole_cons (d := ⟨d.grammar.declare name, names⟩)
  fresh := not_mem_whole fresh
  used := used

theorem wraps_wrapper (wf : (d.whole todo).WellFormed) (fits : d.Fits todo) {terminal : String}
    (used : (d.whole todo).Uses terminal) : ∃ name d', d.wrapper terminal = .ok (name, d') ∧
      d.Wraps todo d' [name] ∧ d'.names.wrappers.get? terminal = some name := by
  cases h : d.names.wrappers.get? terminal with
  | some name =>
    refine ⟨name, d, ?_, .of_fits wf fits [name], h⟩
    rw [wrapper, h]
  | none =>
    obtain ⟨name, fresh, e⟩ := exists_wrapper d h
    have adds := addsWrapper_whole wf fresh used
      { d.names with wrappers := d.names.wrappers.insert terminal name }
    refine ⟨name, _, e, ?_, by simp [OrderedMap.get?_insert]⟩
    exact {
      conservative := adds.conservative
      fits := by
        intro other wrapper h'
        rw [OrderedMap.get?_insert] at h'
        split at h'
        · next e =>
          cases h'
          exact ⟨OrderedSet.mem_insert.2 (.inr rfl), e ▸ adds.stands_wrapper⟩
        · obtain ⟨declared, stands⟩ := fits other wrapper h'
          refine ⟨OrderedSet.mem_insert.2 (.inl declared), adds.stands_of_declared ?_ stands⟩
          rwa [nonterminals_whole]
      keeps := by
        intro other name' h'
        rw [OrderedMap.get?_insert, if_neg]
        · exact h'
        · intro same
          subst same
          rw [h] at h'
          contradiction
      new := by
        intro other mem
        rw [List.mem_singleton]
        exact OrderedSet.mem_insert.1 mem
      short := fun short =>
        shortened_addProduction (.inl (by simp)) (OrderedSet.mem_insert.2 (.inr rfl))
        (shortened_declare (wellFormed_whole_iff.1 wf).1 fresh short)
      counter := rfl }

def Represents (d : Draft) : Symbol → String → Prop
  | .nonterminal other, name => name = other
  | .terminal terminal, name => d.names.wrappers.get? terminal = some name

theorem stands_of_represents (fits : d.Fits todo) {symbol : Symbol} {name : String}
    (h : d.Represents symbol name) : (d.whole todo).Stands symbol name := by
  cases symbol with
  | nonterminal => exact h
  | terminal terminal => exact (fits terminal name h).2

theorem wraps_isolate (wf : (d.whole todo).WellFormed) (fits : d.Fits todo) {symbols : List Symbol}
    (used : ∀ terminal, .terminal terminal ∈ symbols → (d.whole todo).Uses terminal) :
    ∃ names d', d.isolate symbols = .ok (names, d') ∧ d.Wraps todo d' names ∧
      List.Forall₂ d'.Represents symbols names := by
  induction symbols generalizing d with
  | nil => exact ⟨[], d, rfl, .of_fits wf fits [], .nil⟩
  | cons symbol symbols ih =>
    cases symbol with
    | nonterminal name =>
      obtain ⟨names, d', e, wraps, represents⟩ :=
        ih wf fits fun terminal mem => used terminal (.tail _ mem)
      refine ⟨name :: names, d', ?_, (Wraps.of_fits wf fits [name]).trans wraps,
        .cons rfl represents⟩
      rw [isolate, e]
      rfl
    | terminal terminal =>
      obtain ⟨name, d₁, e₁, wraps₁, h⟩ := wraps_wrapper wf fits (used terminal (.head _))
      obtain ⟨names, d', e, wraps, represents⟩ := ih wraps₁.conservative.wellFormed wraps₁.fits
        fun other mem => (wraps₁.conservative.uses other).2 (used other (.tail _ mem))
      refine ⟨name :: names, d', ?_, wraps₁.trans wraps,
        .cons (wraps.keeps terminal name h) represents⟩
      simp only [isolate, e₁, e, bind, Except.bind]
      rfl

theorem declared_of_represents (fits : d.Fits todo) {symbol : Symbol}
    (declared : d.grammar.UsesDeclared symbol) {name : String} (h : d.Represents symbol name) :
    name ∈ d.grammar.nonterminals := by
  cases symbol with
  | nonterminal other =>
    rw [show name = other from h]
    exact declared
  | terminal terminal => exact (fits terminal name h).1

theorem replaces_whole {left : String} {right : Alternative} {names : List String}
    (wf : (d.whole ((left, right) :: todo)).WellFormed) (fits : d.Fits ((left, right) :: todo))
    (long : 2 ≤ right.length) (represents : List.Forall₂ d.Represents right names) :
    Replaces (fun name right' => right' ∈ (d.whole todo).alternatives name) left right names
      (d.whole ((left, right) :: todo)) (d.whole ((left, names.map .nonterminal) :: todo)) where
  wellFormed := by
    obtain ⟨wf', hl, hr⟩ := wellFormed_whole_cons_iff.1 wf
    refine wellFormed_whole_cons_iff.2 ⟨wf', hl, fun symbol hs => ?_⟩
    obtain ⟨name, hn, e⟩ := List.mem_map.1 hs
    subst e
    obtain ⟨symbol, hs, h⟩ := exists_of_mem_forall₂ represents.flip hn
    exact declared_of_represents fits (hr symbol hs) h
  start := by rw [start_whole, start_whole]
  terminals := by rw [terminals_whole, terminals_whole]
  nonterminals := by rw [nonterminals_whole, nonterminals_whole]
  before := fun _ _ => mem_alternatives_whole_cons
  after := fun _ _ => mem_alternatives_whole_cons
  long := long
  stands := represents.imp fun _ _ => stands_of_represents fits

theorem advances_isolate {left : String} {right : Alternative}
    (wf : (d.whole ((left, right) :: todo)).WellFormed) (fits : d.Fits ((left, right) :: todo))
    (long : 2 ≤ right.length) :
    ∃ names d', d.isolate right = .ok (names, d') ∧ names.length = right.length ∧
      d.Advances ((left, right) :: todo) d' ((left, names.map .nonterminal) :: todo) := by
  have mem : right ∈ (d.whole ((left, right) :: todo)).alternatives left :=
    mem_alternatives_whole.2 (.inr (.head _))
  obtain ⟨names, d', e, wraps, represents⟩ :=
    wraps_isolate wf fits fun terminal hs => ⟨left, right, mem, hs⟩
  have replaces := replaces_whole wraps.conservative.wellFormed wraps.fits long represents
  have conservative := wraps.conservative.trans replaces.conservative
  refine ⟨names, d', e, represents.length_eq.symm, ?_⟩
  exact {
    conservative := conservative
    useful := by
      intro useful
      apply conservative.allUseful useful
      intro name hn old
      rw [nonterminals_whole] at hn old
      have new : name ∈ names := (wraps.new name hn).resolve_left old
      have reachable := conservative.reachable (useful left (wf.left_declared mem)).1
      refine ⟨reachable_of_mem reachable replaces.mem_after (List.mem_map_of_mem new), ?_⟩
      obtain ⟨symbol, hs, h⟩ := exists_of_mem_forall₂ represents.flip new
      cases symbol with
      | nonterminal other =>
        have known := wf.rights_declared left right mem _ hs
        rw [UsesDeclared, nonterminals_whole, ← show name = other from h] at known
        exact absurd known old
      | terminal terminal =>
        have only := (wraps.fits terminal name h).2
        have d := derives_nonterminal_iff.2 ⟨_, (only _).2 rfl, .terminal .nil⟩
        exact ⟨_, replaces.derives_iff.2 d⟩
    fits := by
      refine wraps.fits.of_long replaces.mem_before long rfl (fun _ mem => mem) ?_
      intro name _ ne right'
      rw [mem_alternatives_whole_cons, mem_alternatives_whole_cons]
      simp only [Prod.mk.injEq, ne, false_and]
    short := wraps.short
    counter := by
      rw [wraps.counter, excess, excess, total, total, List.length_map, represents.length_eq] }

theorem splits_whole {left first link : String} {rest : List String}
    (wf : (d.whole ((left, (first :: rest).map .nonterminal) :: todo)).WellFormed)
    (fresh : ¬ d.grammar.Declares link) (long : 2 ≤ rest.length) (names : FreshNames) :
    Splits (fun name right => right ∈ (d.whole todo).alternatives name) left link
      (.nonterminal first) (rest.map .nonterminal)
      (d.whole ((left, (first :: rest).map .nonterminal) :: todo))
      (whole ⟨d.grammar.declare link, names⟩
        ((left, [.nonterminal first, .nonterminal link]) ::
          (link, rest.map .nonterminal) :: todo)) where
  wellFormed_before := wf
  wellFormed := by
    have known : link ∈ (d.grammar.declare link).nonterminals := OrderedSet.mem_insert.2 (.inr rfl)
    obtain ⟨wf', hl, hr⟩ := wellFormed_whole_cons_iff.1 (wellFormed_whole_declare wf fresh names)
    refine wellFormed_whole_cons_iff.2 ⟨wellFormed_whole_cons_iff.2 ⟨wf', known, ?_⟩, hl, ?_⟩
    · exact fun symbol hs => hr symbol (.tail _ hs)
    · intro symbol hs
      rcases List.mem_cons.1 hs with rfl | hs
      · exact hr _ (.head _)
      · rw [List.mem_singleton.1 hs]
        exact known
  start := by
    rw [start_whole, start_whole]
    rfl
  terminals := by
    rw [terminals_whole, terminals_whole]
    rfl
  nonterminals := by
    intro name
    rw [nonterminals_whole, nonterminals_whole]
    exact OrderedSet.mem_insert
  before := fun _ _ => mem_alternatives_whole_cons
  after := by
    intro name right
    have wf' := (wellFormed_whole_cons_iff.1 wf).1
    rw [mem_alternatives_whole_cons, mem_alternatives_whole_cons,
      mem_alternatives_whole_declare wf' fresh, or_assoc, or_comm (b := _ = (left, _))]
  fresh := not_mem_whole fresh
  long := by rwa [List.length_map]

theorem advances_link {left first : String} {rest : List String}
    (wf : (d.whole ((left, (first :: rest).map .nonterminal) :: todo)).WellFormed)
    (fits : d.Fits ((left, (first :: rest).map .nonterminal) :: todo)) (long : 2 ≤ rest.length) :
    ∃ link d', d.newLink = .ok (link, d') ∧
      d.Advances ((left, (first :: rest).map .nonterminal) :: todo)
      (d'.addProduction left [.nonterminal first, .nonterminal link])
      ((link, rest.map .nonterminal) :: todo) := by
  obtain ⟨link, fresh, e⟩ := d.exists_newLink
  have splits := splits_whole wf fresh long { d.names with counter := d.names.counter + 1 }
  refine ⟨link, _, e, ?_⟩
  exact {
    conservative := splits.conservative
    useful := splits.allUseful
    fits := by
      refine fits.of_long splits.mem_before ?_ rfl ?_ ?_
      · rw [List.length_cons, List.length_map]
        omega
      · exact fun name mem => OrderedSet.mem_insert.2 (.inl mem)
      · intro name old ne right
        have ne' : name ≠ link := fun e => fresh (.inl (e ▸ old))
        refine (splits.after name right).trans (Iff.trans ?_ (splits.before name right).symm)
        simp only [Prod.mk.injEq, ne, ne', false_and, or_false]
    short := by
      intro short
      have declared := (wellFormed_whole_cons_iff.1 wf).2.1
      apply shortened_addProduction (.inr rfl) (OrderedSet.mem_insert.2 (.inl declared))
      exact shortened_declare (wellFormed_whole_iff.1 wf).1 fresh short
    counter := by
      -- The link that is added makes the rest shorter by one.
      have shorter : excess ((left, (first :: rest).map .nonterminal) :: todo) =
          1 + excess ((link, rest.map .nonterminal) :: todo) := by
        rw [excess, excess, total, total, List.length_map, List.length_map, List.length_cons]
        omega
      rw [shorter, UInt64.ofNat_add, ← UInt64.add_assoc]
      rfl }

theorem advances_chain {left : String} {names : List String}
    (wf : (d.whole ((left, names.map .nonterminal) :: todo)).WellFormed)
    (fits : d.Fits ((left, names.map .nonterminal) :: todo)) (long : 2 ≤ names.length) :
    ∃ d', d.chain left names = .ok d' ∧
      d.Advances ((left, names.map .nonterminal) :: todo) d' todo := by
  induction names generalizing d left with
  | nil => simp at long
  | cons first names ih =>
    match names with
    | [] => simp at long
    | [second] => exact ⟨_, rfl, advances_addProduction wf fits (.inr rfl)⟩
    | second :: third :: rest =>
      obtain ⟨link, d₁, e₁, a⟩ := advances_link wf fits (by simp)
      obtain ⟨d', e, a'⟩ := ih a.conservative.wellFormed a.fits (by simp)
      refine ⟨d', ?_, a.trans a'⟩
      rw [chain, e₁]
      exact e

theorem addShortened_of_short (d : Draft) {left : String} {right : Alternative}
    (short : Alternative.Short right) :
    d.addShortened left right = .ok (d.addProduction left right) := by
  rw [addShortened, if_pos (by simpa [Alternative.Short] using short)]

theorem advances_addShortened {left : String} {right : Alternative}
    (wf : (d.whole ((left, right) :: todo)).WellFormed) (fits : d.Fits ((left, right) :: todo)) :
    ∃ d', d.addShortened left right = .ok d' ∧ d.Advances ((left, right) :: todo) d' todo := by
  by_cases short : Alternative.Short right
  · exact ⟨_, addShortened_of_short d short, advances_addProduction wf fits short⟩
  · have long : 2 ≤ right.length := by
      by_contra h
      exact short (.inl (by omega))
    obtain ⟨names, d₁, e₁, same, a⟩ := advances_isolate wf fits long
    obtain ⟨d', e, a'⟩ := advances_chain a.conservative.wellFormed a.fits (by omega)
    refine ⟨d', ?_, a.trans a'⟩
    rw [addShortened, if_neg (by simpa [Alternative.Short] using short), e₁]
    exact e

end Draft

namespace Grammar

variable {g : Grammar}

theorem mem_alternatives_withoutRules {name : String} {right : Alternative} :
    right ∉ g.withoutRules.alternatives name :=
  not_mem_alternatives_of_ofKeys rfl

theorem wellFormed_withoutRules (wf : g.WellFormed) : g.withoutRules.WellFormed where
  nonterminals_inhabited := wf.nonterminals_inhabited
  terminals_inhabited := wf.terminals_inhabited
  disjoint := wf.disjoint
  start_declared := wf.start_declared
  lefts_declared := by
    intro name mem
    rwa [withoutRules, OrderedMap.keys_ofKeys] at mem
  rights_declared := fun _ _ mem => absurd mem mem_alternatives_withoutRules

theorem conservative_withoutRules (wf : g.WellFormed) (names : FreshNames) :
    Conservative g (Draft.whole ⟨g.withoutRules, names⟩ g.productions) := by
  refine .of_same_productions ?_ (by simp; rfl) (by simp; rfl) (by simp; rfl) fun name right => ?_
  · refine Draft.wellFormed_whole_iff.2 ⟨wellFormed_withoutRules wf, fun (left, right) mem => ?_⟩
    have mem := mem_productions.1 mem
    exact ⟨wf.left_declared mem, wf.rights_declared left right mem⟩
  · rw [Draft.mem_alternatives_whole, mem_productions]
    exact or_iff_right mem_alternatives_withoutRules

theorem binarizeWith_eq (g : Grammar) (names : FreshNames) : g.binarizeWith names = (do
    let d ← g.productions.foldlM
      (fun d production => Draft.addShortened d production.1 production.2)
      ⟨g.withoutRules, names⟩
    return (d.grammar, d.names)) := rfl

/-- By how many symbols the alternatives are longer than two, in sum. -/
def excess (g : Grammar) : Nat := total (fun production => production.2.length - 2) g.productions

theorem exists_binarizeWith (wf : g.WellFormed) {names : FreshNames}
    (fits : Draft.Fits ⟨g, names⟩ []) :
    ∃ h names', g.binarizeWith names = .ok (h, names') ∧ Conservative g h ∧
      (g.AllUseful → h.AllUseful) ∧
      h.Shortened ∧ Draft.Fits ⟨h, names'⟩ [] ∧
      names'.counter = names.counter + UInt64.ofNat g.excess := by
  have conservative := conservative_withoutRules wf names
  have same : ∀ name right,
    right ∈ (Draft.whole ⟨g.withoutRules, names⟩ g.productions).alternatives name ↔
      right ∈ g.alternatives name := by
    intro name right
    rw [Draft.mem_alternatives_whole, mem_productions]
    exact or_iff_right mem_alternatives_withoutRules
  have start : Draft.Advances ⟨g.withoutRules, names⟩ g.productions
      ⟨g.withoutRules, names⟩ g.productions := by
    refine ⟨.of_same_productions conservative.wellFormed rfl rfl rfl fun _ _ => Iff.rfl,
      id, ?_, id, rfl⟩
    intro terminal name h
    obtain ⟨declared, only⟩ := fits terminal name h
    exact ⟨declared, fun right => (same name right).trans (only right)⟩
  have step : ∀ production todo d,
      Draft.Advances ⟨g.withoutRules, names⟩ g.productions d (production :: todo) →
        ∃ d', d.addShortened production.1 production.2 = .ok d' ∧
          Draft.Advances ⟨g.withoutRules, names⟩ g.productions d' todo := by
    intro production todo d a
    obtain ⟨d', e, a'⟩ := Draft.advances_addShortened a.conservative.wellFormed a.fits
    exact ⟨d', e, a.trans a'⟩
  obtain ⟨d, e, a⟩ :=
    exists_foldlM (p := fun todo d => Draft.Advances ⟨g.withoutRules, names⟩ g.productions d todo)
    step g.productions _ start
  have counted : d.names.counter = names.counter + UInt64.ofNat g.excess :=
    (UInt64.add_zero d.names.counter).symm.trans a.counter
  refine ⟨d.grammar, d.names, ?_, conservative.trans a.conservative, ?_, a.short ?_,
    a.fits, counted⟩
  · rw [binarizeWith_eq, e]
    rfl
  · intro useful
    refine a.useful (conservative.allUseful useful fun name mem new => absurd ?_ new)
    rwa [Draft.nonterminals_whole] at mem
  · exact ⟨fun _ _ mem => absurd mem mem_alternatives_withoutRules, OrderedMap.keys_ofKeys ..⟩

theorem exists_binarize (wf : g.WellFormed) : ∃ h, g.binarize = .ok h ∧ Conservative g h ∧
    (g.AllUseful → h.AllUseful) ∧ h.Shortened := by
  have fits : Draft.Fits ⟨g, {}⟩ [] := by
    intro terminal name h
    exact nomatch h
  obtain ⟨h, names, e, conservative, useful, short, _, _⟩ := exists_binarizeWith wf fits
  refine ⟨h, ?_, conservative, useful, short⟩
  rw [binarize, e]
  rfl

end Grammar

/-- Every remembered wrapper is a nonterminal, and its single alternative is its terminal. -/
def FreshNames.Fit (names : FreshNames) (g : Grammar) : Prop :=
  ∀ terminal name, names.wrappers.get? terminal = some name →
    terminal ∈ g.terminals ∧ name ∈ g.nonterminals ∧
      (g.alternatives name).toList = [[.terminal terminal]]

theorem FreshNames.fit_iff {g : Grammar} (wf : g.WellFormed) {names : FreshNames} :
    names.Fit g ↔ Draft.Fits ⟨g, names⟩ [] := by
  constructor
  · intro fit terminal name h
    obtain ⟨_, declared, only⟩ := fit terminal name h
    exact ⟨declared, OrderedSet.toList_eq_singleton_iff.1 only⟩
  · intro fits terminal name h
    obtain ⟨declared, only⟩ := fits terminal name h
    have known := wf.rights_declared name _ ((only _).2 rfl) (.terminal terminal) (.head _)
    exact ⟨known, declared, OrderedSet.toList_eq_singleton_iff.2 only⟩

namespace Grammar

variable {g : Grammar}

/-- The counter does not matter, since a link that is taken gets prime marks like any other name. -/
theorem exists_binarizeWith_of_fit (valid : g.validate = .ok ()) {names : FreshNames}
    (fit : names.Fit g) :
    ∃ h names', g.binarizeWith names = .ok (h, names') ∧ h.validate = .ok () ∧
      (∀ name, ∀ right ∈ h.alternatives name,
        right.length ≤ 1 ∨ ∃ first second, right = [.nonterminal first, .nonterminal second]) ∧
      (∀ name ∈ g.nonterminals, name ∈ h.nonterminals ∧
        ∀ word, h.Derives [.nonterminal name] word ↔ g.Derives [.nonterminal name] word) ∧
      h.start = g.start ∧ h.terminals = g.terminals ∧ names'.Fit h ∧
      names'.counter = names.counter + UInt64.ofNat g.excess := by
  have wf := validate_eq_ok_iff.1 valid
  obtain ⟨h, names', e, conservative, _, short, fits, counted⟩ :=
    exists_binarizeWith wf ((FreshNames.fit_iff wf).1 fit)
  have wf' := conservative.wellFormed
  refine ⟨h, names', e, validate_eq_ok_iff.2 wf', ?_, ?_, conservative.start,
    conservative.terminals, (FreshNames.fit_iff wf').2 fits, counted⟩
  · exact fun name right mem => Alternative.short_iff.1 (short.rights name right mem)
  · exact fun name mem => ⟨conservative.nonterminals name mem, conservative.derives name mem⟩

def prepared : Grammar :=
  (bare "S" ["S", "V1", "T_a"] ["a", "b"]).addProductions
    [("S", [.nonterminal "V1", .terminal "a", .terminal "b", .nonterminal "T_a"]), ("S", []),
      ("V1", [.nonterminal "S"]), ("V1", [.terminal "b", .terminal "a"]), ("T_a", [.terminal "a"])]

/-- The counter is full, so that the links are numbered from zero. -/
def preparedNames : FreshNames where
  counter := 18446744073709551615
  wrappers := (∅ : OrderedMap String String).insert "a" "T_a"

theorem exists_binarizeWith_prepared : prepared.validate = .ok () ∧ preparedNames.Fit prepared ∧
    ∃ h names, prepared.binarizeWith preparedNames = .ok (h, names) ∧ h.validate = .ok () ∧
      (∀ word, h.Derives [.nonterminal "V1"] word ↔ prepared.Derives [.nonterminal "V1"] word) ∧
      names.Fit h ∧ names.counter = 1 := by
  have valid : prepared.validate = .ok () := rfl
  have fit : preparedNames.Fit prepared := by
    intro terminal name h
    rw [preparedNames, OrderedMap.get?_insert] at h
    split at h
    · next same =>
      subst same
      cases h
      decide
    · contradiction
  obtain ⟨h, names, e, valid', _, derives, _, _, fit', counted⟩ :=
    exists_binarizeWith_of_fit valid fit
  exact ⟨valid, fit, h, names, e, valid', (derives "V1" (by decide)).2, fit',
    counted.trans (by decide)⟩

end Grammar

end ChomskyNormal
