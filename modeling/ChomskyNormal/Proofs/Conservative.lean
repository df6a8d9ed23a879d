import ChomskyNormal.Proofs.Additions
import ChomskyNormal.Proofs.Useful
import Mathlib.Data.List.Forall2

/-!
# Conservative extensions

A grammar is extended conservatively by nonterminals that abbreviate something: the old nonterminals
derive the same words, and what led to something still does. Three extensions are conservative: to
wrap a terminal, to let wrappers stand for terminals in an alternative, and to split an alternative
behind its first symbol.
-/

namespace ChomskyNormal

namespace Grammar

structure Conservative (g h : Grammar) : Prop where
  wellFormed : h.WellFormed
  start : h.start = g.start
  terminals : h.terminals = g.terminals
  nonterminals : ∀ name ∈ g.nonterminals, name ∈ h.nonterminals
  derives : ∀ name ∈ g.nonterminals, ∀ word,
    h.Derives [.nonterminal name] word ↔ g.Derives [.nonterminal name] word
  leads : ∀ name other, g.Leads name other → Relation.ReflTransGen h.Leads name other
  uses : ∀ terminal, h.Uses terminal ↔ g.Uses terminal
  bare : ∀ name right, right.length ≤ 1 → (∀ terminal, right ≠ [.terminal terminal]) →
    (right ∈ h.alternatives name ↔ right ∈ g.alternatives name)
  mentioned : ∀ name, [] ∈ g.alternatives name → name ∈ h.mentioned → name ∈ g.mentioned

namespace Conservative

variable {g h k : Grammar}

theorem empty (c : Conservative g h) (name : String) :
    [] ∈ h.alternatives name ↔ [] ∈ g.alternatives name :=
  c.bare name [] (by simp) (by simp)

theorem unit (c : Conservative g h) (name target : String) :
    [.nonterminal target] ∈ h.alternatives name ↔ [.nonterminal target] ∈ g.alternatives name :=
  c.bare name [.nonterminal target] (by simp) (by simp)

theorem trans (c : Conservative g h) (c' : Conservative h k) : Conservative g k where
  wellFormed := c'.wellFormed
  start := c'.start.trans c.start
  terminals := c'.terminals.trans c.terminals
  nonterminals := fun name mem => c'.nonterminals name (c.nonterminals name mem)
  derives := fun name mem word =>
    (c'.derives name (c.nonterminals name mem) word).trans (c.derives name mem word)
  leads := by
    intro name other step
    have path := c.leads name other step
    clear step
    induction path with
    | refl => exact .refl
    | tail _ step ih => exact ih.trans (c'.leads _ _ step)
  uses := fun terminal => (c'.uses terminal).trans (c.uses terminal)
  bare := fun name right short other =>
    (c'.bare name right short other).trans (c.bare name right short other)
  mentioned := fun name mem mentioned =>
    c.mentioned name mem (c'.mentioned name ((c.empty name).2 mem) mentioned)

theorem of_same_productions (wf : h.WellFormed) (start : h.start = g.start)
    (terminals : h.terminals = g.terminals) (nonterminals : h.nonterminals = g.nonterminals)
    (same : ∀ name right, right ∈ h.alternatives name ↔ right ∈ g.alternatives name) :
    Conservative g h where
  wellFormed := wf
  start := start
  terminals := terminals
  nonterminals := fun name mem => nonterminals ▸ mem
  derives := fun name _ word => derives_congr same
  leads := fun name other ⟨right, mem, hs⟩ => .single ⟨right, (same name right).2 mem, hs⟩
  uses := by
    intro terminal
    simp only [Uses, same]
  bare := fun name right _ _ => same name right
  mentioned := by
    intro name _ mentioned
    simpa only [mem_mentioned, same] using mentioned

theorem generates_iff (c : Conservative g h) (wf : g.WellFormed) {word : List String} :
    h.Generates word ↔ g.Generates word := by
  rw [Generates, c.start]
  exact c.derives g.start wf.start_declared word

theorem reachable (c : Conservative g h) {name : String} (reachable : g.Reachable name) :
    h.Reachable name := by
  have path : Relation.ReflTransGen h.Leads g.start name := by
    induction reachable with
    | refl => exact .refl
    | tail _ step ih => exact ih.trans (c.leads _ _ step)
  rw [← c.start] at path
  exact path

theorem productive (c : Conservative g h) {name : String} (mem : name ∈ g.nonterminals)
    (productive : g.Productive name) : h.Productive name := by
  obtain ⟨word, d⟩ := productive
  exact ⟨word, (c.derives name mem word).2 d⟩

theorem allUseful (c : Conservative g h) (useful : g.AllUseful)
    (new : ∀ name ∈ h.nonterminals, name ∉ g.nonterminals → h.Reachable name ∧ h.Productive name) :
    h.AllUseful := by
  intro name mem
  by_cases old : name ∈ g.nonterminals
  · obtain ⟨reachable, productive⟩ := useful name old
    exact ⟨c.reachable reachable, c.productive old productive⟩
  · exact new name mem old

theorem emptyOnlyAtStart (c : Conservative g h) (empty : g.EmptyOnlyAtStart) :
    h.EmptyOnlyAtStart := by
  intro name mem
  have mem' := (c.empty name).1 mem
  obtain ⟨rfl, alone⟩ := empty name mem'
  rw [c.start]
  exact ⟨rfl, fun mentioned => alone (c.mentioned g.start mem' mentioned)⟩

theorem terminalsUsed (c : Conservative g h) (used : g.TerminalsUsed) : h.TerminalsUsed := by
  rcases used with all | none
  · refine .inl fun terminal mem => (c.uses terminal).2 (all terminal ?_)
    rw [← c.terminals]
    exact mem
  · exact .inr fun terminal uses => none terminal ((c.uses terminal).1 uses)

end Conservative

variable {g h : Grammar}

/-- `name` derives exactly what the symbol derives: it is the symbol, or its only alternative is. -/
def Stands (g : Grammar) : Symbol → String → Prop
  | .nonterminal other, name => name = other
  | .terminal terminal, name => ∀ right, right ∈ g.alternatives name ↔ right = [.terminal terminal]

/-- `h` is `g` with the new nonterminal `name`, whose only alternative is a terminal that `g`
uses. -/
structure AddsWrapper (name terminal : String) (g h : Grammar) : Prop where
  wellFormed_before : g.WellFormed
  wellFormed : h.WellFormed
  start : h.start = g.start
  terminals : h.terminals = g.terminals
  nonterminals : ∀ other, other ∈ h.nonterminals ↔ other ∈ g.nonterminals ∨ other = name
  productions : ∀ other right, right ∈ h.alternatives other ↔
    right ∈ g.alternatives other ∨ (other, right) = (name, [.terminal terminal])
  fresh : name ∉ g.nonterminals
  used : g.Uses terminal

namespace AddsWrapper

variable {name terminal : String}

theorem mem_after (a : AddsWrapper name terminal g h) {other : String} {right : Alternative}
    (mem : right ∈ g.alternatives other) : right ∈ h.alternatives other :=
  (a.productions other right).2 (.inl mem)

theorem mem_of_declared (a : AddsWrapper name terminal g h) {other : String}
    (declared : other ∈ g.nonterminals) {right : Alternative} (mem : right ∈ h.alternatives other) :
    right ∈ g.alternatives other := by
  rcases (a.productions other right).1 mem with mem | e
  · exact mem
  · cases e
    exact absurd declared a.fresh

theorem derives_iff (a : AddsWrapper name terminal g h) {other : String}
    (declared : other ∈ g.nonterminals) {word : List String} :
    h.Derives [.nonterminal other] word ↔ g.Derives [.nonterminal other] word := by
  constructor
  · intro d
    apply d.restrict (p := (· ∈ g.nonterminals))
    · intro left hl right mem _ _
      have mem := a.mem_of_declared hl mem
      exact ⟨mem, fun inner hs => a.wellFormed_before.rights_declared left right mem _ hs⟩
    · intro inner hs
      rw [List.mem_singleton, Symbol.nonterminal.injEq] at hs
      exact hs ▸ declared
  · exact fun d => d.mono fun _ _ mem => a.mem_after mem

theorem uses_iff (a : AddsWrapper name terminal g h) {other : String} :
    h.Uses other ↔ g.Uses other := by
  constructor
  · intro uses
    obtain ⟨left, right, mem, hs⟩ := uses
    rcases (a.productions left right).1 mem with mem | e
    · exact ⟨left, right, mem, hs⟩
    · cases e
      rw [List.mem_singleton, Symbol.terminal.injEq] at hs
      exact hs ▸ a.used
  · intro uses
    obtain ⟨left, right, mem, hs⟩ := uses
    exact ⟨left, right, a.mem_after mem, hs⟩

theorem mentioned_of_mentioned (a : AddsWrapper name terminal g h) {other : String}
    (mentioned : other ∈ h.mentioned) : other ∈ g.mentioned := by
  obtain ⟨left, right, mem, hs⟩ := mem_mentioned.1 mentioned
  rcases (a.productions left right).1 mem with mem | e
  · exact mem_mentioned.2 ⟨left, right, mem, hs⟩
  · cases e
    simp at hs

theorem conservative (a : AddsWrapper name terminal g h) : Conservative g h where
  wellFormed := a.wellFormed
  start := a.start
  terminals := a.terminals
  nonterminals := fun other mem => (a.nonterminals other).2 (.inl mem)
  derives := fun _ declared _ => a.derives_iff declared
  leads := fun _ _ ⟨right, mem, hs⟩ => .single ⟨right, a.mem_after mem, hs⟩
  uses := fun _ => a.uses_iff
  bare := by
    intro left right _ other
    rw [a.productions, Prod.mk.injEq]
    simp only [other, and_false, or_false]
  mentioned := fun _ _ => a.mentioned_of_mentioned

theorem stands_wrapper (a : AddsWrapper name terminal g h) :
    h.Stands (.terminal terminal) name := by
  intro right
  have absent : right ∉ g.alternatives name := fun mem =>
    a.fresh (a.wellFormed_before.left_declared mem)
  rw [a.productions, Prod.mk.injEq]
  simp only [absent, true_and, false_or]

theorem stands_of_declared (a : AddsWrapper name terminal g h) {other wrapper : String}
    (declared : wrapper ∈ g.nonterminals) (stands : g.Stands (.terminal other) wrapper) :
    h.Stands (.terminal other) wrapper := by
  intro right
  have ne : wrapper ≠ name := fun e => a.fresh (e ▸ declared)
  rw [a.productions, Prod.mk.injEq]
  simp only [ne, false_and, or_false]
  exact stands right

end AddsWrapper

theorem exists_of_mem_forall₂ {α β : Type} {r : α → β → Prop} {xs : List α} {ys : List β}
    (related : List.Forall₂ r xs ys) {x : α} (mem : x ∈ xs) : ∃ y ∈ ys, r x y := by
  induction related with
  | nil => simp at mem
  | cons first _ ih =>
    rcases List.mem_cons.1 mem with rfl | mem
    · exact ⟨_, .head _, first⟩
    · obtain ⟨y, hy, other⟩ := ih mem
      exact ⟨y, .tail _ hy, other⟩

theorem derives_stands_iff {right : List Symbol} {names : List String}
    (stands : List.Forall₂ g.Stands right names) {word : List String} :
    g.Derives (names.map .nonterminal) word ↔ g.Derives right word := by
  induction stands generalizing word with
  | nil => exact Iff.rfl
  | @cons symbol name right names hs _ ih =>
    have first (front : List String) : g.Derives [.nonterminal name] front ↔
        g.Derives [symbol] front := by
      cases symbol with
      | nonterminal other => rw [show name = other from hs]
      | terminal terminal =>
        rw [derives_nonterminal_iff]
        simp only [show ∀ right, right ∈ g.alternatives name ↔ right = [.terminal terminal] from hs,
          exists_eq_left]
    rw [List.map_cons, derives_cons_iff, derives_cons_iff]
    simp only [first, ih]

/-- `h` has the row `names` where `g` has the alternative `right` of `left`; both have the other
productions. -/
structure Replaces (common : String → Alternative → Prop) (left : String) (right : Alternative)
    (names : List String) (g h : Grammar) : Prop where
  wellFormed : h.WellFormed
  start : h.start = g.start
  terminals : h.terminals = g.terminals
  nonterminals : h.nonterminals = g.nonterminals
  before : ∀ name right', right' ∈ g.alternatives name ↔
    common name right' ∨ (name, right') = (left, right)
  after : ∀ name right', right' ∈ h.alternatives name ↔
    common name right' ∨ (name, right') = (left, names.map .nonterminal)
  long : 2 ≤ right.length
  stands : List.Forall₂ g.Stands right names

namespace Replaces

variable {common : String → Alternative → Prop} {left : String} {right : Alternative}
  {names : List String}

theorem mem_before (r : Replaces common left right names g h) : right ∈ g.alternatives left :=
  (r.before left right).2 (.inr rfl)

theorem mem_after (r : Replaces common left right names g h) :
    names.map .nonterminal ∈ h.alternatives left :=
  (r.after left _).2 (.inr rfl)

theorem cases_before (r : Replaces common left right names g h) {name : String}
    {right' : Alternative} (mem : right' ∈ g.alternatives name) :
    right' ∈ h.alternatives name ∨ (name, right') = (left, right) := by
  apply ((r.before name right').1 mem).imp_left
  exact fun shared => (r.after name right').2 (.inl shared)

theorem cases_after (r : Replaces common left right names g h) {name : String}
    {right' : Alternative} (mem : right' ∈ h.alternatives name) :
    right' ∈ g.alternatives name ∨ (name, right') = (left, names.map .nonterminal) := by
  apply ((r.after name right').1 mem).imp_left
  exact fun shared => (r.before name right').2 (.inl shared)

theorem stands_after (r : Replaces common left right names g h) :
    List.Forall₂ h.Stands right names := by
  apply r.stands.imp
  intro symbol name hs
  cases symbol with
  | nonterminal => exact hs
  | terminal terminal =>
    intro right'
    -- A wrapper has no long alternative, so it is not the left side that changes.
    have ne : name ≠ left := by
      intro same
      subst same
      have long := r.long
      rw [(hs right).1 r.mem_before] at long
      simp at long
    rw [← show right' ∈ g.alternatives name ↔ _ from hs right', r.before, r.after]
    simp only [Prod.mk.injEq, ne, false_and]

theorem derives_iff (r : Replaces common left right names g h) {form : List Symbol}
    {word : List String} :
    h.Derives form word ↔ g.Derives form word := by
  constructor
  · intro d
    apply d.simulate
    intro name right' mem word d
    rcases r.cases_after mem with mem | e
    · exact derives_nonterminal_iff.2 ⟨right', mem, d⟩
    · cases e
      exact derives_nonterminal_iff.2 ⟨right, r.mem_before, (derives_stands_iff r.stands).1 d⟩
  · intro d
    apply d.simulate
    intro name right' mem word d
    rcases r.cases_before mem with mem | e
    · exact derives_nonterminal_iff.2 ⟨right', mem, d⟩
    · cases e
      exact derives_nonterminal_iff.2 ⟨_, r.mem_after, (derives_stands_iff r.stands_after).2 d⟩

theorem leads (r : Replaces common left right names g h) {name other : String}
    (step : g.Leads name other) :
    h.Leads name other := by
  obtain ⟨right', mem, hs⟩ := step
  rcases r.cases_before mem with mem | e
  · exact ⟨right', mem, hs⟩
  · cases e
    obtain ⟨other', hn, e⟩ := exists_of_mem_forall₂ r.stands hs
    subst e
    exact ⟨_, r.mem_after, List.mem_map_of_mem hn⟩

theorem uses_iff (r : Replaces common left right names g h) {terminal : String} :
    h.Uses terminal ↔ g.Uses terminal := by
  constructor
  · intro uses
    obtain ⟨name, right', mem, hs⟩ := uses
    rcases r.cases_after mem with mem | e
    · exact ⟨name, right', mem, hs⟩
    · cases e
      simp at hs
  · intro uses
    obtain ⟨name, right', mem, hs⟩ := uses
    rcases r.cases_before mem with mem | e
    · exact ⟨name, right', mem, hs⟩
    · cases e
      obtain ⟨wrapper, _, only⟩ := exists_of_mem_forall₂ r.stands_after hs
      exact ⟨wrapper, _, (only _).2 rfl, .head _⟩

theorem mentioned_of_empty (r : Replaces common left right names g h) {name : String}
    (empty : [] ∈ g.alternatives name) (mentioned : name ∈ h.mentioned) : name ∈ g.mentioned := by
  obtain ⟨source, right', mem, hs⟩ := mem_mentioned.1 mentioned
  rcases r.cases_after mem with mem | e
  · exact mem_mentioned.2 ⟨source, right', mem, hs⟩
  · cases e
    obtain ⟨name', hn, e⟩ := List.mem_map.1 hs
    cases e
    obtain ⟨symbol, hs, stand⟩ := exists_of_mem_forall₂ r.stands.flip hn
    cases symbol with
    | nonterminal other => exact mem_mentioned.2 ⟨left, right, r.mem_before, stand ▸ hs⟩
    | terminal terminal => exact nomatch (stand []).1 empty

theorem conservative (r : Replaces common left right names g h) : Conservative g h where
  wellFormed := r.wellFormed
  start := r.start
  terminals := r.terminals
  nonterminals := fun name mem => r.nonterminals ▸ mem
  derives := fun _ _ _ => r.derives_iff
  leads := fun _ _ step => .single (r.leads step)
  uses := fun _ => r.uses_iff
  bare := by
    intro name right' short _
    have long := r.long
    have ne : right' ≠ right := by
      intro same
      subst same
      omega
    have ne' : right' ≠ names.map .nonterminal := by
      intro same
      subst same
      rw [List.length_map, ← r.stands.length_eq] at short
      omega
    rw [r.before, r.after, Prod.mk.injEq, Prod.mk.injEq]
    simp only [ne, ne', and_false]
  mentioned := fun _ => r.mentioned_of_empty

end Replaces

/-- `h` has the alternatives `first link` of `left` and `rest` of the new nonterminal `link` where
`g` has the alternative `first :: rest` of `left`; both have the other productions. -/
structure Splits (common : String → Alternative → Prop) (left link : String) (first : Symbol)
    (rest : List Symbol) (g h : Grammar) : Prop where
  wellFormed_before : g.WellFormed
  wellFormed : h.WellFormed
  start : h.start = g.start
  terminals : h.terminals = g.terminals
  nonterminals : ∀ name, name ∈ h.nonterminals ↔ name ∈ g.nonterminals ∨ name = link
  before : ∀ name right, right ∈ g.alternatives name ↔
    common name right ∨ (name, right) = (left, first :: rest)
  after : ∀ name right, right ∈ h.alternatives name ↔ common name right ∨
    (name, right) = (left, [first, .nonterminal link]) ∨ (name, right) = (link, rest)
  fresh : link ∉ g.nonterminals
  long : 2 ≤ rest.length

namespace Splits

variable {common : String → Alternative → Prop} {left link : String} {first : Symbol}
  {rest : List Symbol}

theorem mem_before (s : Splits common left link first rest g h) :
    first :: rest ∈ g.alternatives left :=
  (s.before left _).2 (.inr rfl)

theorem mem_after (s : Splits common left link first rest g h) :
    [first, .nonterminal link] ∈ h.alternatives left :=
  (s.after left _).2 (.inr (.inl rfl))

theorem mem_after_link (s : Splits common left link first rest g h) : rest ∈ h.alternatives link :=
  (s.after link rest).2 (.inr (.inr rfl))

theorem cases_before (s : Splits common left link first rest g h) {name : String}
    {right : Alternative} (mem : right ∈ g.alternatives name) :
    right ∈ h.alternatives name ∨ (name, right) = (left, first :: rest) := by
  apply ((s.before name right).1 mem).imp_left
  exact fun shared => (s.after name right).2 (.inl shared)

theorem cases_after (s : Splits common left link first rest g h) {name : String}
    {right : Alternative} (mem : right ∈ h.alternatives name) : right ∈ g.alternatives name ∨
      (name, right) = (left, [first, .nonterminal link]) ∨ (name, right) = (link, rest) := by
  apply ((s.after name right).1 mem).imp_left
  exact fun shared => (s.before name right).2 (.inl shared)

theorem not_mem (s : Splits common left link first rest g h) {name : String} {right : Alternative}
    (mem : right ∈ g.alternatives name) : .nonterminal link ∉ right :=
  fun hs => s.fresh (s.wellFormed_before.rights_declared name right mem _ hs)

theorem ne_link (s : Splits common left link first rest g h) {name : String}
    (mem : name ∈ g.nonterminals) :
    Symbol.nonterminal name ≠ .nonterminal link :=
  fun e => s.fresh (Symbol.nonterminal.inj e ▸ mem)

def expand (link : String) (rest : List Symbol) (symbol : Symbol) : List Symbol :=
  if symbol = .nonterminal link then rest else [symbol]

theorem expand_of_ne {symbol : Symbol} (ne : symbol ≠ .nonterminal link) :
    expand link rest symbol = [symbol] :=
  if_neg ne

theorem flatMap_expand {form : List Symbol} (h : .nonterminal link ∉ form) :
    form.flatMap (expand link rest) = form := by
  induction form with
  | nil => rfl
  | cons symbol form ih =>
    rw [List.mem_cons, not_or] at h
    rw [List.flatMap_cons, expand_of_ne (Ne.symm h.1), ih h.2, List.singleton_append]

theorem derives_expand (s : Splits common left link first rest g h) {form : List Symbol}
    {word : List String} (d : h.Derives form word) :
    g.Derives (form.flatMap (expand link rest)) word := by
  apply d.translate (p := fun _ => True) (fun _ => expand_of_ne (by simp)) _ (fun _ _ => trivial)
  intro name _ right mem word _
  refine ⟨fun _ _ => trivial, fun d => ?_⟩
  rcases s.cases_after mem with mem | e | e
  · rw [flatMap_expand (s.not_mem mem)] at d
    rw [expand_of_ne (s.ne_link (s.wellFormed_before.left_declared mem))]
    exact derives_nonterminal_iff.2 ⟨right, mem, d⟩
  · cases e
    have other : first ≠ .nonterminal link := fun e => s.not_mem s.mem_before (e ▸ .head _)
    rw [List.flatMap_cons, expand_of_ne other, List.flatMap_singleton, expand, if_pos rfl] at d
    rw [expand_of_ne (s.ne_link (s.wellFormed_before.left_declared s.mem_before))]
    exact derives_nonterminal_iff.2 ⟨_, s.mem_before, d⟩
  · cases e
    rw [flatMap_expand fun hs => s.not_mem s.mem_before (.tail _ hs)] at d
    rw [expand, if_pos rfl]
    exact d

theorem derives_of_derives (s : Splits common left link first rest g h) {form : List Symbol}
    {word : List String} (d : g.Derives form word) : h.Derives form word := by
  apply d.simulate
  intro name right mem word d
  rcases s.cases_before mem with mem | e
  · exact derives_nonterminal_iff.2 ⟨right, mem, d⟩
  · cases e
    obtain ⟨front, back, rfl, d₁, d₂⟩ := derives_cons_iff.1 d
    have d₂ : h.Derives [.nonterminal link] back :=
      derives_nonterminal_iff.2 ⟨rest, s.mem_after_link, d₂⟩
    exact derives_nonterminal_iff.2 ⟨_, s.mem_after, derives_cons_iff.2 ⟨front, back, rfl, d₁, d₂⟩⟩

theorem derives_iff (s : Splits common left link first rest g h) {name : String}
    (mem : name ∈ g.nonterminals) {word : List String} :
    h.Derives [.nonterminal name] word ↔ g.Derives [.nonterminal name] word := by
  refine ⟨fun d => ?_, s.derives_of_derives⟩
  have expanded := s.derives_expand d
  rwa [List.flatMap_singleton, expand_of_ne (s.ne_link mem)] at expanded

theorem leads (s : Splits common left link first rest g h) {name other : String}
    (step : g.Leads name other) :
    Relation.ReflTransGen h.Leads name other := by
  obtain ⟨right, mem, hs⟩ := step
  rcases s.cases_before mem with mem | e
  · exact .single ⟨right, mem, hs⟩
  · cases e
    rcases List.mem_cons.1 hs with rfl | hs
    · exact .single ⟨_, s.mem_after, .head _⟩
    · have toLink : Relation.ReflTransGen h.Leads left link :=
        .single ⟨_, s.mem_after, .tail _ (.head _)⟩
      exact toLink.tail ⟨rest, s.mem_after_link, hs⟩

theorem uses_iff (s : Splits common left link first rest g h) {terminal : String} :
    h.Uses terminal ↔ g.Uses terminal := by
  constructor
  · intro uses
    obtain ⟨name, right, mem, hs⟩ := uses
    rcases s.cases_after mem with mem | e | e
    · exact ⟨name, right, mem, hs⟩
    · cases e
      simp only [List.mem_cons, reduceCtorEq, List.not_mem_nil, or_false] at hs
      exact ⟨left, _, s.mem_before, hs ▸ .head _⟩
    · cases e
      exact ⟨left, _, s.mem_before, .tail _ hs⟩
  · intro uses
    obtain ⟨name, right, mem, hs⟩ := uses
    rcases s.cases_before mem with mem | e
    · exact ⟨name, right, mem, hs⟩
    · cases e
      rcases List.mem_cons.1 hs with rfl | hs
      · exact ⟨left, _, s.mem_after, .head _⟩
      · exact ⟨link, rest, s.mem_after_link, hs⟩

theorem mentioned_of_mentioned (s : Splits common left link first rest g h) {name : String}
    (declared : name ∈ g.nonterminals) (mentioned : name ∈ h.mentioned) : name ∈ g.mentioned := by
  obtain ⟨source, right, mem, hs⟩ := mem_mentioned.1 mentioned
  rcases s.cases_after mem with mem | e | e
  · exact mem_mentioned.2 ⟨source, right, mem, hs⟩
  · cases e
    simp only [List.mem_cons, s.ne_link declared, List.not_mem_nil, or_false] at hs
    exact mem_mentioned.2 ⟨left, _, s.mem_before, hs ▸ .head _⟩
  · cases e
    exact mem_mentioned.2 ⟨left, _, s.mem_before, .tail _ hs⟩

theorem productive_link (s : Splits common left link first rest g h) (useful : g.AllUseful) :
    h.Productive link := by
  obtain ⟨word, d⟩ : ∃ word, g.Derives rest word := by
    apply exists_derives_of_productive
    intro other hs
    exact (useful other (s.wellFormed_before.rights_declared left _ s.mem_before _ (.tail _ hs))).2
  exact ⟨word, derives_nonterminal_iff.2 ⟨rest, s.mem_after_link, s.derives_of_derives d⟩⟩

theorem conservative (s : Splits common left link first rest g h) : Conservative g h where
  wellFormed := s.wellFormed
  start := s.start
  terminals := s.terminals
  nonterminals := fun name mem => (s.nonterminals name).2 (.inl mem)
  derives := fun _ mem _ => s.derives_iff mem
  leads := fun _ _ step => s.leads step
  uses := fun _ => s.uses_iff
  bare := by
    intro name right short _
    have long := s.long
    have ne : right ≠ first :: rest := by
      intro same
      subst same
      rw [List.length_cons] at short
      omega
    have ne' : right ≠ [first, .nonterminal link] := by
      intro same
      subst same
      simp at short
    have ne'' : right ≠ rest := by
      intro same
      subst same
      omega
    rw [s.before, s.after]
    simp only [Prod.mk.injEq, ne, ne', ne'', and_false, or_false]
  mentioned := fun _ empty => s.mentioned_of_mentioned (s.wellFormed_before.left_declared empty)

theorem allUseful (s : Splits common left link first rest g h) (useful : g.AllUseful) :
    h.AllUseful := by
  apply s.conservative.allUseful useful
  intro name mem new
  have e : name = link := ((s.nonterminals name).1 mem).resolve_left new
  subst e
  have reachable := (useful left (s.wellFormed_before.left_declared s.mem_before)).1
  exact ⟨reachable_of_mem (s.conservative.reachable reachable) s.mem_after (.tail _ (.head _)),
    s.productive_link useful⟩

end Splits

end Grammar

end ChomskyNormal
