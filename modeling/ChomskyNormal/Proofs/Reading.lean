import ChomskyNormal.Proofs.Additions
import ChomskyNormal.Proofs.Useful
import ChomskyNormal.Proofs.Words
import Mathlib.Data.List.TakeWhile

/-!
# What the reader returns

Which texts are read as rules and as continuations, and what is known of the words that are found in
them. The lines are then gathered into clauses, and the clauses into a grammar. Whatever text a
grammar has been read from, its names can be written again (`Grammar.Printable`), and nothing about
it would be lost in writing (`Grammar.Faithful`).
-/

namespace ChomskyNormal

/-- A name that can stand in a line: it is one word, and no arrow is found in it. -/
structure IsName (name : String) : Prop where
  isWord : IsWord name.toList
  arrowFree : ¬ arrow <:+: name.toList

instance (name : String) : Decidable (IsName name) :=
  decidable_of_iff (IsWord name.toList ∧ ¬ arrow <:+: name.toList)
    ⟨fun h => ⟨h.1, h.2⟩, fun h => ⟨h.isWord, h.arrowFree⟩⟩

namespace Grammar

/-- A rule for each nonterminal, and names that can be written. A bar separates alternatives, so
that names with a bar can only be left sides. -/
structure Printable (g : Grammar) : Prop where
  wellFormed : g.WellFormed
  keyed : ∀ name ∈ g.nonterminals, name ∈ g.rules.keys
  isName : ∀ name, g.Declares name → IsName name
  barFree : ∀ left, ∀ right ∈ g.alternatives left, ∀ symbol ∈ right, '|' ∉ symbol.name.toList

/-- What a text cannot express is absent: the start symbol has the first rule that shows, all names
occur, and nothing but the empty alternative looks like it. -/
structure Faithful (g : Grammar) : Prop where
  start_first : (g.rules.entries.find? fun rule => rule.2.toList ≠ []).map Prod.fst = some g.start
  inhabited : ∀ name ∈ g.nonterminals, ∃ right, right ∈ g.alternatives name
  used : ∀ terminal ∈ g.terminals, g.Uses terminal
  spelled : ∀ left symbol, [symbol] ∈ g.alternatives left → symbol.name ∉ epsilonSpellings

end Grammar

theorem readBodies_of_not_mem {cs : List Char} (no_bar : '|' ∉ cs) :
    readBodies cs = [words cs] := by
  rw [readBodies, List.splitOn_eq_singleton no_bar]
  rfl

structure LegibleBody (body : List String) : Prop where
  isName : ∀ word ∈ body, IsName word
  barFree : ∀ word ∈ body, '|' ∉ word.toList

structure LegibleBodies (bodies : List (List String)) : Prop where
  ne_nil : bodies ≠ []
  legible : ∀ body ∈ bodies, LegibleBody body

theorem legibleBodies_readBodies {cs : List Char} (free : ¬ arrow <:+: cs) :
    LegibleBodies (readBodies cs) := by
  refine ⟨by simp [readBodies], fun body hb => ?_⟩
  have ⟨piece, hp, e⟩ := List.mem_map.1 hb
  subst e
  have ⟨inside, no_bar⟩ := infix_of_mem_splitOn hp
  refine ⟨fun word hw => ?_, fun word hw mem => no_bar ((mem_words hw).2.subset mem)⟩
  have ⟨isWord, inside'⟩ := mem_words hw
  exact ⟨isWord, fun h => free ((h.trans inside').trans inside)⟩

theorem Line.read_rule {line before after : List Char} {left : String}
    (pieces : splitArrows line = [before, after]) (one : words before = [left]) :
    Line.read line = .rule ⟨left, readBodies after⟩ := by
  have whole := intercalate_splitArrows line
  rw [pieces, List.intercalate_cons_cons, List.intercalate_singleton] at whole
  have shows : ¬ line.all isBlank := by
    intro all
    exact absurd (List.all_eq_true.1 all '-' (by simp [← whole, arrow])) (by decide)
  rw [Line.read, if_neg shows, pieces]
  simp only [one]

theorem Line.read_continuation {line rest : List Char} (piece : splitArrows line = [line])
    (bar : line.dropWhile isBlank = '|' :: rest) :
    Line.read line = .continuation (readBodies rest) := by
  have shows : ¬ line.all isBlank := by
    intro all
    rw [List.dropWhile_eq_nil_iff.2 (List.all_eq_true.1 all)] at bar
    contradiction
  rw [Line.read, if_neg shows, piece]
  simp only [bar]

structure Clause.Legible (clause : Clause) : Prop where
  left : IsName clause.left
  bodies : LegibleBodies clause.bodies

def Line.Legible : Line → Prop
  | .blank => True
  | .rule clause => clause.Legible
  | .continuation bodies => LegibleBodies bodies
  | .faulty _ => True

theorem Line.legible_read (cs : List Char) : (Line.read cs).Legible := by
  have free : ∀ piece ∈ splitArrows cs, ¬ arrow <:+: piece := fun _ => not_infix_of_mem_splitArrows
  rw [Line.read]
  split
  · trivial
  · split
    · next text pieces =>
      split
      · next rest start =>
        have inside : rest <:+: text := by
          have suffix : '|' :: rest <:+ text := start ▸ List.dropWhile_suffix _
          exact ((List.suffix_cons ..).trans suffix).isInfix
        exact legibleBodies_readBodies fun h => free text (by simp [pieces]) (h.trans inside)
      · trivial
    · next before after pieces =>
      split
      · trivial
      · next left one =>
        have ⟨isWord, inside⟩ :=
          mem_words (one ▸ List.mem_singleton_self left : left ∈ words before)
        exact ⟨⟨isWord, fun h => free before (by simp [pieces]) (h.trans inside)⟩,
          legibleBodies_readBodies (free after (by simp [pieces]))⟩
      · trivial
    · trivial

theorem clauses_rule (number : Nat) (current : Option String) (clause : Clause) (rest : List Line) :
    clauses number current (.rule clause :: rest) =
      (clauses (number + 1) (some clause.left) rest).map (clause :: ·) := by
  rw [clauses]
  cases clauses (number + 1) (some clause.left) rest <;> rfl

theorem clauses_continuation (number : Nat) (left : String) (bodies : List (List String))
    (rest : List Line) :
    clauses number (some left) (.continuation bodies :: rest) =
      (clauses (number + 1) (some left) rest).map (⟨left, bodies⟩ :: ·) := by
  rw [clauses]
  cases clauses (number + 1) (some left) rest <;> rfl

theorem exists_of_map_eq_ok {ε α β : Type} {f : α → β} {result : Except ε α} {b : β}
    (h : result.map f = .ok b) : ∃ a, result = .ok a ∧ f a = b := by
  cases result with
  | error => contradiction
  | ok a => exact ⟨a, rfl, Except.ok.inj h⟩

theorem legible_of_clauses {ls : List Line} (legible : ∀ line ∈ ls, line.Legible) {number : Nat}
    {current : Option String} (named : ∀ left ∈ current, IsName left) {cs : List Clause}
    (gathered : clauses number current ls = .ok cs) : ∀ clause ∈ cs, clause.Legible := by
  induction ls generalizing number current cs with
  | nil =>
    cases gathered
    simp
  | cons line rest ih =>
    have ⟨first, others⟩ := List.forall_mem_cons.1 legible
    cases line with
    | blank => exact ih others named gathered
    | rule clause =>
      rw [clauses_rule] at gathered
      have ⟨later, gathered', e⟩ := exists_of_map_eq_ok gathered
      subst e
      refine List.forall_mem_cons.2 ⟨first, ih others ?_ gathered'⟩
      simpa using first.left
    | continuation bodies =>
      cases current with
      | none => contradiction
      | some left =>
        rw [clauses_continuation] at gathered
        have ⟨later, gathered', e⟩ := exists_of_map_eq_ok gathered
        subst e
        exact List.forall_mem_cons.2 ⟨⟨named left rfl, first⟩, ih others named gathered'⟩
    | faulty => contradiction

theorem legible_of_clauses_read {ls : List (List Char)} {cs : List Clause}
    (gathered : clauses 1 none (ls.map Line.read) = .ok cs) : ∀ clause ∈ cs, clause.Legible := by
  refine legible_of_clauses (fun line mem => ?_) (by simp) gathered
  have ⟨text, _, e⟩ := List.mem_map.1 mem
  exact e ▸ Line.legible_read text

theorem name_mem_of_mem_readAlternative {lefts : OrderedSet String} {body : List String}
    {symbol : Symbol} (mem : symbol ∈ readAlternative lefts body) : symbol.name ∈ body := by
  rw [readAlternative] at mem
  split at mem
  · simp at mem
  · have ⟨word, hw, e⟩ := List.mem_map.1 mem
    have named : symbol.name = word := by
      subst e
      split <;> rfl
    exact named ▸ hw

theorem readAlternative_singleton {lefts : OrderedSet String} {body : List String} {symbol : Symbol}
    (e : readAlternative lefts body = [symbol]) : symbol.name ∉ epsilonSpellings := by
  have mem : symbol.name ∈ body :=
    name_mem_of_mem_readAlternative (e ▸ List.mem_singleton_self symbol)
  rw [readAlternative] at e
  split at e
  · contradiction
  · next other =>
    have ⟨word, alone⟩ : ∃ word, body = [word] :=
      List.length_eq_one_iff.1 (by simpa using congrArg List.length e)
    rw [alone, List.mem_singleton] at mem
    exact fun spelling => other ⟨symbol.name, spelling, mem ▸ alone⟩

def leftsOf (cs : List Clause) : OrderedSet String := .ofList (cs.map Clause.left)

def productionsOf (cs : List Clause) : List (String × Alternative) :=
  cs.flatMap (Clause.productions (leftsOf cs))

theorem mem_leftsOf {cs : List Clause} {name : String} :
    name ∈ leftsOf cs ↔ ∃ clause ∈ cs, clause.left = name := by
  simp [leftsOf]

theorem mem_productionsOf {cs : List Clause} {left : String} {right : Alternative} :
    (left, right) ∈ productionsOf cs ↔ ∃ clause ∈ cs, clause.left = left ∧
      ∃ body ∈ clause.bodies, readAlternative (leftsOf cs) body = right := by
  simp only [productionsOf, Clause.productions, List.mem_flatMap, List.mem_map, Prod.mk.injEq]
  grind

namespace Grammar

variable {cs : List Clause}

/-- The grammar of the clauses, whether it is well formed or not. -/
def gathered (cs : List Clause) : Grammar :=
  (bare ((leftsOf cs).toList.headD "") (leftsOf cs).toList
    ((productionsOf cs).flatMap fun (_, right) => right.filterMap Symbol.terminal?)).addProductions
    (productionsOf cs)

theorem ofClauses_eq_ok_iff {g : Grammar} : ofClauses cs = .ok g ↔ gathered cs = g ∧ g.WellFormed :=
  build_eq_ok_iff

@[simp] theorem nonterminals_gathered (cs : List Clause) :
    (gathered cs).nonterminals = leftsOf cs := by
  rw [gathered, nonterminals_addProductions, bare, OrderedSet.ofList_toList]

@[simp] theorem keys_gathered (cs : List Clause) : (gathered cs).rules.keys = leftsOf cs := by
  have keys (start : String) (terminals : List String) :
      (bare start (leftsOf cs).toList terminals).rules.keys = leftsOf cs := by
    rw [bare, OrderedMap.keys_ofKeys, OrderedSet.ofList_toList]
  rw [gathered, keys_addProductions, keys]
  rintro ⟨left, right⟩ mem
  have ⟨clause, hc, e, _⟩ := mem_productionsOf.1 mem
  rw [keys]
  exact mem_leftsOf.2 ⟨clause, hc, e⟩

theorem mem_alternatives_gathered {left : String} {right : Alternative} :
    right ∈ (gathered cs).alternatives left ↔ (left, right) ∈ productionsOf cs := by
  rw [gathered, mem_alternatives_addProductions]
  exact or_iff_right (not_mem_alternatives_of_ofKeys rfl)

theorem mem_terminals_gathered {terminal : String} :
    terminal ∈ (gathered cs).terminals ↔ (gathered cs).Uses terminal := by
  have shown (symbol : Symbol) : symbol.terminal? = some terminal ↔
      symbol = .terminal terminal := by
    cases symbol <;> simp [Symbol.terminal?]
  have declared : terminal ∈ (gathered cs).terminals ↔
      ∃ production ∈ productionsOf cs, .terminal terminal ∈ production.2 := by
    rw [gathered, terminals_addProductions]
    simp [bare, shown]
  simp only [declared, Uses, mem_alternatives_gathered, Prod.exists]

theorem head?_leftsOf (cs : List Clause) :
    (leftsOf cs).toList.head? = cs.head?.map Clause.left := by
  rw [leftsOf, OrderedSet.head?_toList_ofList, List.head?_map]

theorem start_gathered (cs : List Clause) :
    (gathered cs).start = (cs.head?.map Clause.left).getD "" := by
  rw [gathered, start_addProductions, bare, List.headD_eq_head?_getD, head?_leftsOf]

theorem left_head?_of_wellFormed (wf : (gathered cs).WellFormed) :
    cs.head?.map Clause.left = some (gathered cs).start := by
  cases cs with
  | nil => simpa [leftsOf, OrderedSet.ofList] using wf.nonterminals_inhabited
  | cons clause others => rw [start_gathered, List.head?_cons, Option.map_some, Option.getD_some]

theorem find?_inhabited_of_forall {g : Grammar}
    (inhabited : ∀ name ∈ g.rules.keys, ∃ right, right ∈ g.alternatives name) :
    (g.rules.entries.find? fun rule => rule.2.toList ≠ []).map Prod.fst =
      g.rules.keys.toList.head? := by
  have all : ∀ rule ∈ g.rules.entries, decide (rule.2.toList ≠ []) = true := by
    rintro ⟨left, rights⟩ mem
    have ⟨right, hr⟩ := inhabited left (List.mem_map.2 ⟨_, mem, rfl⟩)
    rw [alternatives, OrderedMap.get?_eq_some_iff.2 mem] at hr
    exact decide_eq_true (List.ne_nil_of_mem hr)
  rw [← List.head?_filter, List.filter_eq_self.2 all, OrderedMap.toList_keys, List.head?_map]

theorem printable_gathered (legible : ∀ clause ∈ cs, clause.Legible)
    (wf : (gathered cs).WellFormed) :
    (gathered cs).Printable := by
  have found {left : String} {right : Alternative} (mem : right ∈ (gathered cs).alternatives left)
      {symbol : Symbol} (hs : symbol ∈ right) : IsName symbol.name ∧ '|' ∉ symbol.name.toList := by
    have ⟨clause, hc, _, body, hb, e⟩ := mem_productionsOf.1 (mem_alternatives_gathered.1 mem)
    subst e
    have hw := name_mem_of_mem_readAlternative hs
    have legible := (legible clause hc).bodies.legible body hb
    exact ⟨legible.isName _ hw, legible.barFree _ hw⟩
  refine ⟨wf, fun name mem => ?_, fun name declared => ?_, fun _ _ mem _ hs => (found mem hs).2⟩
  · rwa [keys_gathered, ← nonterminals_gathered]
  · rcases declared with mem | mem
    · rw [nonterminals_gathered] at mem
      have ⟨clause, hc, e⟩ := mem_leftsOf.1 mem
      exact e ▸ (legible clause hc).left
    · have ⟨left, right, mem, hs⟩ := mem_terminals_gathered.1 mem
      exact (found mem hs).1

theorem faithful_gathered (legible : ∀ clause ∈ cs, clause.Legible)
    (wf : (gathered cs).WellFormed) :
    (gathered cs).Faithful := by
  have inhabited : ∀ name ∈ leftsOf cs, ∃ right, right ∈ (gathered cs).alternatives name := by
    intro name mem
    have ⟨clause, hc, e⟩ := mem_leftsOf.1 mem
    have ⟨body, hb⟩ := List.exists_mem_of_ne_nil _ (legible clause hc).bodies.ne_nil
    exact ⟨_, mem_alternatives_gathered.2 (mem_productionsOf.2 ⟨clause, hc, e, body, hb, rfl⟩)⟩
  refine ⟨?_, ?_, fun terminal => mem_terminals_gathered.1, fun left symbol mem => ?_⟩
  · rw [find?_inhabited_of_forall (by simpa using inhabited), keys_gathered, head?_leftsOf]
    exact left_head?_of_wellFormed wf
  · simpa using inhabited
  · have ⟨_, _, _, body, _, e⟩ := mem_productionsOf.1 (mem_alternatives_gathered.1 mem)
    exact readAlternative_singleton e

theorem printable_and_faithful_of_parse {text : String} {g : Grammar} (read : parse text = .ok g) :
    g.Printable ∧ g.Faithful := by
  cases e : clauses 1 none ((lines text.toList).map Line.read) with
  | error =>
    rw [parse, e] at read
    contradiction
  | ok cs =>
    rw [parse, e] at read
    have ⟨made, wf⟩ := ofClauses_eq_ok_iff.1 read
    have legible := legible_of_clauses_read e
    subst made
    exact ⟨printable_gathered legible wf, faithful_gathered legible wf⟩

end Grammar

end ChomskyNormal
