import ChomskyNormal.Analysis.Basic
import ChomskyNormal.Proofs.Additions
import ChomskyNormal.Proofs.Simulation
import Mathlib.Computability.EpsilonNFA

/-!
# Grammars of type 3 and finite automata

Whatever a right-linear grammar derives, its sentential forms are words in front of what is left of
one alternative. So the remainders of the alternatives are the states of an automaton that reads a
terminal or moves from a nonterminal on to one of its alternatives. A left-linear grammar is the
mirror image of a right-linear one.
-/

namespace ChomskyNormal

namespace Alternative

theorem isRightLinear_cons {symbol : Symbol} {rest : List Symbol} : isRightLinear (symbol :: rest) ↔
    rest = [] ∨ symbol.isTerminal ∧ isRightLinear rest := by
  cases rest with
  | nil => simp [isRightLinear]
  | cons => simp [isRightLinear]

theorem isRightLinear_concat {body : List Symbol} (terminals : body.all Symbol.isTerminal)
    (symbol : Symbol) :
    isRightLinear (body ++ [symbol]) := by
  induction body with
  | nil => rfl
  | cons first body ih =>
    have ⟨terminal, others⟩ := Bool.and_eq_true_iff.1 terminals
    exact isRightLinear_cons.2 (.inr ⟨terminal, ih others⟩)

theorem isRightLinear_reverse {right : Alternative} (linear : isLeftLinear right) :
    isRightLinear right.reverse := by
  cases right with
  | nil => rfl
  | cons symbol rest =>
    rw [List.reverse_cons]
    exact isRightLinear_concat (List.all_reverse.trans linear) symbol

end Alternative

namespace Grammar

variable {g : Grammar}

theorem isRightLinear_iff :
    g.isRightLinear ↔ ∀ name, ∀ right ∈ g.alternatives name, Alternative.isRightLinear right := by
  simp only [isRightLinear, List.all_eq_true, Prod.forall, mem_productions]

theorem isLeftLinear_iff :
    g.isLeftLinear ↔ ∀ name, ∀ right ∈ g.alternatives name, Alternative.isLeftLinear right := by
  simp only [isLeftLinear, List.all_eq_true, Prod.forall, mem_productions]

theorem hierarchyType_eq_regular_iff :
    g.hierarchyType = .regular ↔ g.isRightLinear ∨ g.isLeftLinear := by
  rw [hierarchyType, ← Bool.or_eq_true]
  cases g.isRightLinear || g.isLeftLinear <;> simp

/-- What can be left of an alternative when it has been read up to some place; to begin with, the
start symbol. -/
def remainders (g : Grammar) : List (List Symbol) :=
  [.nonterminal g.start] :: g.productions.flatMap fun (_, right) => right.tails

theorem mem_remainders_iff {form : List Symbol} : form ∈ g.remainders ↔
    form = [.nonterminal g.start] ∨ ∃ name, ∃ right ∈ g.alternatives name, form <:+ right := by
  simp [remainders, mem_productions]

theorem mem_remainders_of_mem {name : String} {right : Alternative}
    (mem : right ∈ g.alternatives name) :
    right ∈ g.remainders :=
  mem_remainders_iff.2 (.inr ⟨name, right, mem, List.suffix_refl right⟩)

theorem mem_remainders_of_terminal_cons {letter : String} {rest : List Symbol}
    (mem : .terminal letter :: rest ∈ g.remainders) : rest ∈ g.remainders := by
  rcases mem_remainders_iff.1 mem with start | ⟨name, right, mem', suffix⟩
  · exact nomatch start
  · exact mem_remainders_iff.2 (.inr ⟨name, right, mem', (List.suffix_cons ..).trans suffix⟩)

abbrev Remainder (g : Grammar) : Type := {form // form ∈ g.remainders}

def automaton (g : Grammar) : εNFA String g.Remainder where
  step
    | form, some letter => {next | form.val = .terminal letter :: next.val}
    | form, none => {next | ∃ name, form.val = [.nonterminal name] ∧ next.val ∈ g.alternatives name}
  start := {form | form.val = [.nonterminal g.start]}
  accept := {form | form.val = []}

theorem derives_of_isPath {form last : g.Remainder} {moves : List (Option String)}
    (path : g.automaton.IsPath form last moves) (accepted : last.val = []) :
    g.Derives form.val moves.reduceOption := by
  induction path with
  | nil form =>
    rw [accepted]
    exact .nil
  | cons next form _ move moves step _ ih =>
    cases move with
    | some letter =>
      rw [show form.val = .terminal letter :: next.val from step, List.reduceOption_cons_of_some]
      exact .terminal (ih accepted)
    | none =>
      have ⟨name, here, mem⟩ := step
      rw [here, List.reduceOption_cons_of_none]
      exact derives_nonterminal_iff.2 ⟨next.val, mem, ih accepted⟩

theorem exists_isPath_of_derives (linear : g.isRightLinear) {form : List Symbol}
    {word : List String} (d : g.Derives form word) (known : form ∈ g.remainders)
    (linear' : Alternative.isRightLinear form) :
    ∃ (last : g.Remainder) (moves : List (Option String)),
      last.val = [] ∧ moves.reduceOption = word ∧
      g.automaton.IsPath ⟨form, known⟩ last moves := by
  induction d with
  | nil => exact ⟨⟨[], known⟩, [], rfl, rfl, .nil _⟩
  | @terminal letter rest word _ ih =>
    have known' := mem_remainders_of_terminal_cons known
    have rightLinear : Alternative.isRightLinear rest := by
      rcases Alternative.isRightLinear_cons.1 linear' with rfl | ⟨_, others⟩
      · rfl
      · exact others
    have ⟨last, moves, accepted, reads, path⟩ := ih known' rightLinear
    refine ⟨last, some letter :: moves, accepted, ?_, .cons ⟨rest, known'⟩ _ _ _ _ rfl path⟩
    rw [List.reduceOption_cons_of_some, reads]
  | @nonterminal name right rest front back mem _ d ih _ =>
    -- The nonterminal stands at the end.
    obtain rfl : rest = [] :=
      (Alternative.isRightLinear_cons.1 linear').resolve_right fun h => nomatch h.1
    obtain rfl := derives_nil_iff.1 d
    have known' := mem_remainders_of_mem mem
    have ⟨last, moves, accepted, reads, path⟩ :=
      ih known' (isRightLinear_iff.1 linear name right mem)
    refine ⟨last, none :: moves, accepted, ?_, .cons ⟨right, known'⟩ _ _ _ _ ⟨name, rfl, mem⟩ path⟩
    rw [List.reduceOption_cons_of_none, reads, List.append_nil]

def language (g : Grammar) : Language String := {word | g.Generates word}

theorem mem_language_iff {word : List String} : word ∈ g.language ↔ g.Generates word := Iff.rfl

theorem accepts_automaton (linear : g.isRightLinear) : g.automaton.accepts = g.language := by
  ext word
  rw [εNFA.mem_accepts_iff_exists_path, mem_language_iff]
  constructor
  · rintro ⟨first, last, moves, start, accepted, rfl, path⟩
    have d := derives_of_isPath path accepted
    rwa [show first.val = [.nonterminal g.start] from start] at d
  · intro d
    have known : [.nonterminal g.start] ∈ g.remainders := mem_remainders_iff.2 (.inl rfl)
    have ⟨last, moves, accepted, reads, path⟩ := exists_isPath_of_derives linear d known rfl
    exact ⟨_, last, moves, rfl, accepted, reads, path⟩

theorem isRegular_of_isRightLinear (linear : g.isRightLinear) : g.language.IsRegular := by
  refine ⟨Set g.Remainder, inferInstance, g.automaton.toNFA.toDFA, ?_⟩
  rw [NFA.toDFA_correct, εNFA.toNFA_correct, accepts_automaton linear]

def mirror (g : Grammar) : Grammar :=
  { g with rules := g.rules.mapValues fun _ rights => .ofList (rights.toList.map List.reverse) }

theorem mem_alternatives_mirror {name : String} {right : Alternative} :
    right ∈ g.mirror.alternatives name ↔ right.reverse ∈ g.alternatives name := by
  simp only [alternatives, mirror, OrderedMap.get?_mapValues]
  cases g.rules.get? name with
  | none => simp
  | some rights => simp [List.reverse_eq_iff]

theorem Derives.mirror {form : List Symbol} {word : List String} (d : g.Derives form word) :
    g.mirror.Derives form.reverse word.reverse := by
  induction d with
  | nil => exact .nil
  | terminal _ ih =>
    rw [List.reverse_cons, List.reverse_cons]
    exact ih.append (.terminal .nil)
  | @nonterminal name right _ _ _ mem _ _ ih₁ ih₂ =>
    rw [List.reverse_cons, List.reverse_append]
    have mem' : right.reverse ∈ g.mirror.alternatives name :=
      mem_alternatives_mirror.2 (by rwa [List.reverse_reverse])
    exact ih₂.append (derives_nonterminal_iff.2 ⟨right.reverse, mem', ih₁⟩)

theorem derives_mirror_mirror_iff {form : List Symbol} {word : List String} :
    g.mirror.mirror.Derives form word ↔ g.Derives form word :=
  derives_congr fun name right => by
    rw [mem_alternatives_mirror, mem_alternatives_mirror, List.reverse_reverse]

theorem language_mirror (g : Grammar) : g.mirror.language = g.language.reverse := by
  ext word
  rw [Language.mem_reverse]
  constructor
  · exact fun d => derives_mirror_mirror_iff.1 d.mirror
  · intro d
    have d' := Derives.mirror (mem_language_iff.1 d)
    rwa [List.reverse_reverse] at d'

theorem isRightLinear_mirror (linear : g.isLeftLinear) : g.mirror.isRightLinear := by
  refine isRightLinear_iff.2 fun name right mem => ?_
  have reversed := isLeftLinear_iff.1 linear name _ (mem_alternatives_mirror.1 mem)
  have linear' := Alternative.isRightLinear_reverse reversed
  rwa [List.reverse_reverse] at linear'

theorem isRegular_of_isLeftLinear (linear : g.isLeftLinear) : g.language.IsRegular := by
  apply Language.IsRegular.of_reverse
  rw [← language_mirror]
  exact isRegular_of_isRightLinear (isRightLinear_mirror linear)

theorem declared_of_derives (wf : g.WellFormed) {form : List Symbol} {word : List String}
    (d : g.Derives form word) (declared : ∀ symbol ∈ form, g.UsesDeclared symbol) :
    ∀ letter ∈ word, letter ∈ g.terminals := by
  induction d with
  | nil => simp
  | terminal _ ih =>
    have ⟨first, others⟩ := List.forall_mem_cons.1 declared
    exact List.forall_mem_cons.2 ⟨first, ih others⟩
  | nonterminal mem _ _ ih₁ ih₂ =>
    have ⟨_, others⟩ := List.forall_mem_cons.1 declared
    exact List.forall_mem_append.2 ⟨ih₁ (wf.rights_declared _ _ mem), ih₂ others⟩

/-- A grammar that is said to be of type 3 generates what some finite automaton over its terminals
accepts. -/
theorem exists_automaton_of_regular (valid : g.validate = .ok ())
    (regular : g.hierarchyType = .regular) :
    ∃ (State : Type) (_ : Fintype State) (M : DFA {name // name ∈ g.terminals} State),
      ∀ word, g.Generates word ↔ ∃ letters ∈ M.accepts, letters.map Subtype.val = word := by
  have wf := validate_eq_ok_iff.1 valid
  have ⟨State, finite, M, accepts⟩ : g.language.IsRegular :=
    (hierarchyType_eq_regular_iff.1 regular).elim isRegular_of_isRightLinear
      isRegular_of_isLeftLinear
  have reads (letters : List {name // name ∈ g.terminals}) :
      letters ∈ (M.comap Subtype.val).accepts ↔ g.Generates (letters.map Subtype.val) := by
    rw [DFA.accepts_comap, accepts]
    rfl
  refine ⟨State, finite, M.comap Subtype.val, fun word => ?_⟩
  constructor
  · intro d
    have declared := declared_of_derives wf d (by simpa [UsesDeclared] using wf.start_declared)
    have same : (word.attachWith _ declared).map Subtype.val = word :=
      List.attachWith_map_subtype_val declared
    exact ⟨word.attachWith _ declared, (reads _).2 (same.symm ▸ d), same⟩
  · rintro ⟨letters, accepted, rfl⟩
    exact (reads letters).1 accepted

def leftward : Grammar :=
  (bare "S" ["S", "A", "B"] ["a", "b"]).addProductions
    [("S", []), ("S", [.nonterminal "A"]), ("S", [.nonterminal "S", .terminal "a", .terminal "b"]),
      ("A", [.nonterminal "S"]), ("A", [.nonterminal "B", .terminal "a"]),
      ("A", [.terminal "b", .terminal "b"]),
      ("B", [.nonterminal "B", .terminal "a"])]

theorem exists_automaton_leftward : leftward.validate = .ok () ∧ leftward.hierarchyType = .regular ∧
    ∃ (State : Type) (_ : Fintype State) (M : DFA {name // name ∈ leftward.terminals} State),
      ∀ word, leftward.Generates word ↔ ∃ letters ∈ M.accepts, letters.map Subtype.val = word :=
  have valid : leftward.validate = .ok () := rfl
  have regular : leftward.hierarchyType = .regular := by decide
  ⟨valid, regular, exists_automaton_of_regular valid regular⟩

end Grammar

end ChomskyNormal
