import ChomskyNormal.Proofs.Normalization
import ChomskyNormal.Recognition

/-!
# Membership

A cell of the chart holds the nonterminals that derive its span without empty alternatives, by
induction on the length of the span. So the chart decides what a grammar in normal form derives
without empty alternatives, and with a normalized grammar it decides the language of the original
one.
-/

namespace ChomskyNormal

def span (word : List String) (i len : Nat) : List String := (word.drop i).take len

theorem length_span {word : List String} {i len : Nat} (h : i + len ≤ word.length) :
    (span word i len).length = len := by
  rw [span, List.length_take, List.length_drop]
  omega

theorem span_one {word : List String} {i : Nat} (h : i < word.length) :
    span word i 1 = [word[i]] := by
  rw [span, List.drop_eq_getElem_cons h, List.take_succ_cons, List.take_zero]

theorem span_add (word : List String) (i m n : Nat) :
    span word i (m + n) = span word i m ++ span word (i + m) n := by
  rw [span, List.take_add, List.drop_drop]
  rfl

theorem span_all (word : List String) : span word 0 word.length = word := by
  rw [span, List.drop_zero, List.take_length]

theorem span_eq_append {word front back : List String} {i len : Nat} (h : i + len ≤ word.length)
    (e : span word i len = front ++ back) :
    front = span word i front.length ∧ back =
      span word (i + front.length) (len - front.length) := by
  have total : len = front.length + back.length := by
    rw [← List.length_append, ← e, length_span h]
  have cut : span word i front.length ++ span word (i + front.length) back.length =
      front ++ back := by
    rw [← span_add, ← total, e]
  have first : (span word i front.length).length = front.length := length_span (by omega)
  obtain ⟨e₁, e₂⟩ := List.append_inj cut first
  refine ⟨e₁.symm, ?_⟩
  rw [← e₂]
  congr 1
  omega

namespace Grammar

variable {g : Grammar}

theorem derives_withoutEmpty_normal_iff (normal : g.isNormal = true) {name : String}
    {word : List String} :
    g.withoutEmpty.Derives [.nonterminal name] word ↔
      (∃ terminal, [.terminal terminal] ∈ g.alternatives name ∧ word = [terminal]) ∨
        ∃ first second front back, [.nonterminal first, .nonterminal second] ∈ g.alternatives name ∧
          word = front ++ back ∧ g.withoutEmpty.Derives [.nonterminal first] front ∧
            g.withoutEmpty.Derives [.nonterminal second] back := by
  rw [derives_nonterminal_iff]
  constructor
  · intro ⟨right, mem, d⟩
    obtain ⟨mem, nonempty⟩ := mem_alternatives_withoutEmpty.1 mem
    have shape := (isNormal_iff.1 normal name right mem).resolve_right fun h => nonempty h.1
    rcases Alternative.isNormal_iff.1 shape with ⟨terminal, rfl⟩ | ⟨first, second, rfl⟩
    · exact .inl ⟨terminal, mem, derives_terminal_iff.1 d⟩
    · obtain ⟨front, back, e, d₁, d₂⟩ := derives_cons_iff.1 d
      exact .inr ⟨first, second, front, back, mem, e, d₁, d₂⟩
  · intro h
    rcases h with ⟨terminal, mem, rfl⟩ | ⟨first, second, front, back, mem, rfl, d₁, d₂⟩
    · exact ⟨_, mem_alternatives_withoutEmpty.2 ⟨mem, by simp⟩, derives_terminal_iff.2 rfl⟩
    · exact ⟨_, mem_alternatives_withoutEmpty.2 ⟨mem, by simp⟩,
        derives_cons_iff.2 ⟨front, back, rfl, d₁, d₂⟩⟩

theorem length_pos_of_derives_withoutEmpty {name : String} {word : List String}
    (d : g.withoutEmpty.Derives [.nonterminal name] word) : 0 < word.length :=
  List.length_pos_iff.2 (ne_nil_of_derives_withoutEmpty d (by simp))

theorem derives_withoutEmpty_singleton_iff (normal : g.isNormal = true) {name terminal : String} :
    g.withoutEmpty.Derives [.nonterminal name] [terminal] ↔
      [.terminal terminal] ∈ g.alternatives name := by
  rw [derives_withoutEmpty_normal_iff normal]
  constructor
  · intro h
    rcases h with ⟨terminal', mem, e⟩ | ⟨first, second, front, back, _, e, d₁, d₂⟩
    · cases e
      exact mem
    · have total := congrArg List.length e
      have h₁ := length_pos_of_derives_withoutEmpty d₁
      have h₂ := length_pos_of_derives_withoutEmpty d₂
      rw [List.length_singleton, List.length_append] at total
      omega
  · exact fun mem => .inl ⟨terminal, mem, rfl⟩

theorem derives_withoutEmpty_span_iff (normal : g.isNormal = true) {word : List String}
    {i len : Nat} (h : i + (len + 2) ≤ word.length) {name : String} :
    g.withoutEmpty.Derives [.nonterminal name] (span word i (len + 2)) ↔
      ∃ split, split < len + 1 ∧ ∃ first second,
        [.nonterminal first, .nonterminal second] ∈ g.alternatives name ∧
        g.withoutEmpty.Derives [.nonterminal first] (span word i (split + 1)) ∧
          g.withoutEmpty.Derives [.nonterminal second]
            (span word (i + split + 1) (len + 1 - split - 1 + 1)) := by
  have total : (span word i (len + 2)).length = len + 2 := length_span h
  rw [derives_withoutEmpty_normal_iff normal]
  constructor
  · intro derives
    rcases derives with ⟨terminal, _, e⟩ | ⟨first, second, front, back, mem, e, d₁, d₂⟩
    · rw [e, List.length_singleton] at total
      omega
    · have h₁ := length_pos_of_derives_withoutEmpty d₁
      have h₂ := length_pos_of_derives_withoutEmpty d₂
      obtain ⟨e₁, e₂⟩ := span_eq_append h e
      rw [e, List.length_append] at total
      rw [e₁] at d₁
      rw [e₂] at d₂
      refine ⟨front.length - 1, by omega, first, second, mem, ?_, ?_⟩
      · rwa [Nat.sub_add_cancel h₁]
      · rwa [Nat.add_assoc, Nat.sub_add_cancel h₁,
          show len + 1 - (front.length - 1) - 1 + 1 = len + 2 - front.length by omega]
  · intro derives
    obtain ⟨split, hs, first, second, mem, d₁, d₂⟩ := derives
    refine .inr ⟨first, second, _, _, mem, ?_, d₁, d₂⟩
    rw [show len + 2 = split + 1 + (len + 1 - split - 1 + 1) by omega, span_add]
    rfl

theorem mem_terminalProductions {left name : String} :
    (left, name) ∈ g.terminalProductions ↔ [.terminal name] ∈ g.alternatives left := by
  rw [← mem_productions, terminalProductions, List.mem_filterMap]
  constructor
  · intro ⟨production, mem, e⟩
    split at e
    · cases e
      exact mem
    · contradiction
  · exact fun mem => ⟨_, mem, rfl⟩

theorem mem_pairProductions {left first second : String} :
    (left, first, second) ∈ g.pairProductions ↔
      [.nonterminal first, .nonterminal second] ∈ g.alternatives left := by
  rw [← mem_productions, pairProductions, List.mem_filterMap]
  constructor
  · intro ⟨production, mem, e⟩
    split at e
    · cases e
      exact mem
    · contradiction
  · exact fun mem => ⟨_, mem, rfl⟩

theorem mem_deriveTerminal {name terminal : String} :
    name ∈ deriveTerminal g.terminalProductions terminal ↔
      [.terminal terminal] ∈ g.alternatives name := by
  rw [← mem_terminalProductions, deriveTerminal, List.mem_filterMap]
  constructor
  · intro ⟨(left, terminal'), mem, e⟩
    simp only [Option.ite_none_right_eq_some, Option.some.injEq] at e
    obtain ⟨rfl, rfl⟩ := e
    exact mem
  · exact fun mem => ⟨_, mem, if_pos rfl⟩

theorem mem_derivePair {front back : Cell} {name : String} :
    name ∈ derivePair g.pairProductions front back ↔ ∃ first second,
      [.nonterminal first, .nonterminal second] ∈ g.alternatives name ∧ first ∈ front ∧
      second ∈ back := by
  simp only [← mem_pairProductions, derivePair, List.mem_filterMap]
  constructor
  · intro ⟨(left, first, second), mem, e⟩
    simp only [Option.ite_none_right_eq_some, Option.some.injEq] at e
    obtain ⟨inside, rfl⟩ := e
    exact ⟨first, second, mem, inside⟩
  · exact fun ⟨first, second, mem, inside⟩ => ⟨_, mem, if_pos inside⟩

theorem mem_spanCell {n height : Nat} {below : Chart n height} {i : Nat} {hi : i + height < n}
    {name : String} :
    name ∈ spanCell g.pairProductions below i hi ↔
      ∃ split, ∃ h : split < height, ∃ first second,
        [.nonterminal first, .nonterminal second] ∈ g.alternatives name ∧
          first ∈ below.cell split i h (by omega) ∧
            second ∈ below.cell (height - split - 1) (i + split + 1) (by omega) (by omega) := by
  simp only [spanCell, OrderedSet.mem_ofList, List.mem_flatMap, List.mem_finRange, true_and,
    mem_derivePair]
  constructor
  · intro inside
    obtain ⟨split, h⟩ := inside
    exact ⟨split.val, split.isLt, h⟩
  · intro inside
    obtain ⟨split, hs, h⟩ := inside
    exact ⟨⟨split, hs⟩, h⟩

theorem cell_chart_zero (g : Grammar) (word : List String) {height i : Nat} (hlen : 0 < height)
    (hi : i < word.length) :
    (g.chart word height).cell 0 i hlen (by omega) = .ofList
      (deriveTerminal g.terminalProductions word[i]) := by
  induction height with
  | zero => omega
  | succ height ih =>
    cases height with
    | zero => simp [chart, Chart.cell]
    | succ height =>
      rw [chart, Chart.cell, dif_neg (by omega)]
      exact ih (by omega)

theorem cell_chart_succ (g : Grammar) (word : List String) {height len i : Nat}
    (hlen : len + 1 < height) (hi : len + 1 + i < word.length) :
    (g.chart word height).cell (len + 1) i hlen (by omega) =
        spanCell g.pairProductions (g.chart word (len + 1)) i (by omega) := by
  induction height with
  | zero => omega
  | succ height ih =>
    cases height with
    | zero => omega
    | succ height =>
      rw [chart, Chart.cell]
      by_cases e : len = height
      · subst e
        simp
      · rw [dif_neg (by omega)]
        exact ih (by omega)

theorem mem_cell_iff (normal : g.isNormal = true) {word : List String} {height len i : Nat}
    {name : String} (hlen : len < height) (hi : i + len < word.length) :
    name ∈ (g.chart word height).cell len i hlen hi ↔
      g.withoutEmpty.Derives [.nonterminal name] (span word i (len + 1)) := by
  induction len using Nat.strongRecOn generalizing height i name with
  | _ len ih =>
    cases len with
    | zero =>
      rw [cell_chart_zero g word hlen (by omega), OrderedSet.mem_ofList, mem_deriveTerminal,
        span_one (by omega), derives_withoutEmpty_singleton_iff normal]
    | succ len =>
      rw [cell_chart_succ g word hlen (by omega), mem_spanCell,
        derives_withoutEmpty_span_iff normal (by omega)]
      apply exists_congr
      intro split
      constructor
      · intro inside
        obtain ⟨hs, first, second, mem, h₁, h₂⟩ := inside
        exact ⟨hs, first, second, mem, (ih _ (by omega) _ _).1 h₁, (ih _ (by omega) _ _).1 h₂⟩
      · intro derives
        obtain ⟨hs, first, second, mem, d₁, d₂⟩ := derives
        exact ⟨hs, first, second, mem, (ih _ (by omega) _ _).2 d₁, (ih _ (by omega) _ _).2 d₂⟩

theorem exists_accepts (normal : g.isNormal = true) (word : List String) : ∃ accepted,
    g.accepts word = .ok accepted ∧ (accepted = true ↔
      word = [] ∧ [] ∈ g.alternatives g.start ∨ word ≠ [] ∧ g.withoutEmpty.Generates word) := by
  rw [accepts, if_pos normal]
  by_cases empty : word.length = 0
  · rw [dif_pos empty]
    have e := List.eq_nil_of_length_eq_zero empty
    refine ⟨_, rfl, ?_⟩
    simp [hasEmptyStart, hasProduction, e]
  · rw [dif_neg empty]
    refine ⟨_, rfl, ?_⟩
    have nonempty : word ≠ [] := by simpa using empty
    rw [decide_eq_true_eq, mem_cell_iff normal, Nat.sub_add_cancel (by omega), span_all]
    simp only [nonempty, ne_eq, not_false_eq_true, false_and, true_and, false_or]
    exact Iff.rfl

theorem exists_accepts_iff_generates (normal : g.isNormal = true) (empty : g.EmptyOnlyAtStart)
    (word : List String) :
    ∃ accepted, g.accepts word = .ok accepted ∧ (accepted = true ↔ g.Generates word) := by
  obtain ⟨accepted, e, h⟩ := exists_accepts normal word
  refine ⟨accepted, e, h.trans ?_⟩
  have without : g.withoutEmpty.Generates word ↔ word ≠ [] ∧ g.Generates word :=
    derives_withoutEmpty_iff empty
  rw [without]
  by_cases nil : word = []
  · subst nil
    rw [← derives_nil_iff_mem empty]
    simp only [Generates, ne_eq, not_true_eq_false, true_and, false_and, or_false]
  · simp only [nil, ne_eq, not_false_eq_true, false_and, true_and, false_or]

theorem accepts_normalize_iff (valid : g.validate = .ok ()) (word : List String) : ∃ c accepted,
    g.normalize = .ok c ∧ c.accepts word = .ok accepted ∧ (accepted = true ↔ g.Generates word) := by
  obtain ⟨c, e, _, normalized, _, same⟩ := exists_normalize (validate_eq_ok_iff.1 valid)
  obtain ⟨accepted, e', h⟩ :=
    exists_accepts_iff_generates normalized.normal normalized.emptyOnlyAtStart word
  exact ⟨c, accepted, e, e', h.trans (same word)⟩

theorem accepts_normalize_crowded_iff : crowded.validate = .ok () ∧ ∃ c accepted,
    crowded.normalize = .ok c ∧ c.accepts ["a", "a", "c"] = .ok accepted ∧
      (accepted = true ↔ crowded.Generates ["a", "a", "c"]) :=
  ⟨validate_crowded, accepts_normalize_iff validate_crowded ["a", "a", "c"]⟩

end Grammar

end ChomskyNormal
