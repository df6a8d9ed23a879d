import ChomskyNormal.Proofs.Membership
import ChomskyNormal.Recognition

/-!
# Filling the table

At any time the table holds the final cells of the spans that have been treated and empty cells
elsewhere. Treating the next span reads cells of shorter spans only, so it finds them final, and
enters at its own position only. All these positions are inside the square, so no run fails, and the
table ends up with the cells of the chart.
-/

namespace ChomskyNormal

abbrev Cells := Nat → Nat → Cell

namespace Cells

variable {cells : Cells} {len i len' i' : Nat} {a b : Cell}

def put (cells : Cells) (len i : Nat) (cell : Cell) : Cells :=
  fun len' i' => if len' = len ∧ i' = i then cell else cells len' i'

theorem put_self (cells : Cells) (len i : Nat) (cell : Cell) : cells.put len i cell len i = cell :=
  if_pos ⟨rfl, rfl⟩

theorem put_of_ne (cells : Cells) (i i' : Nat) (cell : Cell) (ne : len' ≠ len) :
    cells.put len i cell len' i' = cells len' i' :=
  if_neg fun same => ne same.1

theorem put_put (cells : Cells) (len i : Nat) (a b : Cell) :
    (cells.put len i a).put len i b = cells.put len i b := by
  funext len' i'
  simp only [put]
  split <;> rfl

theorem put_same (cells : Cells) (len i : Nat) : cells.put len i (cells len i) = cells := by
  funext len' i'
  simp only [put]
  split
  · next same => rw [same.1, same.2]
  · rfl

/-- The cells of the spans before this one, in the order in which they are treated. -/
def before (cells : Cells) (len i : Nat) : Cells :=
  fun len' i' => if len' < len ∨ len' = len ∧ i' < i then cells len' i' else ∅

theorem before_of_lt (cells : Cells) (i i' : Nat) (lt : len' < len) :
    cells.before len i len' i' = cells len' i' :=
  if_pos (.inl lt)

theorem before_self (cells : Cells) (len i : Nat) : cells.before len i len i = ∅ :=
  if_neg (by omega)

theorem before_succ (cells : Cells) (len i : Nat) :
    cells.before len (i + 1) = (cells.before len i).put len i (cells len i) := by
  funext len' i'
  by_cases same : len' = len ∧ i' = i
  · obtain ⟨rfl, rfl⟩ := same
    rw [put_self, before, if_pos (by omega)]
  · rw [put, if_neg same, before, before]
    exact if_congr (by omega) rfl rfl

end Cells

namespace Table

open Grammar

/-- The table is a square of side `n` with these cells. -/
def Shows (table : Table) (n : Nat) (cells : Cells) : Prop :=
  ∀ len i, 0 < len → len ≤ n → i < n → table.cell? len i = some (cells len i)

theorem shows_blank (n : Nat) (cells : Cells) : (blank n).Shows n (cells.before 1 0) := by
  intro len i pos le lt
  cases len with
  | zero => omega
  | succ len => simp [blank, cell?, Cells.before, show len < n by omega, lt]

variable {table : Table} {n len i : Nat} {cells cells' : Cells}

theorem Shows.congr (shows : table.Shows n cells)
    (agree : ∀ len i, 0 < len → len ≤ n → i < n → cells len i = cells' len i) :
    table.Shows n cells' := by
  intro len i pos le lt
  rw [shows len i pos le lt, agree len i pos le lt]

theorem enter?_of_cell? {cell : Cell} (inside : table.cell? len i = some cell) (name : String) :
    ∃ table', table.enter? len i name = some table' ∧ ∀ len' i', table'.cell? len' i' =
      if len' = len ∧ i' = i then some (cell.insert name) else table.cell? len' i' := by
  cases len with
  | zero => contradiction
  | succ len =>
    obtain ⟨row, hr, hc⟩ := Option.bind_eq_some_iff.1 inside
    obtain ⟨len_lt, rfl⟩ := Array.getElem?_eq_some_iff.1 hr
    obtain ⟨i_lt, rfl⟩ := Array.getElem?_eq_some_iff.1 hc
    refine ⟨_, by rw [enter?, hr, Option.bind_eq_bind, Option.bind_some, hc]; rfl,
      fun len' i' => ?_⟩
    cases len' with
    | zero =>
      rw [if_neg (by omega)]
      rfl
    | succ len' =>
      by_cases same : len' = len
      · subst same
        by_cases same' : i' = i
        · subst same'
          simp [cell?, len_lt, i_lt]
        · simp [cell?, len_lt, same', Ne.symm same']
      · simp [cell?, same, Ne.symm same]

theorem Shows.exists_enter {cell : Cell} (shows : table.Shows n (cells.put len i cell))
    (pos : 0 < len) (le : len ≤ n) (lt : i < n) (name : String) :
    ∃ table', table.enter? len i name = some table' ∧
      table'.Shows n (cells.put len i (cell.insert name)) := by
  have inside := shows len i pos le lt
  rw [Cells.put_self] at inside
  obtain ⟨table', e, after⟩ := enter?_of_cell? inside name
  refine ⟨table', e, fun len' i' pos' le' lt' => ?_⟩
  rw [after, shows len' i' pos' le' lt', Cells.put, Cells.put]
  by_cases same : len' = len ∧ i' = i
  · rw [if_pos same, if_pos same]
  · rw [if_neg same, if_neg same, if_neg same]

theorem exists_foldlM_enter {α : Type} {step : Table → α → Option Table} {names : α → List String}
    {xs : List α} (enters : ∀ x ∈ xs, ∀ cell table, Shows table n (cells.put len i cell) →
      ∃ table', step table x = some table' ∧
      table'.Shows n (cells.put len i (cell.insertMany (names x)))) {cell : Cell}
    (shows : table.Shows n (cells.put len i cell)) : ∃ table', xs.foldlM step table = some table' ∧
      table'.Shows n (cells.put len i (cell.insertMany (xs.flatMap names))) := by
  induction xs generalizing cell table with
  | nil => exact ⟨table, rfl, shows⟩
  | cons x xs ih =>
    obtain ⟨table₁, e₁, shows₁⟩ := enters x (.head _) cell table shows
    obtain ⟨table', e, shows'⟩ := ih (fun x' mem => enters x' (.tail _ mem)) shows₁
    refine ⟨table', ?_, ?_⟩
    · rw [List.foldlM_cons, e₁]
      exact e
    · rw [List.flatMap_cons, OrderedSet.insertMany_append]
      exact shows'

theorem exists_foldlM_range' {step : Table → Nat → Option Table} (stages : Nat → Cells)
    {first count : Nat}
    (keeps : ∀ k table, first ≤ k → k < first + count → Shows table n (stages k) →
      ∃ table', step table k = some table' ∧ table'.Shows n (stages (k + 1)))
    (shows : table.Shows n (stages first)) :
    ∃ table', (List.range' first count).foldlM step table = some table' ∧
      table'.Shows n (stages (first + count)) := by
  induction count generalizing first table with
  | zero => exact ⟨table, rfl, shows⟩
  | succ count ih =>
    obtain ⟨table₁, e₁, shows₁⟩ := keeps first table (by omega) (by omega) shows
    obtain ⟨table', e, shows'⟩ :=
      ih (fun k table ge lt => keeps k table (by omega) (by omega)) shows₁
    refine ⟨table', ?_, ?_⟩
    · rw [List.range'_succ, List.foldlM_cons, e₁]
      exact e
    · rwa [Nat.add_right_comm] at shows'

theorem Shows.exists_seedCell (shows : table.Shows n cells) (lt : i < n)
    (terminals : List (String × String)) {word : List String} {symbol : String}
    (at_i : word[i]? = some symbol) :
    ∃ table', table.seedCell terminals word i = some table' ∧
      table'.Shows n
        (cells.put 1 i ((cells 1 i).insertMany (deriveTerminal terminals symbol))) := by
  rw [← cells.put_same 1 i] at shows
  rw [seedCell, at_i, deriveTerminal, List.filterMap_eq_flatMap_toList]
  refine exists_foldlM_enter (fun production _ cell table shows => ?_) shows
  obtain ⟨left, terminal⟩ := production
  dsimp only
  by_cases same : terminal = symbol
  · rw [if_pos same, if_pos same]
    exact shows.exists_enter Nat.one_pos (by omega) lt left
  · rw [if_neg same, if_neg same]
    exact ⟨table, rfl, shows⟩

theorem Shows.exists_fillSplit (shows : table.Shows n cells) (fits : i + len ≤ n) {split : Nat}
    (pos : 0 < split) (lt : split < len) (pairs : List (String × String × String)) :
    ∃ table', table.fillSplit pairs len i split = some table' ∧ table'.Shows n (cells.put len i
      ((cells len i).insertMany
        (derivePair pairs (cells split i) (cells (len - split) (i + split))))) := by
  rw [← cells.put_same len i] at shows
  rw [fillSplit, derivePair, List.filterMap_eq_flatMap_toList]
  refine exists_foldlM_enter (fun production _ cell table shows => ?_) shows
  obtain ⟨left, first, second⟩ := production
  have front := shows split i pos (by omega) (by omega)
  have back := shows (len - split) (i + split) (by omega) (by omega) (by omega)
  -- both parts are shorter than the span, so what has been entered for it so far does not show
  have front_ne : split ≠ len := by omega
  have back_ne : len - split ≠ len := by omega
  rw [cells.put_of_ne _ _ _ front_ne] at front
  rw [cells.put_of_ne _ _ _ back_ne] at back
  simp only [front, back, Option.bind_eq_bind, Option.bind_some]
  by_cases inside : first ∈ cells split i ∧ second ∈ cells (len - split) (i + split)
  · rw [if_pos inside.1, if_pos inside.2, if_pos inside]
    exact shows.exists_enter (by omega) (by omega) (by omega) left
  · rw [if_neg inside]
    refine ⟨table, ?_, shows⟩
    by_cases first_in : first ∈ cells split i
    · rw [if_pos first_in, if_neg fun second_in => inside ⟨first_in, second_in⟩]
    · rw [if_neg first_in]

theorem Shows.exists_fillCell (shows : table.Shows n cells) (fits : i + len ≤ n)
    (pairs : List (String × String × String)) :
    ∃ table', table.fillCell pairs len i = some table' ∧ table'.Shows n (cells.put len i
      ((cells len i).insertMany ((List.range' 1 (len - 1)).flatMap fun split =>
        derivePair pairs (cells split i) (cells (len - split) (i + split))))) := by
  rw [← cells.put_same len i] at shows
  refine exists_foldlM_enter (fun split mem cell table shows => ?_) shows
  obtain ⟨ge, lt⟩ := List.mem_range'_1.1 mem
  have front_ne : split ≠ len := by omega
  have back_ne : len - split ≠ len := by omega
  have filled := shows.exists_fillSplit fits ge (by omega) pairs
  rw [Cells.put_self, Cells.put_put, cells.put_of_ne _ _ _ front_ne,
    cells.put_of_ne _ _ _ back_ne] at filled
  exact filled

end Table

namespace Grammar

open Table

variable {g : Grammar} {word : List String} {len i : Nat}

def cells (g : Grammar) (word : List String) : Cells := fun len i =>
  if h : 0 < len ∧ i + len ≤ word.length then
    (g.chart word word.length).cell (len - 1) i (by omega) (by omega)
  else ∅

theorem cells_succ (g : Grammar) {height : Nat} (hlen : len < height) (hi : i + len < word.length) :
    g.cells word (len + 1) i = (g.chart word height).cell len i hlen hi := by
  rw [cells, dif_pos (by omega)]
  cases len with
  | zero => exact (g.cell_chart_zero word _ hi).trans (g.cell_chart_zero word hlen hi).symm
  | succ len =>
    exact (g.cell_chart_succ word _ (by omega)).trans (g.cell_chart_succ word hlen (by omega)).symm

theorem cells_one {symbol : String} (at_i : word[i]? = some symbol) :
    g.cells word 1 i = .ofList (deriveTerminal g.terminalProductions symbol) := by
  obtain ⟨lt, rfl⟩ := List.getElem?_eq_some_iff.1 at_i
  rw [g.cells_succ Nat.one_pos lt, cell_chart_zero]

theorem cells_of_two_le (ge : 2 ≤ len) (fits : i + len ≤ word.length) :
    g.cells word len i = .ofList ((List.range' 1 (len - 1)).flatMap fun split =>
      derivePair g.pairProductions (g.cells word split i)
        (g.cells word (len - split) (i + split))) := by
  obtain ⟨len, rfl⟩ := Nat.exists_eq_add_of_le' ge
  -- the chart counts its split points from zero, the table from one
  have splits : List.range' 1 (len + 2 - 1) = (List.finRange (len + 1)).map fun split =>
    split.val + 1 := by
    rw [List.range'_eq_map_range, ← List.map_coe_finRange_eq_range, List.map_map]
    exact List.map_congr_left fun split _ => Nat.add_comm 1 split.val
  rw [g.cells_succ (Nat.lt_succ_self _) (by omega), cell_chart_succ _ _ _ (by omega), spanCell,
    splits, List.flatMap_map]
  congr 2
  funext split
  have rest : len + 2 - (split.val + 1) = len + 1 - split.val - 1 + 1 := by omega
  have front_fits : i + split.val < word.length := by omega
  have back_lt : len + 1 - split.val - 1 < len + 1 := by omega
  have back_fits : i + (split.val + 1) + (len + 1 - split.val - 1) < word.length := by omega
  rw [rest, g.cells_succ split.isLt front_fits, g.cells_succ back_lt back_fits]
  rfl

theorem cells_of_lt (lt : word.length < i + len) : g.cells word len i = ∅ := dif_neg (by omega)

theorem exists_seedCell_before {table : Table} (lt : i < word.length)
    (shows : table.Shows word.length ((g.cells word).before 1 i)) :
    ∃ table', table.seedCell g.terminalProductions word i = some table' ∧
      table'.Shows word.length ((g.cells word).before 1 (i + 1)) := by
  have at_i := List.getElem?_eq_getElem lt
  obtain ⟨table', e, shows'⟩ := shows.exists_seedCell lt g.terminalProductions at_i
  refine ⟨table', e, ?_⟩
  rwa [Cells.before_self, ← OrderedSet.ofList, ← cells_one at_i, ← Cells.before_succ] at shows'

theorem exists_fillCell_before {table : Table} (ge : 2 ≤ len) (fits : i + len ≤ word.length)
    (shows : table.Shows word.length ((g.cells word).before len i)) :
    ∃ table', table.fillCell g.pairProductions len i = some table' ∧
      table'.Shows word.length ((g.cells word).before len (i + 1)) := by
  have final : ((List.range' 1 (len - 1)).flatMap fun split => derivePair g.pairProductions
        ((g.cells word).before len i split i)
          ((g.cells word).before len i (len - split) (i + split))) =
      (List.range' 1 (len - 1)).flatMap fun split =>
        derivePair g.pairProductions (g.cells word split i)
        (g.cells word (len - split) (i + split)) := by
    refine List.flatMap_congr fun split mem => ?_
    obtain ⟨ge, lt⟩ := List.mem_range'_1.1 mem
    rw [Cells.before_of_lt _ _ _ (by omega), Cells.before_of_lt _ _ _ (by omega)]
  obtain ⟨table', e, shows'⟩ := shows.exists_fillCell fits g.pairProductions
  refine ⟨table', e, ?_⟩
  rwa [Cells.before_self, ← OrderedSet.ofList, final, ← cells_of_two_le ge fits,
    ← Cells.before_succ] at shows'

theorem shows_before_succ {table : Table} {last : Nat} (le : word.length < last + len)
    (shows : table.Shows word.length ((g.cells word).before len last)) :
    table.Shows word.length ((g.cells word).before (len + 1) 0) := by
  -- The positions that a row leaves out belong to no span.
  refine shows.congr fun len' i pos _ lt => ?_
  by_cases out : len' = len ∧ last ≤ i
  · rw [Cells.before, if_neg (by omega), Cells.before, if_pos (by omega), cells_of_lt (by omega)]
  · exact if_congr (by omega) rfl rfl

theorem exists_seed (g : Grammar) (word : List String) :
    ∃ table, (blank word.length).seed g.terminalProductions word = some table ∧
      table.Shows word.length ((g.cells word).before 2 0) := by
  have run : ∃ table, (blank word.length).seed g.terminalProductions word = some table ∧
      table.Shows word.length ((g.cells word).before 1 (0 + word.length)) :=
    exists_foldlM_range' ((g.cells word).before 1)
      (fun i table _ lt => exists_seedCell_before (by omega))
      (shows_blank word.length (g.cells word))
  obtain ⟨table, e, shows⟩ := run
  exact ⟨table, e, shows_before_succ (by omega) shows⟩

theorem exists_fillRow {table : Table} (ge : 2 ≤ len) (le : len ≤ word.length)
    (shows : table.Shows word.length ((g.cells word).before len 0)) :
    ∃ table', table.fillRow g.pairProductions word.length len = some table' ∧
      table'.Shows word.length ((g.cells word).before (len + 1) 0) := by
  have run : ∃ table', table.fillRow g.pairProductions word.length len = some table' ∧
      table'.Shows word.length ((g.cells word).before len (0 + (word.length - len + 1))) :=
    exists_foldlM_range' ((g.cells word).before len)
      (fun i table _ lt => exists_fillCell_before ge (by omega)) shows
  obtain ⟨table', e, shows'⟩ := run
  exact ⟨table', e, shows_before_succ (by omega) shows'⟩

theorem exists_fillTable (g : Grammar) (word : List String) :
    ∃ table, g.fillTable word = some table ∧ table.Shows word.length (g.cells word) := by
  obtain ⟨seeded, e, shows⟩ := g.exists_seed word
  have run : ∃ table, (List.range' 2 (word.length - 1)).foldlM
        (fun table len => table.fillRow g.pairProductions word.length len) seeded = some table ∧
      table.Shows word.length ((g.cells word).before (2 + (word.length - 1)) 0) :=
    exists_foldlM_range' ((g.cells word).before · 0)
      (fun len table ge lt => exists_fillRow ge (by omega)) shows
  obtain ⟨table, e', shows'⟩ := run
  refine ⟨table, ?_, shows'.congr fun len i _ le _ => ?_⟩
  · rw [fillTable, e]
    exact e'
  · exact Cells.before_of_lt _ _ _ (by omega)

theorem mem_cells_iff (normal : g.isNormal = true) (pos : 0 < len) (fits : i + len ≤ word.length)
    {name : String} :
    name ∈ g.cells word len i ↔ g.withoutEmpty.Derives [.nonterminal name] (span word i len) := by
  rw [cells, dif_pos ⟨pos, fits⟩, mem_cell_iff normal, Nat.sub_add_cancel pos]

theorem acceptsByTable_eq (g : Grammar) (word : List String) :
    g.acceptsByTable word = some (g.accepts word) := by
  rw [acceptsByTable, accepts]
  by_cases normal : g.isNormal = true
  · rw [if_pos normal, if_pos normal]
    by_cases empty : word.length = 0
    · rw [dif_pos empty, if_pos (List.isEmpty_iff_length_eq_zero.2 empty)]
    · obtain ⟨table, e, shows⟩ := g.exists_fillTable word
      have cell := shows word.length 0 (by omega) (Nat.le_refl _) (by omega)
      rw [cells, dif_pos (by omega)] at cell
      rw [dif_neg empty, if_neg (mt List.isEmpty_iff_length_eq_zero.1 empty), e,
        Option.bind_eq_bind, Option.bind_some, cell]
      rfl
  · rw [if_neg normal, if_neg normal]

theorem accepts_eq_notInNormalForm_iff (g : Grammar) (word : List String) :
    g.accepts word = .error .notInNormalForm ↔ g.isNormal = false := by
  rw [accepts]
  cases g.isNormal with
  | false => exact iff_of_true rfl rfl
  | true =>
    refine iff_of_false (fun e => ?_) (by simp)
    rw [if_pos rfl] at e
    split at e
    · contradiction
    · contradiction

theorem isNormal_eq_false_iff : g.isNormal = false ↔ ∃ left, ∃ right ∈ g.alternatives left,
    (∀ terminal, right ≠ [.terminal terminal]) ∧
      (∀ first second, right ≠ [.nonterminal first, .nonterminal second]) ∧
      ¬ (right = [] ∧ left = g.start) := by
  rw [← Bool.not_eq_true, isNormal_iff]
  simp only [Alternative.isNormal_iff, not_forall, not_or, not_exists, exists_prop,
    ne_eq, and_assoc]

/-- Only the normal form is checked. Then no position is outside the table, and its cells decide. -/
theorem acceptsByTable_exact (g : Grammar) (word : List String) :
    g.acceptsByTable word = some (g.accepts word) ∧
      (g.accepts word = .error .notInNormalForm ↔ ∃ left, ∃ right ∈ g.alternatives left,
        (∀ terminal, right ≠ [.terminal terminal]) ∧
          (∀ first second, right ≠ [.nonterminal first, .nonterminal second]) ∧
            ¬ (right = [] ∧ left = g.start)) ∧
      (g.accepts word ≠ .error .notInNormalForm →
        (∃ table, g.fillTable word = some table ∧ ∀ len i, 1 ≤ len → i + len ≤ word.length →
          ∃ cell, table.cell? len i = some cell ∧
            ∀ name, name ∈ cell ↔ g.withoutEmpty.Derives [.nonterminal name] (span word i len)) ∧
        ∃ accepted, g.accepts word = .ok accepted ∧
          (word ≠ [] → (accepted = true ↔ g.withoutEmpty.Generates word)) ∧
          (word = [] → (accepted = true ↔ [] ∈ g.alternatives g.start))) := by
  refine ⟨g.acceptsByTable_eq word,
    (g.accepts_eq_notInNormalForm_iff word).trans isNormal_eq_false_iff, ?_⟩
  intro known
  have normal : g.isNormal = true := by
    by_contra other
    exact known ((g.accepts_eq_notInNormalForm_iff word).2 (Bool.eq_false_iff.2 other))
  refine ⟨?_, ?_⟩
  · obtain ⟨table, e, shows⟩ := g.exists_fillTable word
    refine ⟨table, e, fun len i pos fits =>
      ⟨g.cells word len i, ?_, fun name => mem_cells_iff normal pos fits⟩⟩
    exact shows len i pos (by omega) (by omega)
  · obtain ⟨accepted, e, decides⟩ := exists_accepts normal word
    refine ⟨accepted, e, fun nonempty => ?_, fun empty => ?_⟩
    · simpa only [nonempty, false_and, false_or, ne_eq, not_false_eq_true, true_and] using decides
    · simpa only [empty, ne_eq, not_true_eq_false, false_and, or_false, true_and] using decides

def nested : Grammar :=
  (bare "S" ["S", "T", "A", "B"] ["a", "b"]).addProductions
    [("S", []), ("S", [.nonterminal "A", .nonterminal "B"]),
      ("S", [.nonterminal "A", .nonterminal "T"]), ("T", [.nonterminal "S", .nonterminal "B"]),
        ("A", [.terminal "a"]), ("B", [.terminal "b"])]

example : nested.acceptsByTable ["a", "a", "b", "b"] = some (.ok true) := by decide +kernel

theorem acceptsByTable_nested_exact :
    nested.accepts ["a", "a", "b", "b"] ≠ .error .notInNormalForm ∧
    (∃ table cell, nested.fillTable ["a", "a", "b", "b"] = some table ∧
      table.cell? 2 1 = some cell ∧
      ∀ name, name ∈ cell ↔ nested.withoutEmpty.Derives [.nonterminal name] ["a", "b"]) ∧
    ∃ accepted, nested.accepts ["a", "a", "b", "b"] = .ok accepted ∧
      (accepted = true ↔ nested.withoutEmpty.Generates ["a", "a", "b", "b"]) := by
  have normal : nested.isNormal = true := by decide
  have known : nested.accepts ["a", "a", "b", "b"] ≠ .error .notInNormalForm := by
    rw [ne_eq, accepts_eq_notInNormalForm_iff, normal]
    exact Bool.noConfusion
  obtain ⟨_, _, otherwise⟩ := acceptsByTable_exact nested ["a", "a", "b", "b"]
  obtain ⟨⟨table, e, shows⟩, accepted, e', decides, _⟩ := otherwise known
  obtain ⟨cell, at_span, members⟩ := shows 2 1 (by decide) (by decide)
  exact ⟨known, ⟨table, cell, e, at_span, members⟩, accepted, e', decides (by simp)⟩

end Grammar

end ChomskyNormal
