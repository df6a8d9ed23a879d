import ChomskyNormal.Analysis.Height
import ChomskyNormal.Derivation
import ChomskyNormal.Grammar.Validity

/-!
# Random sentences

A chooser picks one of finitely many possibilities and goes on to its next state; `Draws` makes its
choices by rejection from a source of 32-bit numbers. A derivation grows from the start symbol,
depth first and from left to right, and the chooser picks the alternative at each nonterminal. From
`maxDepth` on only the lowest alternatives are offered. Their nonterminals have smaller heights, so
every derivation ends.
-/

namespace ChomskyNormal

structure Chooser (σ : Type) where
  pick : (n : Nat) → 0 < n → σ → Fin n × σ

structure Draws where
  script : List UInt32
  state : UInt32

namespace Draws

def draw (d : Draws) : UInt32 × Draws :=
  match d.script with
  | v :: script => (v, { d with script })
  | [] =>
    let state := d.state * 1664525 + 1013904223
    (state, { d with state })

/-- The greatest fraction with which a draw is accepted: `n` shifted to fill 32 bits, less one. -/
def zone (n : Nat) : Nat := n <<< (31 - n.log2) - 1

/-- A draw `v` stands for the whole part of `v * n / 2 ^ 32`, unless the fraction is beyond the
zone, which would favour some results. -/
def index (n : Nat) (pos : 0 < n) : (attempts : Nat) → Draws → Fin n × Draws
  | 0, d => (⟨0, pos⟩, d)
  | attempts + 1, d =>
    let (v, d) := d.draw
    if v.toNat * n % UInt32.size ≤ zone n then
      (⟨v.toNat * n / UInt32.size,
        Nat.div_lt_of_lt_mul (Nat.mul_lt_mul_of_pos_right v.toNat_lt pos)⟩, d)
    else index n pos attempts d

/-- The congruential sequence passes through all 32-bit numbers, so that many attempts beyond the
script suffice. -/
def chooser : Chooser Draws where
  pick n pos d := d.index n pos (d.script.length + UInt32.size)

end Draws

def maxDepth : Nat := 16

abbrev Growing (σ : Type) := StateT σ (Except GrammarError)

variable {σ α : Type}

def Chooser.pickFrom (chooser : Chooser σ) (xs : List α) : Growing σ { x // x ∈ xs } := fun s =>
  if h : 0 < xs.length then
    let (i, s) := chooser.pick xs.length h s
    .ok (⟨xs[i], List.getElem_mem i.isLt⟩, s)
  else .error .emptyLanguage

namespace Heights

def least (heights : Heights) (g : Grammar) (name : String) : Nat :=
  (heights.least? (g.alternatives name)).getD 0

def ceiling (heights : Heights) (g : Grammar) : List Symbol → Nat
  | [] => 0
  | .terminal _ :: rest => heights.ceiling g rest
  | .nonterminal name :: rest => max (heights.least g name) (heights.ceiling g rest)

theorem ceiling_le_of_row? {heights : Heights} {g : Grammar} (justified : heights.Justified g)
    {symbols : List Symbol} {h : Nat} (e : heights.row? symbols = some h) :
    heights.ceiling g symbols ≤ h := by
  induction symbols generalizing h with
  | nil => exact Nat.zero_le h
  | cons symbol rest ih =>
    cases symbol with
    | terminal => exact ih e
    | nonterminal name =>
      simp only [row?] at e
      split at e
      · next first others e₁ e₂ =>
        cases e
        obtain ⟨k, le, ek⟩ := justified name first e₁
        have := ih e₂
        simp only [ceiling, least, ek, Option.getD_some]
        omega
      · contradiction

end Heights

namespace Grammar

/-- The alternatives to choose from: those that can be completed, and at the greatest depth only the
lowest of them. -/
def candidates (g : Grammar) (heights : Heights) (depth : Nat) (name : String) : List Alternative :=
  let rights := g.alternatives name
  rights.toList.filter fun right =>
    (heights.alternative? right).isSome &&
      (depth < maxDepth || heights.alternative? right = heights.least? rights)

theorem ceiling_lt_of_mem_candidates {g : Grammar} {heights : Heights}
    (justified : heights.Justified g) {depth : Nat} (deep : maxDepth ≤ depth) {name : String}
    {right : Alternative} (mem : right ∈ g.candidates heights depth name) :
    heights.ceiling g right < heights.least g name := by
  simp only [candidates, List.mem_filter, Bool.and_eq_true, Bool.or_eq_true,
    decide_eq_true_eq] at mem
  obtain ⟨_, some, lowest⟩ := mem
  obtain ⟨h, e⟩ := Option.isSome_iff_exists.1 some
  have lowest := lowest.resolve_left (by omega)
  obtain ⟨k, ek, rfl⟩ := Option.map_eq_some_iff.1 e
  have := Heights.ceiling_le_of_row? justified ek
  rw [Heights.least, ← lowest, e]
  exact Nat.lt_succ_of_le this

def grow (g : Grammar) (heights : Heights) (justified : heights.Justified g) (chooser : Chooser σ)
    (depth : Nat) : List Symbol → Growing σ Forest
  | [] => pure .nil
  | .terminal name :: rest => do
    let others ← g.grow heights justified chooser depth rest
    return .leaf name others
  | .nonterminal name :: rest => do
    let ⟨right, _mem⟩ ← chooser.pickFrom (g.candidates heights depth name)
    let children ← g.grow heights justified chooser (depth + 1) right
    let others ← g.grow heights justified chooser depth rest
    return .branch name children others
termination_by symbols => (maxDepth - depth, heights.ceiling g symbols, symbols.length)
decreasing_by
  · exact .right _ (.right _ (by simp))
  · by_cases deep : maxDepth ≤ depth
    · have := ceiling_lt_of_mem_candidates justified deep _mem
      have e : maxDepth - (depth + 1) = maxDepth - depth := by omega
      rw [e]
      exact .right _ (.left _ _ (by simp only [Heights.ceiling]; omega))
    · exact .left _ _ (by omega)
  · have : heights.ceiling g rest ≤ heights.ceiling g (.nonterminal name :: rest) := by
      simp only [Heights.ceiling]; omega
    rcases Nat.lt_or_eq_of_le this with lt | eq
    · exact .right _ (.left _ _ lt)
    · rw [eq]
      exact .right _ (.right _ (by simp))

def randomDerivation (g : Grammar) (chooser : Chooser σ) : Growing σ Forest :=
  let heights := g.heights
  if (heights.get? g.start).isSome then
    g.grow heights g.justified_heights chooser 0 [.nonterminal g.start]
  else throw .emptyLanguage

def randomSentence (g : Grammar) (chooser : Chooser σ) : Growing σ (List String) := do
  let forest ← g.randomDerivation chooser
  return forest.yield

def randomSentences (g : Grammar) (chooser : Chooser σ) : Nat → Growing σ (List (List String))
  | 0 => return []
  | count + 1 => do
    let first ← g.randomSentence chooser
    let others ← g.randomSentences chooser count
    return first :: others

end Grammar

end ChomskyNormal
