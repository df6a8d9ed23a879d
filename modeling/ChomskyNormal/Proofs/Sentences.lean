import ChomskyNormal.Proofs.Heights
import ChomskyNormal.Proofs.Simulation
import ChomskyNormal.Sentence

/-!
# Random sentences

Whatever the chooser picks, a nonterminal that has a height finds a candidate, and so do the
nonterminals of that candidate. So growth succeeds wherever the language has a word. From `maxDepth`
on a tree is exactly as high as its root says, which bounds the height of the whole derivation.
-/

namespace ChomskyNormal

variable {σ : Type}

namespace Heights

def greatest (heights : Heights) : Nat := (heights.entries.map Prod.snd).max?.getD 0

theorem le_greatest {heights : Heights} {name : String} {h : Nat} (e : heights.get? name = some h) :
    h ≤ heights.greatest :=
  List.le_max?_getD_of_mem (List.mem_map.2 ⟨_, OrderedMap.get?_eq_some_iff.1 e, rfl⟩)

end Heights

namespace Forest

/-- With roots at `depth`, every branch at `maxDepth` or deeper is as high as the height of its
nonterminal. -/
def LowestBeyond (heights : Heights) (depth : Nat) : Forest → Prop
  | nil => True
  | leaf _ rest => rest.LowestBeyond heights depth
  | branch name children rest =>
    (maxDepth ≤ depth → heights.get? name = some (branch name children nil).height) ∧
      children.LowestBeyond heights (depth + 1) ∧ rest.LowestBeyond heights depth

theorem height_le_of_lowestBeyond {heights : Heights} {depth : Nat} {f : Forest}
    (lowest : f.LowestBeyond heights depth) : f.height ≤ maxDepth - depth + heights.greatest := by
  induction f generalizing depth with
  | nil => exact Nat.zero_le _
  | leaf _ rest ih => exact ih lowest
  | branch name children rest ih₁ ih₂ =>
    have ⟨top, below, beside⟩ := lowest
    have le₁ := ih₁ below
    have le₂ := ih₂ beside
    simp only [height] at top ⊢
    by_cases deep : maxDepth ≤ depth
    · have := Heights.le_greatest (top deep)
      omega
    · omega

end Forest

theorem Chooser.exists_pickFrom {α : Type} (chooser : Chooser σ) {xs : List α} {x : α}
    (mem : x ∈ xs) (s : σ) :
    ∃ picked s', chooser.pickFrom xs s = .ok (picked, s') := by
  simp only [pickFrom, List.length_pos_of_mem mem, ↓reduceDIte]
  exact ⟨_, _, rfl⟩

namespace Grammar

variable {g : Grammar}

theorem mem_candidates {heights : Heights} {depth : Nat} {name : String} {right : Alternative} :
    right ∈ g.candidates heights depth name ↔ right ∈ g.alternatives name ∧
      ∃ h, heights.row? right = some h ∧
        (maxDepth ≤ depth → heights.least? (g.alternatives name) = some (h + 1)) := by
  simp only [candidates, List.mem_filter, OrderedSet.mem_toList, Bool.and_eq_true, Bool.or_eq_true,
    decide_eq_true_eq]
  apply and_congr_right
  intro _
  rw [Heights.alternative?]
  cases heights.row? right with
  | none => simp
  | some h =>
    simp only [Option.isSome_some, Option.map_some, Option.some.injEq, true_and, exists_eq_left']
    rw [← Nat.not_le, eq_comm]
    exact (Decidable.imp_iff_not_or).symm

theorem exists_candidate (depth : Nat) {name : String} {h : Nat}
    (e : g.heights.get? name = some h) :
    ∃ right, right ∈ g.candidates g.heights depth name := by
  rw [get?_heights] at e
  have ⟨⟨right, mem, found⟩, _⟩ := Heights.least?_eq_some_iff.1 e
  have ⟨k, row, same⟩ := Option.map_eq_some_iff.1 found
  exact ⟨right, mem_candidates.2 ⟨mem, k, row, fun _ => same ▸ e⟩⟩

theorem exists_grow (chooser : Chooser σ) (depth : Nat) (symbols : List Symbol) :
    ∀ h, g.heights.row? symbols = some h → ∀ s, ∃ f s',
      g.grow g.heights g.justified_heights chooser depth symbols s = .ok (f, s') ∧ f.Follows g ∧
        f.roots = symbols ∧ f.LowestBeyond g.heights depth ∧ (maxDepth ≤ depth → f.height = h) := by
  induction depth, symbols using grow.induct g g.heights g.justified_heights with
  | case1 depth =>
    intro h row s
    cases row
    refine ⟨.nil, s, ?_, trivial, rfl, trivial, fun _ => rfl⟩
    rw [grow]
    rfl
  | case2 depth name rest ih =>
    intro h row s
    obtain ⟨f, s', grown, follows, roots, lowest, high⟩ := ih h row s
    refine ⟨.leaf name f, s', ?_, follows, congrArg _ roots, lowest, high⟩
    simp only [grow, bind, StateT.bind, Except.bind, grown]
    rfl
  | case3 depth name rest ih₁ ih₂ =>
    intro h row s
    cases top : g.heights.get? name with
    | none =>
      rw [Heights.row?, top] at row
      contradiction
    | some first =>
      cases beside : g.heights.row? rest with
      | none =>
        rw [Heights.row?, top, beside] at row
        contradiction
      | some others =>
        simp only [Heights.row?, top, beside, Option.some.injEq] at row
        obtain ⟨_, offered⟩ := exists_candidate depth top
        obtain ⟨⟨right, mem⟩, s₁, picked⟩ := chooser.exists_pickFrom offered s
        obtain ⟨alternative, k, below, exact⟩ := mem_candidates.1 mem
        obtain ⟨children, s₂, grown, follows, roots, lowest, high⟩ := ih₁ right mem k below s₁
        obtain ⟨siblings, s₃, grown', follows', roots', lowest', high'⟩ := ih₂ others beside s₂
        have tall : maxDepth ≤ depth → first = children.height + 1 := by
          intro deep
          have same := exact deep
          rw [← get?_heights, top, Option.some.injEq] at same
          rw [same, high (by omega)]
        refine ⟨.branch name children siblings, s₃, ?_, ⟨roots ▸ alternative, follows, follows'⟩,
          congrArg _ roots', ⟨fun deep => ?_, lowest, lowest'⟩, fun deep => ?_⟩
        · simp only [grow, bind, StateT.bind, Except.bind, picked, grown, grown']
          rfl
        · rw [top, tall deep, Forest.height, Forest.height, Nat.max_zero]
        · rw [Forest.height, ← tall deep, high' deep, row]

theorem randomDerivation_of_unproductive (none : g.heights.get? g.start = none)
    (chooser : Chooser σ) (s : σ) :
    g.randomDerivation chooser s = .error .emptyLanguage := by
  rw [randomDerivation, none]
  rfl

theorem randomSentence_eq (g : Grammar) (chooser : Chooser σ) (s : σ) :
    g.randomSentence chooser s = (g.randomDerivation chooser s).map fun (f, s') =>
      (f.yield, s') := by
  simp only [randomSentence, bind, StateT.bind]
  cases g.randomDerivation chooser s <;> rfl

/-- For every chooser. Either there is no word and this is reported, or a derivation grows to its
end. -/
theorem exists_randomSentence (g : Grammar) (chooser : Chooser σ) (s : σ) :
    (g.randomSentence chooser s = .error .emptyLanguage ↔ ∀ word, ¬ g.Generates word) ∧
      ((∃ word, g.Generates word) → ∃ f s', g.randomDerivation chooser s = .ok (f, s') ∧
        g.randomSentence chooser s = .ok (f.yield, s') ∧ g.Generates f.yield ∧
          f.Follows g ∧ f.roots = [.nonterminal g.start] ∧
            f.height ≤ maxDepth + g.heights.greatest ∧ f.LowestBeyond g.heights 0) := by
  cases top : g.heights.get? g.start with
  | none =>
    have empty : ∀ word, ¬ g.Generates word := by
      intro word d
      have some := isSome_heights_of_derives d
      rw [top] at some
      contradiction
    refine ⟨⟨fun _ => empty, fun _ => ?_⟩, fun ⟨word, d⟩ => absurd d (empty word)⟩
    rw [randomSentence_eq, randomDerivation_of_unproductive top]
    rfl
  | some h =>
    have row : g.heights.row? [.nonterminal g.start] = some h := by
      simp only [Heights.row?, top, Nat.max_zero]
    obtain ⟨f, s', grown, follows, roots, lowest, _⟩ := exists_grow chooser 0 _ h row s
    have derived : g.randomDerivation chooser s = .ok (f, s') := by
      rw [randomDerivation, top]
      exact grown
    have sentence : g.randomSentence chooser s = .ok (f.yield, s') := by
      rw [randomSentence_eq, derived]
      rfl
    have generated : g.Generates f.yield := derives_iff_exists_forest.2 ⟨f, follows, roots, rfl⟩
    refine ⟨⟨fun e => ?_, fun empty => absurd generated (empty _)⟩, fun _ => ?_⟩
    · rw [sentence] at e
      contradiction
    · exact ⟨f, s', derived, sentence, generated, follows, roots,
        Forest.height_le_of_lowestBeyond lowest, lowest⟩

end Grammar

end ChomskyNormal
