import ChomskyNormal.Analysis.Height
import ChomskyNormal.Derivation

/-!
# Heights as a fixed point

When no estimate can be lowered any more, the height of a nonterminal is exactly the least height of
its alternatives. So every derivation tree is at least as high as its root says, and every
productive nonterminal has a height.
-/

namespace ChomskyNormal

namespace Heights

theorem not_lex_self (p : Nat × Nat) : ¬ Prod.Lex (· < ·) (· < ·) p p := by
  rw [Prod.lex_def]
  omega

theorem lowerRule_eq_of_lowerRound {rules : List (String × OrderedSet Alternative)}
    {heights : Heights} (stable : lowerRound rules heights = heights)
    {rule : String × OrderedSet Alternative} (mem : rule ∈ rules) :
    heights.lowerRule rule = heights := by
  induction rules with
  | nil => contradiction
  | cons first rules ih =>
    have names : ∀ rule ∈ first :: rules, rule.1 ∈ (first :: rules).map Prod.fst := fun _ =>
      List.mem_map_of_mem
    have kept : heights.lowerRule first = heights := by
      rcases lowerRule_eq_or heights first (names first (.head _)) with e | lower
      · exact e
      · -- What the first rule lowers, the others do not raise again.
        exfalso
        have others :=
          lowerRound_eq_or rules (heights.lowerRule first) fun r mem => names r (.tail _ mem)
        rw [show lowerRound rules (heights.lowerRule first) = heights from stable] at others
        rcases others with e | lower'
        · rw [← e] at lower
          exact not_lex_self _ lower
        · rw [Prod.lex_def] at lower lower'
          omega
    rcases List.mem_cons.1 mem with rfl | mem
    · exact kept
    · refine ih ?_ mem
      have others : lowerRound rules (heights.lowerRule first) = heights := stable
      rwa [kept] at others

theorem exists_get?_lowerRule {heights : Heights} (rule : String × OrderedSet Alternative) {h : Nat}
    (e : heights.least? rule.2 = some h) :
    ∃ h' ≤ h, (heights.lowerRule rule).get? rule.1 = some h' := by
  simp only [lowerRule, e]
  split
  · exact ⟨h, Nat.le_refl h, by rw [OrderedMap.get?_insert, if_pos rfl]⟩
  · next settled =>
    simp only [Improves, Classical.not_forall, Nat.not_lt] at settled
    obtain ⟨old, found, le⟩ := settled
    exact ⟨old, le, found⟩

end Heights

namespace Grammar

variable {g : Grammar}

theorem lowerRound_heights (g : Grammar) :
    Heights.lowerRound g.rules.entries g.heights = g.heights :=
  step_untilStable _

theorem get?_heights (g : Grammar) (name : String) :
    g.heights.get? name = g.heights.least? (g.alternatives name) := by
  have lowered {h : Nat} (e : g.heights.least? (g.alternatives name) = some h) :
      ∃ h' ≤ h, g.heights.get? name = some h' := by
    obtain ⟨⟨right, mem, _⟩, _⟩ := Heights.least?_eq_some_iff.1 e
    obtain ⟨rights, entry, _⟩ := mem_alternatives_iff.1 mem
    have same : g.alternatives name = rights := by
      rw [alternatives, OrderedMap.get?_eq_some_iff.2 entry]
      rfl
    rw [same] at e
    have lowered := Heights.exists_get?_lowerRule (name, rights) e
    rwa [Heights.lowerRule_eq_of_lowerRound g.lowerRound_heights entry] at lowered
  cases e : g.heights.get? name with
  | some h =>
    obtain ⟨h', le, e'⟩ := g.justified_heights name h e
    obtain ⟨h'', le', e''⟩ := lowered e'
    rw [e, Option.some.injEq] at e''
    rw [e', show h = h' by omega]
  | none =>
    cases e' : g.heights.least? (g.alternatives name) with
    | none => rfl
    | some h =>
      obtain ⟨_, _, found⟩ := lowered e'
      rw [e] at found
      contradiction

theorem exists_row?_le_height {f : Forest} (follows : f.Follows g) :
    ∃ h ≤ f.height, g.heights.row? f.roots = some h := by
  induction f with
  | nil => exact ⟨0, Nat.le_refl 0, rfl⟩
  | leaf _ rest ih => exact ih follows
  | branch name children rest ih₁ ih₂ =>
    obtain ⟨mem, below, beside⟩ := follows
    obtain ⟨h₁, le₁, e₁⟩ := ih₁ below
    obtain ⟨h₂, le₂, e₂⟩ := ih₂ beside
    have found : g.heights.alternative? children.roots = some (h₁ + 1) := by
      rw [Heights.alternative?, e₁]; rfl
    obtain ⟨h, le, least⟩ := Heights.exists_least? mem found
    refine ⟨max h h₂, ?_, ?_⟩
    · simp only [Forest.height]
      omega
    · simp only [Forest.roots, Heights.row?, get?_heights, least, e₂]

theorem isSome_heights_of_derives {name : String} {word : List String}
    (d : g.Derives [.nonterminal name] word) :
    (g.heights.get? name).isSome := by
  have ⟨f, follows, roots, _⟩ := derives_iff_exists_forest.1 d
  have ⟨h, _, e⟩ := exists_row?_le_height follows
  rw [roots] at e
  cases found : g.heights.get? name with
  | some => rfl
  | none =>
    rw [Heights.row?, found] at e
    contradiction

end Grammar

end ChomskyNormal
