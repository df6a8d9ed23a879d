import ChomskyNormal.Grammar.Basic

/-!
# Derivations

`Derives` says which words a sentential form derives. A derivation is a row of trees, one for each
symbol of the form; its yield is the word and its height the number of productions on the longest
path.
-/

namespace ChomskyNormal

inductive Grammar.Derives (g : Grammar) : List Symbol → List String → Prop where
  | nil : Derives g [] []
  | terminal {name : String} {rest : List Symbol} {word : List String} :
      Derives g rest word → Derives g (.terminal name :: rest) (name :: word)
  | nonterminal {name : String} {right : Alternative} {rest : List Symbol}
    {front back : List String} :
      right ∈ g.alternatives name → Derives g right front → Derives g rest back →
      Derives g (.nonterminal name :: rest) (front ++ back)

def Grammar.Generates (g : Grammar) (word : List String) : Prop :=
  g.Derives [.nonterminal g.start] word

inductive Forest where
  | nil
  | leaf (terminal : String) (rest : Forest)
  | branch (nonterminal : String) (children rest : Forest)

namespace Forest

def roots : Forest → List Symbol
  | nil => []
  | leaf name rest => .terminal name :: rest.roots
  | branch name _ rest => .nonterminal name :: rest.roots

def yield : Forest → List String
  | nil => []
  | leaf name rest => name :: rest.yield
  | branch _ children rest => children.yield ++ rest.yield

def height : Forest → Nat
  | nil => 0
  | leaf _ rest => rest.height
  | branch _ children rest => max (children.height + 1) rest.height

def Follows (g : Grammar) : Forest → Prop
  | nil => True
  | leaf _ rest => rest.Follows g
  | branch name children rest =>
    children.roots ∈ g.alternatives name ∧ children.Follows g ∧ rest.Follows g

theorem derives {g : Grammar} : ∀ {f : Forest}, f.Follows g → g.Derives f.roots f.yield
  | nil, _ => .nil
  | leaf _ _, h => .terminal (derives (by exact h))
  | branch _ _ _, h => .nonterminal h.1 (derives h.2.1) (derives h.2.2)

theorem exists_of_derives {g : Grammar} {symbols : List Symbol} {word : List String}
    (h : g.Derives symbols word) :
    ∃ f : Forest, f.Follows g ∧ f.roots = symbols ∧ f.yield = word := by
  induction h with
  | nil => exact ⟨nil, trivial, rfl, rfl⟩
  | @terminal name _ _ _ ih =>
    obtain ⟨f, hf, rfl, rfl⟩ := ih
    exact ⟨leaf name f, hf, rfl, rfl⟩
  | @nonterminal name _ _ _ _ hr _ _ ih₁ ih₂ =>
    obtain ⟨f₁, hf₁, rfl, rfl⟩ := ih₁
    obtain ⟨f₂, hf₂, rfl, rfl⟩ := ih₂
    exact ⟨branch name f₁ f₂, ⟨hr, hf₁, hf₂⟩, rfl, rfl⟩

end Forest

theorem Grammar.derives_iff_exists_forest {g : Grammar} {symbols : List Symbol}
    {word : List String} :
    g.Derives symbols word ↔ ∃ f : Forest, f.Follows g ∧ f.roots = symbols ∧ f.yield = word :=
  ⟨Forest.exists_of_derives, fun ⟨_, hf, hr, hy⟩ => hr ▸ hy ▸ Forest.derives hf⟩

end ChomskyNormal
