import ChomskyNormal.Derivation
import Mathlib.Logic.Relation

/-!
# Simulation between grammars

Derivations split along concatenations, so what a grammar derives is settled by its productions. A
grammar simulates another one, up to a translation of the symbols, as soon as it derives from each
translated left side what it derives from the translated right sides.
-/

namespace ChomskyNormal

namespace Grammar

variable {g h : Grammar}

@[simp] theorem derives_nil_iff {word : List String} : g.Derives [] word ↔ word = [] := by
  constructor
  · intro d
    cases d
    rfl
  · intro same
    subst same
    exact .nil

theorem derives_terminal_cons_iff {name : String} {rest : List Symbol} {word : List String} :
    g.Derives (.terminal name :: rest) word ↔
      ∃ back, word = name :: back ∧ g.Derives rest back := by
  constructor
  · intro d
    cases d with
    | terminal d => exact ⟨_, rfl, d⟩
  · intro found
    obtain ⟨back, rfl, d⟩ := found
    exact .terminal d

@[simp] theorem derives_terminal_iff {name : String} {word : List String} :
    g.Derives [.terminal name] word ↔ word = [name] := by
  simp [derives_terminal_cons_iff]

theorem Derives.append {form form' : List Symbol} {word word' : List String}
    (d : g.Derives form word) (d' : g.Derives form' word') :
    g.Derives (form ++ form') (word ++ word') := by
  induction d with
  | nil => exact d'
  | terminal _ ih => exact .terminal ih
  | nonterminal mem d _ _ ih =>
    rw [List.cons_append, List.append_assoc]
    exact .nonterminal mem d ih

theorem derives_append_iff {form form' : List Symbol} {word : List String} :
    g.Derives (form ++ form') word ↔
      ∃ front back, word = front ++ back ∧ g.Derives form front ∧ g.Derives form' back := by
  constructor
  · intro d
    induction form generalizing word with
    | nil => exact ⟨[], word, rfl, .nil, d⟩
    | cons symbol form ih =>
      cases d with
      | @terminal name _ _ d =>
        obtain ⟨front, back, rfl, d₁, d₂⟩ := ih d
        exact ⟨name :: front, back, rfl, .terminal d₁, d₂⟩
      | nonterminal mem d₀ d =>
        obtain ⟨front, back, rfl, d₁, d₂⟩ := ih d
        exact ⟨_, back, (List.append_assoc ..).symm, .nonterminal mem d₀ d₁, d₂⟩
  · intro found
    obtain ⟨front, back, rfl, d, d'⟩ := found
    exact d.append d'

theorem derives_cons_iff {symbol : Symbol} {form : List Symbol} {word : List String} :
    g.Derives (symbol :: form) word ↔
      ∃ front back, word = front ++ back ∧ g.Derives [symbol] front ∧ g.Derives form back := by
  rw [← derives_append_iff]
  rfl

theorem derives_nonterminal_iff {name : String} {word : List String} :
    g.Derives [.nonterminal name] word ↔ ∃ right ∈ g.alternatives name, g.Derives right word := by
  constructor
  · intro d
    cases d with
    | nonterminal mem d rest =>
      obtain rfl := derives_nil_iff.1 rest
      rw [List.append_nil]
      exact ⟨_, mem, d⟩
  · intro found
    obtain ⟨right, mem, d⟩ := found
    have := Derives.nonterminal mem d .nil
    rwa [List.append_nil] at this

/-- The translation `f` says which form of `h` stands for a symbol of `g`. Only the nonterminals
with the property `p` have to be simulated, if the derivation never leaves them. -/
theorem Derives.translate {p : String → Prop} {f : Symbol → List Symbol}
    (terminal : ∀ name, f (.terminal name) = [.terminal name])
    (production : ∀ name, p name → ∀ right ∈ g.alternatives name, ∀ word, g.Derives right word →
      (∀ other, .nonterminal other ∈ right → p other) ∧
        (h.Derives (right.flatMap f) word → h.Derives (f (.nonterminal name)) word))
    {form : List Symbol} {word : List String} (d : g.Derives form word)
    (inside : ∀ name, .nonterminal name ∈ form → p name) : h.Derives (form.flatMap f) word := by
  induction d with
  | nil => exact .nil
  | terminal _ ih =>
    rw [List.flatMap_cons, terminal]
    exact .terminal (ih fun name mem => inside name (.tail _ mem))
  | nonterminal mem d _ ih₁ ih₂ =>
    obtain ⟨closed, lift⟩ := production _ (inside _ (.head _)) _ mem _ d
    rw [List.flatMap_cons]
    exact (lift (ih₁ closed)).append (ih₂ fun name mem => inside name (.tail _ mem))

theorem Derives.simulate
    (production : ∀ name, ∀ right ∈ g.alternatives name, ∀ word,
      h.Derives right word → h.Derives [.nonterminal name] word)
    {form : List Symbol} {word : List String} (d : g.Derives form word) : h.Derives form word := by
  have := d.translate (h := h) (p := fun _ => True) (f := fun symbol => [symbol]) (fun _ => rfl)
    (fun name _ right mem word _ => ⟨fun _ _ => trivial, fun d' => by
      rw [List.flatMap_singleton'] at d'
      exact production name right mem word d'⟩) (fun _ _ => trivial)
  rwa [List.flatMap_singleton'] at this

theorem Derives.restrict {p : String → Prop}
    (closed : ∀ name, p name → ∀ right ∈ g.alternatives name, ∀ word, g.Derives right word →
      right ∈ h.alternatives name ∧ ∀ other, .nonterminal other ∈ right → p other)
    {form : List Symbol} {word : List String} (d : g.Derives form word)
    (inside : ∀ name, .nonterminal name ∈ form → p name) : h.Derives form word := by
  have := d.translate (h := h) (f := fun symbol => [symbol]) (fun _ => rfl)
    (fun name inside right mem word d => by
      obtain ⟨mem', stays⟩ := closed name inside right mem word d
      refine ⟨stays, fun d' => derives_nonterminal_iff.2 ⟨right, mem', ?_⟩⟩
      rwa [List.flatMap_singleton'] at d') inside
  rwa [List.flatMap_singleton'] at this

theorem Derives.mono (sub : ∀ name, ∀ right ∈ g.alternatives name, right ∈ h.alternatives name)
    {form : List Symbol} {word : List String} (d : g.Derives form word) : h.Derives form word :=
  d.simulate fun name right mem _ d' => derives_nonterminal_iff.2 ⟨right, sub name right mem, d'⟩

theorem derives_congr
    (same : ∀ name right, right ∈ g.alternatives name ↔ right ∈ h.alternatives name)
    {form : List Symbol} {word : List String} : g.Derives form word ↔ h.Derives form word :=
  ⟨.mono fun name right => (same name right).1, .mono fun name right => (same name right).2⟩

def Leads (g : Grammar) (name other : String) : Prop :=
  ∃ right ∈ g.alternatives name, .nonterminal other ∈ right

def Reachable (g : Grammar) (name : String) : Prop := Relation.ReflTransGen g.Leads g.start name

def Productive (g : Grammar) (name : String) : Prop := ∃ word, g.Derives [.nonterminal name] word

theorem Derives.exists_of_mem {form : List Symbol} {word : List String} (d : g.Derives form word)
    {symbol : Symbol} (mem : symbol ∈ form) : ∃ word', g.Derives [symbol] word' := by
  obtain ⟨before, after, rfl⟩ := List.append_of_mem mem
  obtain ⟨_, back, _, _, d'⟩ := derives_append_iff.1 d
  obtain ⟨word', _, _, d'', _⟩ := derives_cons_iff.1 d'
  exact ⟨word', d''⟩

theorem exists_derives_of_productive {form : List Symbol}
    (productive : ∀ name, .nonterminal name ∈ form → g.Productive name) :
    ∃ word, g.Derives form word := by
  induction form with
  | nil => exact ⟨[], .nil⟩
  | cons symbol form ih =>
    obtain ⟨back, d⟩ := ih fun name mem => productive name (.tail _ mem)
    cases symbol with
    | terminal name => exact ⟨name :: back, .terminal d⟩
    | nonterminal name =>
      obtain ⟨front, d'⟩ := productive name (.head _)
      exact ⟨front ++ back, derives_cons_iff.2 ⟨front, back, rfl, d', d⟩⟩

end Grammar

end ChomskyNormal
