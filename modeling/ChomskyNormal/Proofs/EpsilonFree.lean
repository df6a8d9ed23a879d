import ChomskyNormal.NormalForm
import ChomskyNormal.Proofs.Additions
import ChomskyNormal.Proofs.Saturation

/-!
# Epsilon elimination

Leaving out nullable nonterminals derives nothing new, and a derivation survives when those that
derive the empty word in it are left out. So every nonterminal keeps its nonempty words, and the
start symbol, which may be a new one, all of its words. Afterwards only the start symbol can have
the empty alternative, and only if it stands on no right side.
-/

namespace ChomskyNormal

theorem mem_variants_cons {nullable : OrderedSet String} {symbol : Symbol}
    {right variant : Alternative} :
    variant ∈ variants nullable (symbol :: right) ↔ ∃ shorter ∈ variants nullable right,
      variant = symbol :: shorter ∨ variant = shorter ∧
      ∃ name ∈ nullable, symbol = .nonterminal name := by
  cases symbol with
  | terminal name => simp [variants, eq_comm]
  | nonterminal name =>
    by_cases h : name ∈ nullable
    · simp [variants, h]
    · simp [variants, h, eq_comm]

theorem mem_variants_self (nullable : OrderedSet String) (right : Alternative) :
    right ∈ variants nullable right := by
  induction right with
  | nil => simp [variants]
  | cons symbol right ih => exact mem_variants_cons.2 ⟨right, ih, .inl rfl⟩

theorem sublist_of_mem_variants {nullable : OrderedSet String} {right variant : Alternative}
    (mem : variant ∈ variants nullable right) : variant.Sublist right := by
  induction right generalizing variant with
  | nil =>
    have same := List.mem_singleton.1 mem
    subst same
    exact List.Sublist.refl _
  | cons symbol right ih =>
    obtain ⟨shorter, hs, rfl | ⟨rfl, _⟩⟩ := mem_variants_cons.1 mem
    · exact (ih hs).cons_cons _
    · exact (ih hs).cons _

theorem variants_of_not_nullable {nullable : OrderedSet String} {right : Alternative}
    (h : ∀ name, .nonterminal name ∈ right → name ∉ nullable) :
    variants nullable right = [right] := by
  induction right with
  | nil => rfl
  | cons symbol right ih =>
    have others := ih fun name mem => h name (.tail _ mem)
    cases symbol with
    | terminal name => simp [variants, others]
    | nonterminal name => simp [variants, others, h name (.head _)]

theorem mem_nonemptyVariants {nullable : OrderedSet String} {rights : OrderedSet Alternative}
    {variant : Alternative} : variant ∈ nonemptyVariants nullable rights ↔
      variant ≠ [] ∧ ∃ right ∈ rights, variant ∈ variants nullable right := by
  simp only [nonemptyVariants, OrderedSet.mem_ofList, List.mem_filter, List.mem_flatMap,
    OrderedSet.mem_toList, decide_eq_true_eq, and_comm]

namespace Grammar

variable {g h : Grammar}

theorem derives_of_mem_variants {right variant : Alternative} {word : List String}
    (mem : variant ∈ variants g.nullable right) (d : g.Derives variant word) :
    g.Derives right word := by
  induction right generalizing variant word with
  | nil => rwa [List.mem_singleton.1 mem] at d
  | cons symbol right ih =>
    obtain ⟨shorter, hs, rfl | ⟨rfl, name, nullable, rfl⟩⟩ := mem_variants_cons.1 mem
    · obtain ⟨front, back, rfl, first, others⟩ := derives_cons_iff.1 d
      exact derives_cons_iff.2 ⟨front, back, rfl, first, ih hs others⟩
    · exact derives_cons_iff.2 ⟨[], word, rfl, mem_nullable_iff.1 nullable, ih hs d⟩

/-- `h` has the nonempty variants of the alternatives of `g`. -/
def HasVariants (h g : Grammar) : Prop :=
  ∀ name, ∀ right ∈ g.alternatives name, ∀ variant ∈ variants g.nullable right, variant ≠ [] →
    variant ∈ h.alternatives name

theorem exists_variant_derives (has : HasVariants h g) {form : List Symbol} {word : List String}
    (d : g.Derives form word) : ∃ variant ∈ variants g.nullable form, h.Derives variant word := by
  induction d with
  | nil => exact ⟨[], by simp [variants], .nil⟩
  | terminal _ ih =>
    obtain ⟨variant, mem, d⟩ := ih
    exact ⟨_, mem_variants_cons.2 ⟨variant, mem, .inl rfl⟩, .terminal d⟩
  | @nonterminal name right rest front back mem d _ ih₁ ih₂ =>
    obtain ⟨first, mem₁, d₁⟩ := ih₁
    obtain ⟨others, mem₂, d₂⟩ := ih₂
    -- What derives the empty word here is left out of the form.
    by_cases empty : first = []
    · rw [empty, derives_nil_iff] at d₁
      have nullable : name ∈ g.nullable :=
        mem_nullable_iff.2 (derives_nonterminal_iff.2 ⟨right, mem, d₁ ▸ d⟩)
      rw [d₁]
      exact ⟨others, mem_variants_cons.2 ⟨others, mem₂, .inr ⟨rfl, name, nullable, rfl⟩⟩, d₂⟩
    · exact ⟨_, mem_variants_cons.2 ⟨others, mem₂, .inl rfl⟩,
        .nonterminal (has name right mem first mem₁ empty) d₁ d₂⟩

theorem derives_of_hasVariants (has : HasVariants h g) {name : String} {word : List String}
    (nonempty : word ≠ []) (d : g.Derives [.nonterminal name] word) :
    h.Derives [.nonterminal name] word := by
  obtain ⟨right, mem, d⟩ := derives_nonterminal_iff.1 d
  obtain ⟨variant, mem', d'⟩ := exists_variant_derives has d
  have kept : variant ≠ [] := by
    intro same
    subst same
    exact nonempty (derives_nil_iff.1 d')
  exact derives_nonterminal_iff.2 ⟨variant, has name right mem variant mem' kept, d'⟩

/-- The rules without epsilon alternatives, but with that of the start symbol if `keepsEmpty`. -/
def thinned (g : Grammar) (keepsEmpty : Bool) : Grammar :=
  { g with rules := g.epsilonFreeRules keepsEmpty }

theorem mem_alternatives_thinned {keepsEmpty : Bool} {name : String} {variant : Alternative} :
    variant ∈ (g.thinned keepsEmpty).alternatives name ↔
      (variant ≠ [] ∧ ∃ right ∈ g.alternatives name, variant ∈ variants g.nullable right) ∨
        variant = [] ∧ name = g.start ∧ keepsEmpty = true ∧ name ∈ g.rules.keys := by
  simp only [alternatives, thinned, epsilonFreeRules, OrderedMap.get?_mapValues]
  cases e : g.rules.get? name with
  | none => simp [OrderedMap.get?_eq_none_iff.1 e]
  | some rights =>
    have key : name ∈ g.rules.keys := OrderedMap.isSome_get?_iff.1 (by rw [e]; rfl)
    simp only [Option.map_some, Option.getD_some]
    by_cases hk : name = g.start ∧ keepsEmpty = true
    · rw [if_pos (by simpa using hk), OrderedSet.mem_insert, mem_nonemptyVariants]
      simp only [hk.1.symm ▸ key, hk, and_true]
    · rw [if_neg (by simpa using hk), mem_nonemptyVariants]
      constructor
      · exact .inl
      · intro found
        rcases found with h | ⟨_, start, keeps, _⟩
        · exact h
        · exact absurd ⟨start, keeps⟩ hk

theorem hasVariants_thinned (keepsEmpty : Bool) : HasVariants (g.thinned keepsEmpty) g :=
  fun _ right mem _ mem' nonempty =>
    mem_alternatives_thinned.2 (.inl ⟨nonempty, right, mem, mem'⟩)

theorem derives_of_derives_thinned {keepsEmpty : Bool}
    (null : keepsEmpty = true → g.start ∈ g.nullable) {form : List Symbol} {word : List String}
    (d : (g.thinned keepsEmpty).Derives form word) :
    g.Derives form word := by
  apply d.simulate
  intro name variant mem word d
  rcases mem_alternatives_thinned.1 mem with ⟨_, right, mem, mem'⟩ | ⟨rfl, rfl, keeps, _⟩
  · exact derives_nonterminal_iff.2 ⟨right, mem, derives_of_mem_variants mem' d⟩
  · rw [derives_nil_iff.1 d]
    exact mem_nullable_iff.1 (null keeps)

theorem ne_nil_of_derives (nonempty : ∀ name, [] ∉ g.alternatives name) {form : List Symbol}
    {word : List String} (d : g.Derives form word) (h : form ≠ []) : word ≠ [] := by
  induction d with
  | nil => exact absurd rfl h
  | terminal => simp
  | @nonterminal name right _ front _ mem _ _ ih _ =>
    have : front ≠ [] := ih fun e => nonempty name (e ▸ mem)
    simp [this]

theorem derives_thinned_false_iff {name : String} {word : List String} :
    (g.thinned false).Derives [.nonterminal name] word ↔
      word ≠ [] ∧ g.Derives [.nonterminal name] word := by
  constructor
  · intro d
    refine ⟨ne_nil_of_derives (fun name mem => ?_) d (by simp),
      derives_of_derives_thinned (by simp) d⟩
    rcases mem_alternatives_thinned.1 mem with ⟨h, _⟩ | ⟨_, _, h, _⟩
    · exact h rfl
    · simp at h
  · intro found
    obtain ⟨nonempty, d⟩ := found
    exact derives_of_hasVariants (hasVariants_thinned false) nonempty d

theorem generates_thinned_iff {keepsEmpty : Bool} (null : keepsEmpty = true ↔ g.start ∈ g.nullable)
    {word : List String} : (g.thinned keepsEmpty).Generates word ↔ g.Generates word := by
  constructor
  · exact derives_of_derives_thinned null.1
  · intro d
    by_cases empty : word = []
    · subst empty
      have nullable := mem_nullable_iff.2 d
      obtain ⟨right, mem, _⟩ := derives_nonterminal_iff.1 d
      have kept : [] ∈ (g.thinned keepsEmpty).alternatives g.start :=
        mem_alternatives_thinned.2
          (.inr ⟨rfl, rfl, null.2 nullable, mem_keys_of_mem_alternatives mem⟩)
      exact derives_nonterminal_iff.2 ⟨[], kept, .nil⟩
    · exact derives_of_hasVariants (hasVariants_thinned keepsEmpty) empty d

theorem wellFormed_thinned (wf : g.WellFormed) (keepsEmpty : Bool) :
    (g.thinned keepsEmpty).WellFormed where
  nonterminals_inhabited := wf.nonterminals_inhabited
  terminals_inhabited := wf.terminals_inhabited
  disjoint := wf.disjoint
  start_declared := wf.start_declared
  lefts_declared := by
    intro name mem
    rw [thinned, epsilonFreeRules, OrderedMap.keys_mapValues] at mem
    exact wf.lefts_declared name mem
  rights_declared := by
    intro name variant mem symbol hs
    rcases mem_alternatives_thinned.1 mem with ⟨_, right, mem, mem'⟩ | ⟨rfl, _⟩
    · exact wf.rights_declared name right mem symbol ((sublist_of_mem_variants mem').subset hs)
    · simp at hs

theorem mentioned_of_mentioned_thinned {keepsEmpty : Bool} {name : String}
    (h : name ∈ (g.thinned keepsEmpty).mentioned) : name ∈ g.mentioned := by
  obtain ⟨left, variant, mem, hs⟩ := mem_mentioned.1 h
  rcases mem_alternatives_thinned.1 mem with ⟨_, right, mem, mem'⟩ | ⟨rfl, _⟩
  · exact mem_mentioned.2 ⟨left, right, mem, (sublist_of_mem_variants mem').subset hs⟩
  · simp at hs

/-- `start` becomes the start symbol and leads to the old one or to nothing. -/
def adopt (g : Grammar) (start : String) : Grammar :=
  { ((g.declare start).addProduction start [.nonterminal g.start]).addProduction start [] with
    start }

theorem mem_alternatives_adopt {start name : String} {right : Alternative} :
    right ∈ (g.adopt start).alternatives name ↔
      if name = start then right = [.nonterminal g.start] ∨ right = []
        else right ∈ g.alternatives name := by
  change right ∈ (addProduction (addProduction _ _ _) _ _).alternatives name ↔ _
  rw [mem_alternatives_addProduction, mem_alternatives_addProduction, mem_alternatives_declare]
  split
  · next h => simp [h]
  · next h => simp [h]

theorem wellFormed_adopt (wf : g.WellFormed) {start : String} (fresh : ¬ g.Declares start) :
    (g.adopt start).WellFormed := by
  have declared : start ∈ (g.declare start).nonterminals := OrderedSet.mem_insert.2 (.inr rfl)
  have old : g.start ∈ (g.declare start).nonterminals :=
    OrderedSet.mem_insert.2 (.inl wf.start_declared)
  have wf' : (((g.declare start).addProduction start [.nonterminal g.start]).addProduction
      start []).WellFormed :=
    wellFormed_addProduction_iff.2 ⟨wellFormed_addProduction_iff.2
      ⟨wellFormed_declare wf fun h => fresh (.inr h), declared, by simpa [UsesDeclared] using old⟩,
      declared, by simp⟩
  exact ⟨wf'.nonterminals_inhabited, wf'.terminals_inhabited, wf'.disjoint, declared,
    wf'.lefts_declared, wf'.rights_declared⟩

theorem not_mentioned_of_not_declares (wf : g.WellFormed) {name : String}
    (fresh : ¬ g.Declares name) :
    name ∉ g.mentioned := by
  intro h
  obtain ⟨left, right, mem, hs⟩ := mem_mentioned.1 h
  exact fresh (.inl (wf.rights_declared left right mem _ hs))

theorem not_mentioned_adopt (wf : g.WellFormed) {start : String} (fresh : ¬ g.Declares start) :
    start ∉ (g.adopt start).mentioned := by
  intro h
  obtain ⟨left, right, mem, hs⟩ := mem_mentioned.1 h
  rw [mem_alternatives_adopt] at mem
  split at mem
  · rcases mem with rfl | rfl
    · rw [List.mem_singleton, Symbol.nonterminal.injEq] at hs
      exact fresh (.inl (hs ▸ wf.start_declared))
    · simp at hs
  · exact not_mentioned_of_not_declares wf fresh (mem_mentioned.2 ⟨left, right, mem, hs⟩)

theorem derives_adopt_iff (wf : g.WellFormed) {start name : String} (fresh : ¬ g.Declares start)
    (old : name ≠ start) {word : List String} :
    (g.adopt start).Derives [.nonterminal name] word ↔ g.Derives [.nonterminal name] word := by
  have stays : ∀ left, ∀ right ∈ g.alternatives left, ∀ other, .nonterminal other ∈ right →
      other ≠ start := by
    intro left right mem other hs same
    subst same
    exact fresh (.inl (wf.rights_declared left right mem _ hs))
  have inside : ∀ other, .nonterminal other ∈ [Symbol.nonterminal name] → other ≠ start := by
    intro other hs
    rw [List.mem_singleton, Symbol.nonterminal.injEq] at hs
    exact hs ▸ old
  constructor
  · refine fun d => d.restrict (fun left hl right mem _ _ => ?_) inside
    rw [mem_alternatives_adopt, if_neg hl] at mem
    exact ⟨mem, stays left right mem⟩
  · refine fun d => d.restrict (fun left hl right mem _ _ => ?_) inside
    rw [mem_alternatives_adopt, if_neg hl]
    exact ⟨mem, stays left right mem⟩

theorem generates_adopt_iff (wf : g.WellFormed) {start : String} (fresh : ¬ g.Declares start)
    {word : List String} : (g.adopt start).Generates word ↔ word = [] ∨ g.Generates word := by
  have old : g.start ≠ start := fun e => fresh (.inl (e ▸ wf.start_declared))
  have stays : (g.adopt start).Derives [.nonterminal g.start] word ↔ g.Generates word :=
    derives_adopt_iff wf fresh old
  change (g.adopt start).Derives [.nonterminal start] word ↔ _
  rw [derives_nonterminal_iff, ← stays]
  simp only [mem_alternatives_adopt, if_true]
  constructor
  · intro found
    rcases found with ⟨right, rfl | rfl, d⟩
    · exact .inr d
    · exact .inl (derives_nil_iff.1 d)
  · intro found
    rcases found with rfl | d
    · exact ⟨[], .inr rfl, .nil⟩
    · exact ⟨_, .inl rfl, d⟩

/-- The empty alternative belongs to the start symbol, which then stands on no right side. -/
def EmptyOnlyAtStart (g : Grammar) : Prop :=
  ∀ name, [] ∈ g.alternatives name → name = g.start ∧ g.start ∉ g.mentioned

def withoutEmpty (g : Grammar) : Grammar :=
  { g with rules := g.rules.mapValues fun _ rights => rights.filter (· ≠ []) }

theorem mem_alternatives_withoutEmpty {name : String} {right : Alternative} :
    right ∈ g.withoutEmpty.alternatives name ↔ right ∈ g.alternatives name ∧ right ≠ [] := by
  simp only [alternatives, withoutEmpty, OrderedMap.get?_mapValues]
  cases g.rules.get? name with
  | none => simp
  | some rights =>
    simp only [Option.map_some, Option.getD_some, OrderedSet.mem_filter, decide_eq_true_eq]

theorem ne_nil_of_derives_withoutEmpty {form : List Symbol} {word : List String}
    (d : g.withoutEmpty.Derives form word) (h : form ≠ []) : word ≠ [] :=
  ne_nil_of_derives (fun _ mem => (mem_alternatives_withoutEmpty.1 mem).2 rfl) d h

theorem derives_withoutEmpty_of_mentioned (empty : g.EmptyOnlyAtStart) {form : List Symbol}
    {word : List String} (d : g.Derives form word)
    (inside : ∀ name, .nonterminal name ∈ form → name ∈ g.mentioned) :
    g.withoutEmpty.Derives form word := by
  -- A derivation stays among the nonterminals on right sides, and none of these has the empty
  -- alternative.
  refine d.restrict (p := (· ∈ g.mentioned)) (fun name mentioned right mem _ _ => ?_) inside
  refine ⟨mem_alternatives_withoutEmpty.2 ⟨mem, ?_⟩,
    fun other hs => mem_mentioned.2 ⟨name, right, mem, hs⟩⟩
  intro e
  obtain ⟨start, alone⟩ := empty name (e ▸ mem)
  exact alone (start ▸ mentioned)

theorem derives_withoutEmpty_iff (empty : g.EmptyOnlyAtStart) {name : String} {word : List String} :
    g.withoutEmpty.Derives [.nonterminal name] word ↔
      word ≠ [] ∧ g.Derives [.nonterminal name] word := by
  constructor
  · intro d
    have sub : ∀ name, ∀ right ∈ g.withoutEmpty.alternatives name, right ∈ g.alternatives name :=
      fun _ _ mem => (mem_alternatives_withoutEmpty.1 mem).1
    exact ⟨ne_nil_of_derives_withoutEmpty d (by simp), d.mono sub⟩
  · intro ⟨nonempty, d⟩
    obtain ⟨right, mem, d⟩ := derives_nonterminal_iff.1 d
    have kept : right ≠ [] := by
      intro e
      rw [e, derives_nil_iff] at d
      exact nonempty d
    exact derives_nonterminal_iff.2 ⟨right, mem_alternatives_withoutEmpty.2 ⟨mem, kept⟩,
      derives_withoutEmpty_of_mentioned empty d fun other hs =>
        mem_mentioned.2 ⟨name, right, mem, hs⟩⟩

theorem derives_nil_iff_mem (empty : g.EmptyOnlyAtStart) {name : String} :
    g.Derives [.nonterminal name] [] ↔ [] ∈ g.alternatives name := by
  constructor
  · intro d
    obtain ⟨right, mem, d⟩ := derives_nonterminal_iff.1 d
    by_cases e : right = []
    · exact e ▸ mem
    · have d' := derives_withoutEmpty_of_mentioned empty d
        fun other hs => mem_mentioned.2 ⟨name, right, mem, hs⟩
      exact absurd rfl (ne_nil_of_derives_withoutEmpty d' e)
  · exact fun mem => derives_nonterminal_iff.2 ⟨[], mem, .nil⟩

theorem eliminateEpsilon_of_kept (h : ¬ (g.start ∈ g.nullable ∧ g.start ∈ g.mentioned)) :
    g.eliminateEpsilon = .ok (g.thinned (g.start ∈ g.nullable)) := by
  have : (decide (g.start ∈ g.nullable) && g.startOnRight) = false := by
    simpa [startOnRight] using h
  simp only [eliminateEpsilon, this]
  rfl

theorem eliminateEpsilon_of_replaced (h : g.start ∈ g.nullable ∧ g.start ∈ g.mentioned) :
    g.eliminateEpsilon = .ok ((g.thinned false).adopt (g.primed g.start)) := by
  have : (decide (g.start ∈ g.nullable) && g.startOnRight) = true := by
    simpa [startOnRight] using h
  have fresh : ¬ (g.thinned false).Declares (g.primed g.start) := g.not_declares_primed g.start
  simp only [eliminateEpsilon, this]
  rw [if_pos trivial, ← thinned, addNonterminal, if_neg fresh]
  rfl

/-- The start symbol of `h` may be a new one. All other nonterminals lose the empty word, and no
other word is lost or won. -/
structure EpsilonEliminated (g h : Grammar) : Prop where
  generates : ∀ word, h.Generates word ↔ g.Generates word
  derives : ∀ name, name ≠ h.start → ∀ word,
    h.Derives [.nonterminal name] word ↔ word ≠ [] ∧ g.Derives [.nonterminal name] word
  empty : ∀ name, [] ∈ h.alternatives name ↔ name = h.start ∧ g.Generates []
  alone : g.Generates [] → h.start ∉ h.mentioned
  replaced : h.start ≠ g.start ↔ g.Generates [] ∧ g.start ∈ g.mentioned
  fresh : h.start ≠ g.start → ¬ g.Declares h.start

theorem not_mem_alternatives_nil_thinned (name : String) :
    [] ∉ (g.thinned false).alternatives name := by
  simp [mem_alternatives_thinned]

theorem nil_mem_alternatives_thinned_iff {name : String} :
    [] ∈ (g.thinned (g.start ∈ g.nullable)).alternatives name ↔
      name = g.start ∧ g.Generates [] := by
  rw [mem_alternatives_thinned, decide_eq_true_eq, mem_nullable_iff]
  constructor
  · intro mem
    rcases mem with ⟨nonempty, _⟩ | ⟨_, start, empty, _⟩
    · exact absurd rfl nonempty
    · exact ⟨start, empty⟩
  · intro ⟨start, empty⟩
    obtain ⟨right, mem, _⟩ := derives_nonterminal_iff.1 empty
    exact .inr ⟨rfl, start, empty, start ▸ mem_keys_of_mem_alternatives mem⟩

theorem epsilonEliminated_thinned (kept : ¬ (g.Generates [] ∧ g.start ∈ g.mentioned)) :
    g.EpsilonEliminated (g.thinned (g.start ∈ g.nullable)) := by
  have alone : g.Generates [] → g.start ∉ (g.thinned (g.start ∈ g.nullable)).mentioned :=
    fun empty mentioned => kept ⟨empty, mentioned_of_mentioned_thinned mentioned⟩
  have emptyOnlyAtStart : (g.thinned (g.start ∈ g.nullable)).EmptyOnlyAtStart := by
    intro name mem
    obtain ⟨start, empty⟩ := nil_mem_alternatives_thinned_iff.1 mem
    exact ⟨start, alone empty⟩
  exact {
    generates := fun _ => generates_thinned_iff (by simp)
    derives := by
      intro name other word
      constructor
      · intro d
        refine ⟨?_, derives_of_derives_thinned (by simp) d⟩
        intro same
        subst same
        rw [derives_nil_iff_mem emptyOnlyAtStart, nil_mem_alternatives_thinned_iff] at d
        exact other d.1
      · exact fun ⟨nonempty, d⟩ => derives_of_hasVariants (hasVariants_thinned _) nonempty d
    empty := fun _ => nil_mem_alternatives_thinned_iff
    alone := alone
    replaced := iff_of_false (fun change => change rfl) kept
    fresh := fun change => absurd rfl change }

theorem epsilonEliminated_adopt (wf : g.WellFormed) {start : String} (fresh : ¬ g.Declares start)
    (empty : g.Generates []) (mentioned : g.start ∈ g.mentioned) :
    g.EpsilonEliminated ((g.thinned false).adopt start) := by
  have wf' := wellFormed_thinned wf false
  have change : start ≠ g.start := fun same => fresh (.inl (same ▸ wf.start_declared))
  exact {
    generates := by
      intro word
      rw [generates_adopt_iff wf' fresh, Generates, derives_thinned_false_iff]
      by_cases h : word = []
      · simpa [h] using empty
      · simp only [h, false_or, ne_eq, not_false_eq_true, true_and]
        exact Iff.rfl
    derives := fun _ other _ => (derives_adopt_iff wf' fresh other).trans derives_thinned_false_iff
    empty := by
      intro name
      rw [mem_alternatives_adopt]
      split
      · next same => exact iff_of_true (.inr rfl) ⟨same, empty⟩
      · next other => exact iff_of_false (not_mem_alternatives_nil_thinned name) fun h => other h.1
    alone := fun _ => not_mentioned_adopt wf' fresh
    replaced := iff_of_true change ⟨empty, mentioned⟩
    fresh := fun _ => fresh }

theorem EpsilonEliminated.emptyOnlyAtStart (eliminated : g.EpsilonEliminated h) :
    h.EmptyOnlyAtStart := by
  intro name mem
  obtain ⟨start, empty⟩ := (eliminated.empty name).1 mem
  exact ⟨start, eliminated.alone empty⟩

theorem exists_wellFormed_epsilonEliminated (wf : g.WellFormed) :
    ∃ h, g.eliminateEpsilon = .ok h ∧ h.WellFormed ∧ g.EpsilonEliminated h := by
  by_cases replaced : g.start ∈ g.nullable ∧ g.start ∈ g.mentioned
  · have fresh := g.not_declares_primed g.start
    refine ⟨_, eliminateEpsilon_of_replaced replaced,
      wellFormed_adopt (wellFormed_thinned wf false) fresh, ?_⟩
    exact epsilonEliminated_adopt wf fresh (mem_nullable_iff.1 replaced.1) replaced.2
  · refine ⟨_, eliminateEpsilon_of_kept replaced, wellFormed_thinned wf _,
      epsilonEliminated_thinned ?_⟩
    rwa [mem_nullable_iff] at replaced

theorem exists_eliminateEpsilon (wf : g.WellFormed) :
    ∃ h, g.eliminateEpsilon = .ok h ∧ h.WellFormed ∧
    h.EmptyOnlyAtStart ∧ ∀ word, h.Generates word ↔ g.Generates word := by
  obtain ⟨h, e, wfh, eliminated⟩ := exists_wellFormed_epsilonEliminated wf
  exact ⟨h, e, wfh, eliminated.emptyOnlyAtStart, eliminated.generates⟩

theorem exists_epsilonEliminated (valid : g.validate = .ok ()) :
    ∃ h, g.eliminateEpsilon = .ok h ∧ g.EpsilonEliminated h := by
  obtain ⟨h, e, _, eliminated⟩ := exists_wellFormed_epsilonEliminated (validate_eq_ok_iff.1 valid)
  exact ⟨h, e, eliminated⟩

def recurring : Grammar :=
  let names := OrderedSet.ofList ["S", "A", "B"]
  addProductions ⟨"S", names, .ofList ["a", "S'"], .ofKeys names ∅⟩
    [("S", [.nonterminal "A", .nonterminal "S", .terminal "a"]),
      ("S", [.nonterminal "A", .nonterminal "B"]), ("A", [.nonterminal "B"]), ("A", []),
        ("B", [.nonterminal "A"]), ("B", [.terminal "S'"])]

theorem exists_epsilonEliminated_recurring : recurring.validate = .ok () ∧
    ∃ h, recurring.eliminateEpsilon = .ok h ∧ recurring.EpsilonEliminated h :=
  have valid : recurring.validate = .ok () := rfl
  ⟨valid, exists_epsilonEliminated valid⟩

end Grammar

end ChomskyNormal
