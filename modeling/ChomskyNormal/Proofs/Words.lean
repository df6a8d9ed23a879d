import ChomskyNormal.Text.Reader
import Mathlib.Data.List.Infix

/-!
# Words, lines and arrows

How a text falls into lines, a line at its arrows and a side of an arrow into words. For each of
these cuts there are two facts: pieces that were put together come out again, and what comes out has
none of the separators in it.
-/

namespace ChomskyNormal

section Intercalate

variable {α : Type} {separator : List α}

theorem intercalate_append {first second : List (List α)} (ne : first ≠ []) (ne' : second ≠ []) :
    separator.intercalate (first ++ second) =
      separator.intercalate first ++ separator ++ separator.intercalate second := by
  have ⟨next, later, e⟩ := List.exists_cons_of_ne_nil ne'
  subst e
  induction first with
  | nil => contradiction
  | cons piece pieces ih =>
    cases pieces with
    | nil => simp
    | cons piece' pieces =>
      have rest := ih (List.cons_ne_nil _ _)
      simp only [List.cons_append, List.intercalate_cons_cons, List.append_assoc] at rest ⊢
      rw [rest]

theorem intercalate_map_intercalate {texts : List (List (List α))}
    (ne : ∀ pieces ∈ texts, pieces ≠ []) :
    separator.intercalate (texts.map separator.intercalate) =
      separator.intercalate texts.flatten := by
  induction texts with
  | nil => rfl
  | cons pieces texts ih =>
    have ⟨first, others⟩ := List.forall_mem_cons.1 ne
    cases texts with
    | nil => simp
    | cons pieces' texts =>
      have inhabited : (pieces' :: texts).flatten ≠ [] := by
        simp [(List.forall_mem_cons.1 others).1]
      rw [List.flatten_cons, intercalate_append first inhabited, ← ih others, List.map_cons,
        List.map_cons, List.intercalate_cons_cons]

theorem mem_intercalate {pieces : List (List α)} {a : α} (mem : a ∈ separator.intercalate pieces) :
    a ∈ separator ∨ ∃ piece ∈ pieces, a ∈ piece := by
  induction pieces with
  | nil => simp at mem
  | cons piece pieces ih =>
    cases pieces with
    | nil => exact .inr ⟨piece, by simp, by simpa using mem⟩
    | cons piece' pieces =>
      rw [List.intercalate_cons_cons, List.mem_append, List.mem_append] at mem
      rcases mem with (mem | mem) | mem
      · exact .inr ⟨piece, List.mem_cons_self, mem⟩
      · exact .inl mem
      · exact (ih mem).imp_right fun ⟨piece, hp, mem⟩ => ⟨piece, List.mem_cons_of_mem _ hp, mem⟩

theorem infix_append_cons_iff {text first second : List α} {a : α} (absent : a ∉ text) :
    text <:+: first ++ a :: second ↔ text <:+: first ∨ text <:+: second := by
  have nil_of_start {front : List α} (h : front <+: a :: second) (absent : a ∉ front) :
      front = [] := by
    cases front with
    | nil => rfl
    | cons b front => exact absurd ((List.cons_prefix_cons.1 h).1 ▸ List.mem_cons_self) absent
  rw [List.infix_append_iff, List.infix_cons_iff]
  constructor
  · intro found
    rcases found with inFirst | (start | inSecond) | ⟨front, back, rfl, atEnd, start⟩
    · exact .inl inFirst
    · exact .inl (nil_of_start start absent ▸ List.nil_infix)
    · exact .inr inSecond
    · have nil := nil_of_start start fun mem => absent (List.mem_append_right _ mem)
      exact .inl (by simpa [nil] using atEnd.isInfix)
  · exact fun found => found.imp_right fun inSecond => .inl (.inr inSecond)

end Intercalate

structure IsWord (cs : List Char) : Prop where
  ne_nil : cs ≠ []
  not_blank : ∀ c ∈ cs, isBlank c = false

instance (cs : List Char) : Decidable (IsWord cs) :=
  decidable_of_iff (cs ≠ [] ∧ cs.all fun c => !isBlank c)
    ⟨fun h => ⟨h.1, by simpa using h.2⟩, fun h => ⟨h.ne_nil, by simpa using h.not_blank⟩⟩

theorem infix_of_mem_splitOnP {p : Char → Bool} {cs piece : List Char}
    (mem : piece ∈ cs.splitOnP p) :
    piece <:+: cs ∧ ∀ c ∈ piece, p c = false := by
  -- The first piece is even a prefix, which the induction needs because it lengthens this piece.
  suffices pieces : ∃ first others, cs.splitOnP p = first :: others ∧ first <+: cs ∧
      (∀ piece ∈ others, piece <:+: cs) ∧ ∀ piece ∈ first :: others, ∀ c ∈ piece, p c = false by
    have ⟨first, others, e, start, inside, free⟩ := pieces
    rw [e] at mem
    refine ⟨?_, free piece mem⟩
    rcases List.mem_cons.1 mem with rfl | mem
    · exact start.isInfix
    · exact inside piece mem
  clear mem
  induction cs with
  | nil => exact ⟨[], [], by simp, by simp, by simp, by simp⟩
  | cons c cs ih =>
    have ⟨first, others, e, start, inside, free⟩ := ih
    rw [List.splitOnP_cons_eq_if_modifyHead, e]
    have later {piece : List Char} (h : piece <:+: cs) : piece <:+: c :: cs := List.infix_cons h
    split
    · refine ⟨[], first :: others, rfl, List.nil_prefix, ?_, ?_⟩
      · exact List.forall_mem_cons.2
          ⟨later start.isInfix, fun piece mem => later (inside piece mem)⟩
      · exact List.forall_mem_cons.2 ⟨by simp, free⟩
    · next hc =>
      have ⟨free, frees⟩ := List.forall_mem_cons.1 free
      refine ⟨c :: first, others, rfl, ?_, fun piece mem => later (inside piece mem), ?_⟩
      · exact List.cons_prefix_cons.2 ⟨rfl, start⟩
      · exact List.forall_mem_cons.2 ⟨List.forall_mem_cons.2 ⟨by simpa using hc, free⟩, frees⟩

theorem infix_of_mem_splitOn {a : Char} {cs piece : List Char} (mem : piece ∈ cs.splitOn a) :
    piece <:+: cs ∧ a ∉ piece := by
  rw [List.splitOn_eq_splitOnP] at mem
  have ⟨inside, free⟩ := infix_of_mem_splitOnP mem
  exact ⟨inside, fun mem => by simpa using free a mem⟩

@[simp] theorem words_nil : words [] = [] := by simp [words]

theorem words_append_blank {c : Char} (blank : isBlank c) (cs ds : List Char) :
    words (cs ++ c :: ds) = words cs ++ words ds := by
  simp only [words]
  rw [List.splitOnP_append_cons _ _ blank, List.filter_append, List.map_append]

theorem words_cons_blank {c : Char} (blank : isBlank c) (cs : List Char) :
    words (c :: cs) = words cs := by
  simpa using words_append_blank blank [] cs

theorem words_of_isWord {cs : List Char} (word : IsWord cs) : words cs = [String.ofList cs] := by
  simp [words, List.splitOnP_eq_singleton word.not_blank, word.ne_nil]

theorem mem_words {cs : List Char} {word : String} (mem : word ∈ words cs) :
    IsWord word.toList ∧ word.toList <:+: cs := by
  have ⟨piece, hp, e⟩ := List.mem_map.1 mem
  subst e
  have ⟨hp, ne⟩ := List.mem_filter.1 hp
  have ⟨inside, free⟩ := infix_of_mem_splitOnP hp
  rw [String.toList_ofList]
  exact ⟨⟨by simpa using ne, free⟩, inside⟩

theorem words_replicate_append (width : Nat) (cs : List Char) :
    words (List.replicate width ' ' ++ cs) = words cs := by
  induction width with
  | zero => rfl
  | succ width ih => rw [List.replicate_succ, List.cons_append, words_cons_blank (by decide), ih]

def spaced (names : List String) : List Char := [' '].intercalate (names.map String.toList)

@[simp] theorem spaced_nil : spaced [] = [] := rfl

@[simp] theorem spaced_singleton (name : String) : spaced [name] = name.toList :=
  List.intercalate_singleton

theorem spaced_cons_cons (name name' : String) (names : List String) :
    spaced (name :: name' :: names) = name.toList ++ ' ' :: spaced (name' :: names) := by
  rw [spaced, List.map_cons, List.map_cons, List.intercalate_cons_cons, List.append_assoc]
  rfl

theorem words_spaced {names : List String} (legible : ∀ name ∈ names, IsWord name.toList) :
    words (spaced names) = names := by
  induction names with
  | nil => simp
  | cons name names ih =>
    have ⟨word, others⟩ := List.forall_mem_cons.1 legible
    have first : words name.toList = [name] := by rw [words_of_isWord word, String.ofList_toList]
    cases names with
    | nil => simpa using first
    | cons name' names =>
      rw [spaced_cons_cons, words_append_blank (by decide), first, ih others]
      rfl

theorem not_mem_spaced {names : List String} {c : Char} (ne : c ≠ ' ')
    (absent : ∀ name ∈ names, c ∉ name.toList) :
    c ∉ spaced names := by
  intro mem
  rcases mem_intercalate mem with mem | ⟨piece, hp, mem⟩
  · exact ne (List.mem_singleton.1 mem)
  · have ⟨name, hn, e⟩ := List.mem_map.1 hp
    exact absent name hn (e ▸ mem)

def arrow : List Char := ['-', '>']

theorem splitArrows_cons {c : Char} {cs : List Char} (no : ¬ arrow <+: c :: cs) :
    splitArrows (c :: cs) = (splitArrows cs).modifyHead (c :: ·) := by
  rw [splitArrows]
  rintro rest rfl rfl
  exact no ⟨rest, rfl⟩

theorem intercalate_splitArrows (cs : List Char) : arrow.intercalate (splitArrows cs) = cs := by
  fun_induction splitArrows cs with
  | case1 => rfl
  | case2 rest ih =>
    obtain ⟨piece, pieces, e⟩ := List.exists_cons_of_ne_nil (splitArrows_ne_nil rest)
    rw [e] at ih ⊢
    rw [List.intercalate_cons_cons, ih]
    rfl
  | case3 c rest no ih =>
    obtain ⟨piece, pieces, e⟩ := List.exists_cons_of_ne_nil (splitArrows_ne_nil rest)
    rw [e] at ih ⊢
    rw [← ih]
    cases pieces <;> rfl

theorem splitArrows_of_free {cs : List Char} (free : ¬ arrow <:+: cs) : splitArrows cs = [cs] := by
  induction cs with
  | nil => rfl
  | cons c cs ih =>
    rw [List.infix_cons_iff, not_or] at free
    rw [splitArrows_cons free.1, ih free.2]
    rfl

theorem splitArrows_append_arrow (cs ds : List Char) :
    splitArrows (cs ++ arrow ++ ds) = splitArrows cs ++ splitArrows ds := by
  -- No arrow begins before the one that is put in the middle and ends in it.
  fun_induction splitArrows cs with
  | case1 => rfl
  | case2 rest ih => exact congrArg ([] :: ·) ih
  | case3 c rest no ih =>
    have later : ¬ arrow <+: c :: (rest ++ arrow ++ ds) := by
      intro start
      obtain ⟨tail, e⟩ := start
      cases rest with
      | nil => simp [arrow] at e
      | cons c' rest =>
        simp only [arrow, List.cons_append, List.nil_append, List.cons.injEq] at e
        obtain ⟨first, second, _⟩ := e
        exact no rest first.symm (second ▸ rfl)
    obtain ⟨piece, pieces, e⟩ := List.exists_cons_of_ne_nil (splitArrows_ne_nil rest)
    rw [List.cons_append, List.cons_append, splitArrows_cons later, ih, e]
    rfl

theorem splitArrows_append {cs : List Char} (free : ¬ arrow <:+: cs) (ds : List Char) :
    splitArrows (cs ++ arrow ++ ds) = cs :: splitArrows ds := by
  rw [splitArrows_append_arrow, splitArrows_of_free free]
  rfl

theorem not_infix_of_mem_splitArrows {cs piece : List Char} (mem : piece ∈ splitArrows cs) :
    ¬ arrow <:+: piece := by
  -- As for words, the first piece is a prefix of the text.
  suffices pieces : ∃ first others, splitArrows cs = first :: others ∧ first <+: cs ∧
      ∀ piece ∈ first :: others, ¬ arrow <:+: piece by
    obtain ⟨first, others, e, _, free⟩ := pieces
    exact free piece (e ▸ mem)
  clear mem
  fun_induction splitArrows cs with
  | case1 => exact ⟨[], [], rfl, List.nil_prefix, by simp [arrow]⟩
  | case2 rest ih =>
    obtain ⟨first, others, e, _, free⟩ := ih
    exact ⟨[], splitArrows rest, rfl, List.nil_prefix,
      List.forall_mem_cons.2 ⟨by simp [arrow], e ▸ free⟩⟩
  | case3 c rest no ih =>
    obtain ⟨first, others, e, start, free⟩ := ih
    obtain ⟨free, frees⟩ := List.forall_mem_cons.1 free
    have start' : c :: first <+: c :: rest := List.cons_prefix_cons.2 ⟨rfl, start⟩
    refine ⟨c :: first, others, by rw [e]; rfl, start', List.forall_mem_cons.2 ⟨?_, frees⟩⟩
    rw [List.infix_cons_iff, not_or]
    refine ⟨fun h => ?_, free⟩
    obtain ⟨tail, e⟩ := h.trans start'
    cases e
    exact no tail rfl rfl

structure IsLine (cs : List Char) : Prop where
  ne_nil : cs ≠ []
  no_feed : '\n' ∉ cs
  no_return : '\r' ∉ cs

theorem lines_append_feed {cs : List Char} (no_feed : '\n' ∉ cs) (no_return : '\r' ∉ cs)
    (rest : List Char) :
    lines (cs ++ '\n' :: rest) = cs :: lines rest := by
  induction cs with
  | nil => rfl
  | cons c cs ih =>
    rw [List.mem_cons, not_or] at no_feed no_return
    rw [List.cons_append, lines, ih no_feed.2 no_return.2]
    · exact fun _ h _ => no_return.1 h.symm
    · exact fun h => no_feed.1 h.symm

theorem lines_of_isLine {cs : List Char} (line : IsLine cs) : lines cs = [cs] := by
  rcases line with ⟨ne, no_feed, no_return⟩
  induction cs with
  | nil => contradiction
  | cons c cs ih =>
    rw [List.mem_cons, not_or] at no_feed no_return
    rw [lines]
    · cases cs with
      | nil => rfl
      | cons c' cs => rw [ih (List.cons_ne_nil _ _) no_feed.2 no_return.2]
    · exact fun _ h _ => no_return.1 h.symm
    · exact fun h => no_feed.1 h.symm

theorem lines_intercalate {texts : List (List Char)} (all : ∀ text ∈ texts, IsLine text) :
    lines (['\n'].intercalate texts) = texts := by
  induction texts with
  | nil => rfl
  | cons text texts ih =>
    have ⟨line, others⟩ := List.forall_mem_cons.1 all
    cases texts with
    | nil => simpa using lines_of_isLine line
    | cons text' texts =>
      rw [List.intercalate_cons_cons, List.append_assoc, List.singleton_append,
        lines_append_feed line.no_feed line.no_return, ih others]

end ChomskyNormal
