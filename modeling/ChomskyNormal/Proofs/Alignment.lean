import ChomskyNormal.Proofs.Printing

/-!
# Alignment of plain listings

A plain listing has one line for each production, in order, and all arrows and bars stand in the
same column. The column is found by counting bytes and the lines are filled up by counting
characters. No name has fewer bytes than characters, so there is room for every left side, and the
margins come out equally long.
-/

namespace ChomskyNormal

theorem length_le_utf8ByteSize (s : String) : s.length ≤ s.utf8ByteSize := by
  have counted (cs : List Char) : cs.length ≤ (String.ofList cs).utf8ByteSize := by
    induction cs with
    | nil => simp
    | cons c cs ih =>
      have pos := Char.utf8Size_pos c
      rw [String.ofList_cons, String.utf8ByteSize_append, String.utf8ByteSize_singleton,
        List.length_cons]
      omega
  have bound := counted s.toList
  rwa [String.length_toList, String.ofList_toList] at bound

theorem Listing.length_left_le_width {listing : Listing} {rule : ListedRule}
    (mem : rule ∈ listing.inhabited) :
    rule.left.length ≤ listing.width :=
  (length_le_utf8ByteSize rule.left).trans
    (List.le_max?_getD_of_mem (List.mem_map_of_mem mem))

/-- The line shows the right side behind a margin of `width` characters, which are spaces and then
`shown`, and behind the mark. -/
def Aligned (width : Nat) (shown mark : String) (right : Alternative) (line : List Char) : Prop :=
  ∃ spaces, spaces + shown.length = width ∧
    line = List.replicate spaces ' ' ++ shown.toList ++ mark.toList ++
      (plainRight (right.map Symbol.name)).toList

theorem aligned_alignRight {width : Nat} {shown : String} (fits : shown.length ≤ width)
    (mark : String) (right : Alternative) :
    Aligned width shown mark right
      (alignRight width shown ++ mark ++ plainRight (right.map Symbol.name)).toList :=
  ⟨width - shown.length, Nat.sub_add_cancel fits, by
    rw [String.toList_append, String.toList_append, toList_alignRight]⟩

/-- One line for each production, in order. The left side stands on the first line of its
nonterminal only; `seen` has the nonterminals that have had theirs. -/
inductive AlignedLines (width : Nat) :
    List String → List (String × Alternative) → List (List Char) → Prop where
  | nil {seen : List String} : AlignedLines width seen [] []
  | first {seen : List String} {left : String} {right : Alternative} {line : List Char}
      {productions : List (String × Alternative)} {lines : List (List Char)} :
      left ∉ seen → Aligned width left " -> " right line →
      AlignedLines width (left :: seen) productions lines →
      AlignedLines width seen ((left, right) :: productions) (line :: lines)
  | later {seen : List String} {left : String} {right : Alternative} {line : List Char}
      {productions : List (String × Alternative)} {lines : List (List Char)} :
      left ∈ seen → Aligned width "" "  | " right line → AlignedLines width seen productions lines →
      AlignedLines width seen ((left, right) :: productions) (line :: lines)

section Lines

variable {width : Nat} {seen : List String} {productions : List (String × Alternative)}
  {lines : List (List Char)}

theorem AlignedLines.eq_nil_iff (aligned : AlignedLines width seen productions lines) :
    productions = [] ↔ lines = [] := by
  cases aligned <;> simp

theorem AlignedLines.later_append {left : String} (old : left ∈ seen) (rights : List Alternative)
    (aligned : AlignedLines width seen productions lines) :
    AlignedLines width seen (rights.map (fun right => (left, right)) ++ productions)
      (rights.map (fun right =>
          (alignRight width "" ++ "  | " ++ plainRight (right.map Symbol.name)).toList) ++
        lines) := by
  induction rights with
  | nil => exact aligned
  | cons right rights ih =>
    exact .later old (aligned_alignRight (Nat.zero_le width) "  | " right) ih

theorem map_toList_plainLines (width : Nat) (left : String) (right : Alternative)
    (others : List Alternative) :
    (ListedRule.plainLines width
      ⟨left, (right :: others).map fun right => right.map Symbol.name⟩).map String.toList =
      (alignRight width left ++ " -> " ++ plainRight (right.map Symbol.name)).toList ::
        others.map fun right =>
          (alignRight width "" ++ "  | " ++ plainRight (right.map Symbol.name)).toList := by
  rw [List.map_cons, ListedRule.plainLines, List.map_cons, List.map_map, List.map_map]
  rfl

theorem alignedLines_rules {rules : List (String × OrderedSet Alternative)}
    (nodup : (rules.map Prod.fst).Nodup) (fresh : ∀ rule ∈ rules, rule.1 ∉ seen)
    (fits : ∀ rule ∈ rules, rule.2.toList ≠ [] → rule.1.length ≤ width) :
    AlignedLines width seen
      (rules.flatMap fun (left, rights) => rights.toList.map fun right => (left, right))
      ((rules.flatMap fun (left, rights) =>
        ListedRule.plainLines width
          ⟨left, rights.toList.map fun right => right.map Symbol.name⟩).map String.toList) := by
  -- The rules have different left sides, so that each begins with a nonterminal not seen before.
  induction rules generalizing seen with
  | nil => exact .nil
  | cons rule rules ih =>
    have ⟨left, rights⟩ := rule
    have ⟨new, nodup⟩ := List.nodup_cons.1 nodup
    have ⟨unseen, fresh⟩ := List.forall_mem_cons.1 fresh
    have ⟨room, fits⟩ := List.forall_mem_cons.1 fits
    rw [List.flatMap_cons, List.flatMap_cons, List.map_append]
    dsimp only
    cases shown : rights.toList with
    | nil => exact ih nodup fresh fits
    | cons right others =>
      have others_fresh : ∀ rule ∈ rules, rule.1 ∉ left :: seen := by
        intro rule mem
        rw [List.mem_cons, not_or]
        exact ⟨fun same => new (List.mem_map.2 ⟨rule, mem, same⟩), fresh rule mem⟩
      have head := aligned_alignRight (room (by simp [shown])) " -> " right
      have tail := (ih nodup others_fresh fits).later_append (List.mem_cons_self (a := left)) others
      rw [map_toList_plainLines]
      exact .first unseen head tail

end Lines

theorem not_mem_alignRight {c : Char} (ne : c ≠ ' ') {s : String} (absent : c ∉ s.toList)
    (width : Nat) :
    c ∉ (alignRight width s).toList := by
  rw [toList_alignRight, List.mem_append, not_or]
  exact ⟨fun mem => ne (List.eq_of_mem_replicate mem), absent⟩

theorem not_mem_plainRight {c : Char} (ne : c ≠ ' ') (absent : c ∉ epsilon.toList)
    {right : List String} (absent' : ∀ name ∈ right, c ∉ name.toList) :
    c ∉ (plainRight right).toList := by
  rw [toList_plainRight]
  refine not_mem_spaced ne fun name mem => ?_
  rw [spelling] at mem
  split at mem
  · exact List.mem_singleton.1 mem ▸ absent
  · exact absent' name mem

namespace Grammar

variable {g : Grammar}

def FeedFree (g : Grammar) : Prop :=
  ∀ left, ∀ right ∈ g.alternatives left,
    '\n' ∉ left.toList ∧ ∀ symbol ∈ right, '\n' ∉ symbol.name.toList

theorem listedRule_mem_inhabited {rule : String × OrderedSet Alternative}
    (mem : rule ∈ g.rules.entries) (shown : rule.2.toList ≠ []) :
    ⟨rule.1, rule.2.toList.map fun right => right.map Symbol.name⟩ ∈ g.listing.inhabited :=
  List.mem_filter.2 ⟨List.mem_map.2 ⟨rule, mem, rfl⟩, by simpa using shown⟩

theorem alignedLines_listing (g : Grammar) : AlignedLines g.listing.width [] g.productions
    ((g.listing.inhabited.flatMap (ListedRule.plainLines g.listing.width)).map String.toList) := by
  have fits : ∀ rule ∈ g.rules.entries, rule.2.toList ≠ [] → rule.1.length ≤ g.listing.width :=
    fun rule mem shown => Listing.length_left_le_width (listedRule_mem_inhabited mem shown)
  have unseen : ∀ rule ∈ g.rules.entries, rule.1 ∉ ([] : List String) := fun _ _ => List.not_mem_nil
  have aligned := alignedLines_rules g.rules.nodup_keys unseen fits
  rw [Listing.flatMap_inhabited fun rule none => by rw [ListedRule.plainLines, none]]
  simp only [listing, List.flatMap_map] at aligned ⊢
  exact aligned

theorem feed_not_mem_of_mem_lines (feedFree : g.FeedFree) {rule : ListedRule}
    (hr : rule ∈ g.listing.inhabited) {width : Nat} {line : String}
    (mem : line ∈ rule.plainLines width) : '\n' ∉ line.toList := by
  have ⟨right, hr', shape⟩ := exists_of_mem_plainLines mem
  have ⟨(left, rights), he, e⟩ := List.mem_map.1 (List.mem_filter.1 hr).1
  subst e
  have ⟨alternative, ha, e⟩ := List.mem_map.1 hr'
  subst e
  have ⟨free, free'⟩ := feedFree left alternative (mem_alternatives_iff.2 ⟨rights, he, ha⟩)
  have shown : '\n' ∉ (plainRight (alternative.map Symbol.name)).toList := by
    refine not_mem_plainRight (by decide) (by decide) fun name hn => ?_
    have ⟨symbol, hs, e⟩ := List.mem_map.1 hn
    exact e ▸ free' symbol hs
  rcases shape with e | e
  · have margin := not_mem_alignRight (c := '\n') (by decide) free width
    simp [e, margin, shown]
  · have margin := not_mem_alignRight (c := '\n') (by decide) (s := "") (by decide) width
    simp [e, margin, shown]

/-- One margin for all lines, and one line for each production; cut at its line feeds, the listing
falls into these lines again. -/
theorem plain_aligned (feedFree : g.FeedFree) :
    ∃ width lines, AlignedLines width [] g.productions lines ∧
    (g.productions = [] → g.listing.plain = "") ∧
      (g.productions ≠ [] → g.listing.plain.toList.splitOn '\n' = lines) := by
  have aligned := g.alignedLines_listing
  have joined := g.listing.toList_plain
  refine ⟨_, _, aligned, fun none => ?_, fun some => ?_⟩
  · rw [aligned.eq_nil_iff.1 none] at joined
    exact String.toList_inj.1 joined
  · rw [joined]
    refine List.splitOn_intercalate _ (fun text mem => ?_) fun nil =>
      some (aligned.eq_nil_iff.2 nil)
    have ⟨line, mem, e⟩ := List.mem_map.1 mem
    have ⟨rule, hr, mem⟩ := List.mem_flatMap.1 mem
    exact e ▸ feed_not_mem_of_mem_lines feedFree hr mem

def lettered : Grammar :=
  (bare "S" ["S", "Überlauf", "€€", "A"] ["a", "β"]).addProductions
    [("S", [.nonterminal "€€", .terminal "β"]), ("S", []), ("Überlauf", [.nonterminal "S"]),
      ("€€", [.terminal "a"])]

theorem plain_aligned_lettered : lettered.FeedFree ∧ ∃ width lines,
    AlignedLines width [] lettered.productions lines ∧
    lettered.listing.plain.toList.splitOn '\n' = lines := by
  have feedFree : lettered.FeedFree := by
    intro left right mem
    have all : ∀ production ∈ lettered.productions,
        '\n' ∉ production.1.toList ∧ ∀ symbol ∈ production.2, '\n' ∉ symbol.name.toList := by decide
    exact all (left, right) (mem_productions.2 mem)
  have ⟨width, lines, aligned, _, split⟩ := plain_aligned feedFree
  exact ⟨feedFree, width, lines, aligned, split (by decide)⟩

end Grammar

end ChomskyNormal
