import ChomskyNormal.Grammar.Equivalence
import ChomskyNormal.Proofs.Additions
import ChomskyNormal.Text.NormalFormJson
import Mathlib.Data.List.Basic

/-!
# What JSON listings tell

A written value ends before anything that may follow it, so two values that are written alike are
equal: this passes from characters to strings, to arrays and to objects, and gives back the listing.
A listing shows bare names, but every nonterminal has a rule in it, if only one without
alternatives. So the left sides tell the kinds of the names, and nothing is lost but the terminals
that are not used.
-/

namespace ChomskyNormal

namespace Json

/-- No continuation of a written value begins with another one, or with the end of an array. -/
structure SelfDelimiting {α : Type} (write : α → String) : Prop where
  split : ∀ {a b : α} {x y : List Char}, (write a).toList ++ x = (write b).toList ++ y →
    a = b ∧ x = y
  not_close : ∀ (a : α) (x y : List Char), (write a).toList ++ x ≠ ']' :: y

section SelfDelimiting

variable {α β : Type} {write : α → String} {write' : β → String}

theorem SelfDelimiting.injective (h : SelfDelimiting write) {a b : α} (same : write a = write b) :
    a = b :=
  (h.split (congrArg (·.toList ++ []) same)).1

theorem SelfDelimiting.comp (h : SelfDelimiting write) {f : β → α}
    (injective : ∀ {b b'}, f b = f b' → b = b') :
    SelfDelimiting fun b => write (f b) where
  split := fun same => (h.split same).imp_left injective
  not_close := fun b => h.not_close (f b)

def hexValue (c : Char) : Nat := "0123456789abcdef".toList.idxOf c

theorem hexValue_hexDigit : ∀ n < 16, hexValue (hexDigit n) = n := by decide

def unescape : Char → Char
  | 'b' => '\x08'
  | 't' => '\t'
  | 'n' => '\n'
  | 'f' => '\x0c'
  | 'r' => '\r'
  | c => c

def readEscape : List Char → Option (Char × List Char)
  | 'u' :: _ :: _ :: high :: low :: rest => some (.ofNat (16 * hexValue high + hexValue low), rest)
  | c :: rest => some (unescape c, rest)
  | [] => none

def readCharacter : List Char → Option (Char × List Char)
  | c :: rest => if c = '"' then none else if c = '\\' then readEscape rest else some (c, rest)
  | [] => none

theorem readCharacter_escape (c : Char) (rest : List Char) :
    readCharacter ((escape c).toList ++ rest) = some (c, rest) := by
  unfold escape
  split
  · rfl
  · rfl
  · rfl
  · rfl
  · rfl
  · rfl
  · rfl
  · next not_quote not_backslash _ _ _ _ _ =>
    split
    · next control =>
      have high := hexValue_hexDigit (c.toNat / 16) (by omega)
      have low := hexValue_hexDigit (c.toNat % 16) (by omega)
      have value : Char.ofNat (16 * (c.toNat / 16) + c.toNat % 16) = c := by
        rw [Nat.div_add_mod, Char.ofNat_toNat]
      simp [readCharacter, readEscape, high, low, value]
    · have plain : readCharacter (c :: rest) = some (c, rest) := by
        rw [readCharacter, if_neg not_quote, if_neg not_backslash]
      simpa using plain

def escaped (cs : List Char) : List Char := cs.flatMap fun c => (escape c).toList

theorem toList_quote (s : String) : (quote s).toList = '"' :: (escaped s.toList ++ ['"']) := by
  simp [quote, escaped, String.toList_join, List.flatMap_map]

theorem escaped_split {cs ds x y : List Char}
    (same : escaped cs ++ '"' :: x = escaped ds ++ '"' :: y) :
    cs = ds ∧ x = y := by
  induction cs generalizing ds with
  | nil =>
    cases ds with
    | nil => simpa [escaped] using same
    | cons d ds =>
      have read := congrArg readCharacter same
      rw [escaped, escaped, List.flatMap_cons, List.append_assoc, readCharacter_escape] at read
      exact nomatch read
  | cons c cs ih =>
    have read := congrArg readCharacter same
    rw [escaped, List.flatMap_cons, List.append_assoc, readCharacter_escape] at read
    cases ds with
    | nil => exact nomatch read
    | cons d ds =>
      rw [escaped, List.flatMap_cons, List.append_assoc, readCharacter_escape, Option.some.injEq,
        Prod.mk.injEq] at read
      obtain ⟨tails, ends⟩ := ih read.2
      exact ⟨by rw [read.1, tails], ends⟩

theorem selfDelimiting_quote : SelfDelimiting quote where
  split := by
    intro s t x y same
    rw [toList_quote, toList_quote] at same
    simp only [List.cons_append, List.append_assoc, List.cons.injEq, true_and,
      List.nil_append] at same
    exact (escaped_split same).imp_left String.toList_inj.1
  not_close := by
    intro s x y same
    rw [toList_quote] at same
    exact nomatch (List.cons.inj same).1

theorem intercalate_cons (separator piece : List Char) (pieces : List (List Char)) :
    separator.intercalate (piece :: pieces) = piece ++ pieces.flatMap (separator ++ ·) := by
  induction pieces generalizing piece with
  | nil => simp
  | cons piece' pieces ih =>
    rw [List.intercalate_cons_cons, ih, List.flatMap_cons, List.append_assoc, List.append_assoc]

def laterItems (write : α → String) (as : List α) : List Char :=
  as.flatMap fun a => ',' :: (write a).toList

def items (write : α → String) : List α → List Char
  | [] => []
  | a :: as => (write a).toList ++ laterItems write as

theorem toList_array (as : List α) :
    (array (as.map write)).toList = '[' :: (items write as ++ [']']) := by
  simp only [array, String.toList_append, String.toList_intercalate]
  rw [show ",".toList = [','] from rfl]
  cases as with
  | nil => rfl
  | cons a as =>
    rw [List.map_cons, List.map_cons, intercalate_cons, List.flatMap_map, List.flatMap_map]
    rfl

theorem SelfDelimiting.laterItems_split (h : SelfDelimiting write) {as bs : List α}
    {x y : List Char} (same : laterItems write as ++ ']' :: x = laterItems write bs ++ ']' :: y) :
    as = bs ∧ x = y := by
  induction as generalizing bs with
  | nil =>
    cases bs with
    | nil => simpa [laterItems] using same
    | cons b bs => exact nomatch (List.cons.inj same).1
  | cons a as ih =>
    cases bs with
    | nil => exact nomatch (List.cons.inj same).1
    | cons b bs =>
      rw [laterItems, laterItems, List.flatMap_cons, List.flatMap_cons, List.append_assoc,
        List.append_assoc] at same
      obtain ⟨first, rest⟩ := h.split (List.cons.inj same).2
      obtain ⟨others, ends⟩ := ih rest
      exact ⟨by rw [first, others], ends⟩

theorem SelfDelimiting.items_split (h : SelfDelimiting write) {as bs : List α} {x y : List Char}
    (same : items write as ++ ']' :: x = items write bs ++ ']' :: y) : as = bs ∧ x = y := by
  cases as with
  | nil =>
    cases bs with
    | nil => simpa [items] using same
    | cons b bs =>
      rw [items, items, List.append_assoc] at same
      exact (h.not_close _ _ _ same.symm).elim
  | cons a as =>
    rw [items, List.append_assoc] at same
    cases bs with
    | nil => exact (h.not_close _ _ _ same).elim
    | cons b bs =>
      rw [items, List.append_assoc] at same
      obtain ⟨first, rest⟩ := h.split same
      obtain ⟨others, ends⟩ := h.laterItems_split rest
      exact ⟨by rw [first, others], ends⟩

theorem selfDelimiting_array (h : SelfDelimiting write) :
    SelfDelimiting fun as : List α => array (as.map write) where
  split := by
    intro as bs x y same
    rw [toList_array, toList_array] at same
    simp only [List.cons_append, List.append_assoc, List.cons.injEq, true_and,
      List.nil_append] at same
    exact h.items_split same
  not_close := by
    intro as x y same
    rw [toList_array] at same
    exact nomatch (List.cons.inj same).1

theorem toList_object (name name' value value' : String) :
    (object [(name, value), (name', value')]).toList =
      '\x7b' :: ((quote name).toList ++ (':' :: (value.toList ++
        (',' :: ((quote name').toList ++ (':' :: (value'.toList ++ ['\x7d']))))))) := by
  simp [object]

theorem selfDelimiting_object (name name' : String) (h : SelfDelimiting write)
    (h' : SelfDelimiting write') :
    SelfDelimiting fun members : α × β =>
      object [(name, write members.1), (name', write' members.2)] where
  split := by
    intro p q x y same
    rw [toList_object, toList_object] at same
    simp only [List.cons_append, List.nil_append, List.append_assoc, List.cons.injEq, true_and,
      List.append_right_inj] at same
    obtain ⟨first, rest⟩ := h.split same
    simp only [List.cons.injEq, true_and, List.append_right_inj] at rest
    obtain ⟨second, ends⟩ := h'.split rest
    exact ⟨Prod.ext first second, (List.cons.inj ends).2⟩
  not_close := by
    intro p x y same
    rw [toList_object] at same
    exact nomatch (List.cons.inj same).1

end SelfDelimiting

end Json

theorem ListedRule.selfDelimiting_json : Json.SelfDelimiting ListedRule.json :=
  (Json.selfDelimiting_object "left" "rights" Json.selfDelimiting_quote
    (Json.selfDelimiting_array (Json.selfDelimiting_array Json.selfDelimiting_quote))).comp
      (f := fun rule : ListedRule => (rule.left, rule.rights)) fun {rule rule'} same => by
        cases rule
        cases rule'
        cases same
        rfl

theorem Listing.selfDelimiting_json : Json.SelfDelimiting Listing.json :=
  (Json.selfDelimiting_object "start" "productions" Json.selfDelimiting_quote
    (Json.selfDelimiting_array ListedRule.selfDelimiting_json)).comp
      (f := fun listing : Listing => (listing.start, listing.rules))
      fun {listing listing'} same => by
        cases listing
        cases listing'
        cases same
        rfl

def symbolNamed (lefts : List String) (name : String) : Symbol :=
  if name ∈ lefts then .nonterminal name else .terminal name

def ListedRule.restore (lefts : List String) (rule : ListedRule) : String × List Alternative :=
  (rule.left, rule.rights.map fun right => right.map (symbolNamed lefts))

/-- The rules that are listed, with the kind of each name found by the left sides. -/
def Listing.restore (listing : Listing) : List (String × List Alternative) :=
  listing.rules.map (ListedRule.restore (listing.rules.map ListedRule.left))

namespace Grammar

variable {g h : Grammar}

theorem lefts_listing (g : Grammar) :
    g.listing.rules.map ListedRule.left = g.rules.keys.toList := by
  rw [listing, List.map_map, OrderedMap.toList_keys]
  rfl

theorem symbolNamed_name (wf : g.WellFormed)
    (entries : ∀ name ∈ g.nonterminals, name ∈ g.rules.keys) {symbol : Symbol}
    (declared : g.UsesDeclared symbol) : symbolNamed g.rules.keys.toList symbol.name = symbol := by
  cases symbol with
  | nonterminal name => exact if_pos (entries name declared)
  | terminal name => exact if_neg fun mem => wf.disjoint name (wf.lefts_declared name mem) declared

theorem restore_listing (wf : g.WellFormed)
    (entries : ∀ name ∈ g.nonterminals, name ∈ g.rules.keys) :
    g.listing.restore = g.rules.entries.map fun rule => (rule.1, rule.2.toList) := by
  rw [Listing.restore, lefts_listing, listing, List.map_map]
  apply List.map_congr_left
  intro rule mem
  have restored : ∀ right ∈ rule.2.toList,
      (right.map Symbol.name).map (symbolNamed g.rules.keys.toList) = right := by
    intro right hr
    have declared := wf.rights_declared rule.1 right (mem_alternatives_iff.2 ⟨rule.2, mem, hr⟩)
    rw [List.map_map]
    exact (List.map_congr_left fun symbol hs =>
      symbolNamed_name wf entries (declared symbol hs)).trans (List.map_id _)
  refine Prod.ext rfl ?_
  change (rule.2.toList.map _).map _ = rule.2.toList
  rw [List.map_map]
  exact (List.map_congr_left restored).trans (List.map_id _)

theorem rules_eq_of_listing (wf : g.WellFormed)
    (entries : ∀ name ∈ g.nonterminals, name ∈ g.rules.keys) (wf' : h.WellFormed)
    (entries' : ∀ name ∈ h.nonterminals, name ∈ h.rules.keys) (same : g.listing = h.listing) :
    g.rules = h.rules := by
  have rules := restore_listing wf entries
  rw [same, restore_listing wf' entries'] at rules
  have injective : Function.Injective fun rule : String × OrderedSet Alternative =>
    (rule.1, rule.2.toList) := by
    intro rule rule' e
    obtain ⟨lefts, rights⟩ := Prod.mk.inj e
    exact Prod.ext lefts (OrderedSet.toList_injective rights)
  exact OrderedMap.entries_injective (List.map_injective_iff.2 injective rules).symm

theorem rules_eq_of_json_listing (valid : g.validate = .ok ())
    (entries : ∀ name ∈ g.nonterminals, name ∈ g.rules.keys) (valid' : h.validate = .ok ())
    (entries' : ∀ name ∈ h.nonterminals, name ∈ h.rules.keys)
    (same : g.listing.json = h.listing.json) :
    g.start = h.start ∧ g.nonterminals.Same h.nonterminals ∧ g.rules = h.rules := by
  have wf := validate_eq_ok_iff.1 valid
  have wf' := validate_eq_ok_iff.1 valid'
  have listed : g.listing = h.listing := Listing.selfDelimiting_json.injective same
  have rules := rules_eq_of_listing wf entries wf' entries' listed
  refine ⟨congrArg Listing.start listed, OrderedSet.same_iff.2 fun name => ?_, rules⟩
  have keys : name ∈ g.nonterminals ↔ name ∈ g.rules.keys := ⟨entries name, wf.lefts_declared name⟩
  have keys' : name ∈ h.nonterminals ↔ name ∈ h.rules.keys :=
    ⟨entries' name, wf'.lefts_declared name⟩
  rw [keys, keys', rules]

def punctuated (nonterminals terminals : List String) : Grammar :=
  addProductions ⟨"\"", .ofList nonterminals, .ofList terminals,
    .ofKeys (.ofList ["\"", "\\", "],[\n"]) ∅⟩
    [("\"", [.nonterminal "\\", .terminal "\x01", .nonterminal "],[\n"]), ("\"", []),
      ("\\", [.terminal "\",\""])]

theorem rules_eq_of_json_listing_punctuated :
    let g := punctuated ["\"", "\\", "],[\n"] ["\x01", "\",\""]
    let h := punctuated ["],[\n", "\\", "\""] ["\",\"", "\u00e9", "\x01"]
    g.validate = .ok () ∧ (∀ name ∈ g.nonterminals, name ∈ g.rules.keys) ∧
      h.validate = .ok () ∧ (∀ name ∈ h.nonterminals, name ∈ h.rules.keys) ∧
      g.listing.json = h.listing.json ∧
        g.start = h.start ∧ g.nonterminals.Same h.nonterminals ∧ g.rules = h.rules := by
  intro g h
  have valid : g.validate = .ok () := rfl
  have entries : ∀ name ∈ g.nonterminals.toList, name ∈ g.rules.keys := by decide
  have valid' : h.validate = .ok () := rfl
  have entries' : ∀ name ∈ h.nonterminals.toList, name ∈ h.rules.keys := by decide
  have same : g.listing.json = h.listing.json := rfl
  exact ⟨valid, entries, valid', entries', same,
    rules_eq_of_json_listing valid entries valid' entries' same⟩

end Grammar

end ChomskyNormal
