import ChomskyNormal.Proofs.Binary
import Mathlib.Data.List.Nodup

/-!
# What binarization builds

Every nonterminal of a binarized grammar has a role: it was there before, it stands for a terminal,
or it derives what is left of one alternative behind its first symbols. Which roles there are and
what they derive depends on the productions only. Their order decides about the names: at any time a
draft spells out the rows of the productions that have been put back, with a name of its own for
each role.
-/

namespace ChomskyNormal

/-- A link is told from others by the production it belongs to and by what it derives. -/
inductive Role where
  | old (name : String)
  | wrapper (terminal : String)
  | link (left : String) (right rest : Alternative)
  deriving DecidableEq, Inhabited

inductive RoleSymbol where
  | nonterminal (role : Role)
  | terminal (name : String)
  deriving DecidableEq

structure Row where
  left : Role
  right : List RoleSymbol
  deriving DecidableEq

def Row.Within (row : Row) (roles : List Role) : Prop :=
  row.left ∈ roles ∧ ∀ role, .nonterminal role ∈ row.right → role ∈ roles

def Symbol.role : Symbol → Role
  | nonterminal name => .old name
  | terminal name => .wrapper name

def Symbol.kept : Symbol → RoleSymbol
  | nonterminal name => .nonterminal (.old name)
  | terminal name => .terminal name

namespace Row

def wrapper (terminal : String) : Row := ⟨.wrapper terminal, [.terminal terminal]⟩

def wrappers (symbols : List Symbol) : List Row := (symbols.filterMap Symbol.terminal?).map wrapper

def chain (left : String) (right : Alternative) (owner : Role) : List Symbol → List Row
  | first :: second :: third :: rest =>
    ⟨owner, [.nonterminal first.role, .nonterminal (.link left right (second :: third :: rest))]⟩ ::
      chain left right (.link left right (second :: third :: rest)) (second :: third :: rest)
  | symbols => [⟨owner, symbols.map fun symbol => .nonterminal symbol.role⟩]

def ofProduction (production : String × Alternative) : List Row :=
  if Alternative.Short production.2 then [⟨.old production.1, production.2.map Symbol.kept⟩]
  else wrappers production.2 ++ chain production.1 production.2 (.old production.1) production.2

end Row

namespace Role

def wrappers (symbols : List Symbol) : List Role := (symbols.filterMap Symbol.terminal?).map wrapper

def links (left : String) (right : Alternative) : List Symbol → List Role
  | _ :: second :: third :: rest =>
    link left right (second :: third :: rest) :: links left right (second :: third :: rest)
  | _ => []

def ofProduction (production : String × Alternative) : List Role :=
  if Alternative.Short production.2 then []
  else wrappers production.2 ++ links production.1 production.2 production.2

theorem exists_of_mem_links {left : String} {right : Alternative} {symbols : List Symbol}
    {role : Role} (mem : role ∈ links left right symbols) :
    ∃ rest, role = link left right rest ∧ rest.length < symbols.length := by
  fun_induction links left right symbols with
  | case1 first second third rest ih =>
    rcases List.mem_cons.1 mem with e | mem
    · exact ⟨_, e, by simp⟩
    · obtain ⟨rest', e, shorter⟩ := ih mem
      refine ⟨rest', e, Nat.lt_trans shorter ?_⟩
      simp
  | case2 => simp at mem

theorem link_not_mem_links (left : String) (right symbols : Alternative) :
    link left right symbols ∉ links left right symbols := by
  intro mem
  obtain ⟨rest, e, shorter⟩ := exists_of_mem_links mem
  rw [link.injEq] at e
  rw [e.2.2] at shorter
  exact absurd shorter (Nat.lt_irrefl _)

theorem exists_of_mem_wrappers {symbols : List Symbol} {role : Role}
    (mem : role ∈ wrappers symbols) :
    ∃ terminal, role = wrapper terminal := by
  obtain ⟨terminal, _, e⟩ := List.mem_map.1 mem
  exact ⟨terminal, e.symm⟩

theorem ofProduction_cases {production : String × Alternative} {role : Role}
    (mem : role ∈ ofProduction production) :
    (∃ terminal, role = wrapper terminal) ∨ ∃ rest, role = link production.1 production.2 rest := by
  rw [ofProduction] at mem
  split at mem
  · simp at mem
  · rcases List.mem_append.1 mem with mem | mem
    · exact .inl (exists_of_mem_wrappers mem)
    · obtain ⟨rest, e, _⟩ := exists_of_mem_links mem
      exact .inr ⟨rest, e⟩

end Role

def RoleSymbol.spell (nameOf : Role → String) : RoleSymbol → Symbol
  | nonterminal role => .nonterminal (nameOf role)
  | terminal name => .terminal name

theorem spell_kept {nameOf : Role → String} (old : ∀ name, nameOf (.old name) = name)
    (right : Alternative) :
    (right.map Symbol.kept).map (RoleSymbol.spell nameOf) = right := by
  rw [List.map_map]
  apply List.map_id''
  intro symbol
  cases symbol with
  | nonterminal name => exact congrArg Symbol.nonterminal (old name)
  | terminal name => rfl

theorem spell_congr {nameOf nameOf' : Role → String} {symbols : List RoleSymbol}
    (agree : ∀ role, .nonterminal role ∈ symbols → nameOf' role = nameOf role) :
    symbols.map (RoleSymbol.spell nameOf') = symbols.map (RoleSymbol.spell nameOf) := by
  apply List.map_congr_left
  intro symbol mem
  cases symbol with
  | nonterminal role => exact congrArg Symbol.nonterminal (agree role mem)
  | terminal => rfl

/-- The roles have distinct names, which are the nonterminals, and the spelled rows are the
productions. -/
structure Grammar.Spells (h : Grammar) (nameOf : Role → String) (roles : List Role)
    (rows : List Row) : Prop where
  old : ∀ name, nameOf (.old name) = name
  injective : ∀ role ∈ roles, ∀ role' ∈ roles, nameOf role = nameOf role' → role = role'
  nonterminals : ∀ name, name ∈ h.nonterminals ↔ ∃ role ∈ roles, nameOf role = name
  alternatives : ∀ name right, right ∈ h.alternatives name ↔
    ∃ row ∈ rows, nameOf row.left = name ∧ row.right.map (RoleSymbol.spell nameOf) = right
  known : ∀ row ∈ rows, row.Within roles

namespace Grammar.Spells

variable {h : Grammar} {nameOf : Role → String} {roles roles' : List Role} {rows rows' : List Row}

theorem of_mem_iff (s : h.Spells nameOf roles rows) (same : ∀ role, role ∈ roles' ↔ role ∈ roles)
    (same' : ∀ row, row ∈ rows' ↔ row ∈ rows) : h.Spells nameOf roles' rows' where
  old := s.old
  injective := by simpa only [same] using s.injective
  nonterminals := by simpa only [same] using s.nonterminals
  alternatives := by simpa only [same'] using s.alternatives
  known := by simpa only [Row.Within, same, same'] using s.known

theorem ne_of_fresh (s : h.Spells nameOf roles rows) {name : String} (fresh : ¬ h.Declares name)
    {role : Role} (mem : role ∈ roles) : nameOf role ≠ name :=
  fun e => fresh (.inl ((s.nonterminals name).2 ⟨role, mem, e⟩))

theorem addRow (s : h.Spells nameOf roles rows) (row : Row) (within : row.Within roles) :
    (h.addProduction (nameOf row.left) (row.right.map (RoleSymbol.spell nameOf))).Spells
      nameOf roles (row :: rows) where
  old := s.old
  injective := s.injective
  nonterminals := s.nonterminals
  alternatives := by
    intro name right
    rw [mem_alternatives_addProduction, s.alternatives, Prod.mk.injEq, or_comm, eq_comm,
      eq_comm (a := right)]
    simp only [List.mem_cons, exists_eq_or_imp]
  known := List.forall_mem_cons.2 ⟨within, s.known⟩

theorem declare (s : h.Spells nameOf roles rows) {role : Role} (new : role ∉ roles)
    (minted : ∀ name, .old name ≠ role) {name : String} (fresh : ¬ h.Declares name) :
    (∀ role' ∈ roles, Function.update nameOf role name role' = nameOf role') ∧
      (h.declare name).Spells (Function.update nameOf role name) (role :: roles) rows := by
  have agree : ∀ role' ∈ roles, Function.update nameOf role name role' = nameOf role' := by
    intro role' mem
    apply Function.update_of_ne
    exact fun e => new (e ▸ mem)
  have self : Function.update nameOf role name role = name := Function.update_self ..
  refine ⟨agree, ?_⟩
  exact {
    old := fun other => (Function.update_of_ne (minted other) ..).trans (s.old other)
    injective := by
      have differ : ∀ role' ∈ roles, Function.update nameOf role name role' ≠ name :=
        fun role' mem => agree role' mem ▸ s.ne_of_fresh fresh mem
      intro first mem second mem' e
      rcases List.mem_cons.1 mem with new₁ | old₁
      · rcases List.mem_cons.1 mem' with new₂ | old₂
        · rw [new₁, new₂]
        · rw [new₁, self] at e
          exact absurd e.symm (differ second old₂)
      · rcases List.mem_cons.1 mem' with new₂ | old₂
        · rw [new₂, self] at e
          exact absurd e (differ first old₁)
        · rw [agree first old₁, agree second old₂] at e
          exact s.injective first old₁ second old₂ e
    nonterminals := by
      intro other
      simp only [Grammar.declare, OrderedSet.mem_insert, s.nonterminals, List.mem_cons,
        exists_eq_or_imp, self]
      rw [or_comm, eq_comm]
      refine or_congr_right (exists_congr fun role' => and_congr_right fun mem => ?_)
      rw [agree role' mem]
    alternatives := by
      intro other right
      rw [mem_alternatives_declare, s.alternatives]
      constructor
      · intro ⟨_, row, mem, left, spelled⟩
        obtain ⟨hl, hr⟩ := s.known row mem
        exact ⟨row, mem, (agree _ hl).trans left,
          (spell_congr fun role' hs => agree role' (hr role' hs)).trans spelled⟩
      · intro ⟨row, mem, left, spelled⟩
        obtain ⟨hl, hr⟩ := s.known row mem
        rw [agree _ hl] at left
        rw [spell_congr fun role' hs => agree role' (hr role' hs)] at spelled
        exact ⟨left ▸ s.ne_of_fresh fresh hl, row, mem, left, spelled⟩
    known := by
      intro row mem
      obtain ⟨hl, hr⟩ := s.known row mem
      exact ⟨.tail _ hl, fun role' hs => .tail _ (hr role' hs)⟩ }

end Grammar.Spells

/-- The draft spells the rows, and remembers the wrappers among the roles. -/
structure Draft.Realizes (d : Draft) (nameOf : Role → String) (roles : List Role)
    (rows : List Row) : Prop
    extends d.grammar.Spells nameOf roles rows where
  wrapped : ∀ terminal, .wrapper terminal ∈ roles → Row.wrapper terminal ∈ rows
  wrappers : ∀ terminal name, d.names.wrappers.get? terminal = some name ↔
    .wrapper terminal ∈ roles ∧ nameOf (.wrapper terminal) = name

namespace Draft.Realizes

variable {d : Draft} {nameOf : Role → String} {roles roles' : List Role} {rows rows' : List Row}

theorem of_mem_iff (r : d.Realizes nameOf roles rows) (same : ∀ role, role ∈ roles' ↔ role ∈ roles)
    (same' : ∀ row, row ∈ rows' ↔ row ∈ rows) : d.Realizes nameOf roles' rows' where
  toSpells := r.toSpells.of_mem_iff same same'
  wrapped := by simpa only [same, same'] using r.wrapped
  wrappers := by simpa only [same] using r.wrappers

theorem addRow (r : d.Realizes nameOf roles rows) (row : Row) (within : row.Within roles) :
    (d.addProduction (nameOf row.left) (row.right.map (RoleSymbol.spell nameOf))).Realizes
      nameOf roles (row :: rows) where
  toSpells := r.toSpells.addRow row within
  wrapped := fun terminal mem => .tail _ (r.wrapped terminal mem)
  wrappers := r.wrappers

theorem exists_wrapper (r : d.Realizes nameOf roles rows) (terminal : String) :
    ∃ nameOf' d', d.wrapper terminal = .ok (nameOf' (.wrapper terminal), d') ∧
      (∀ role ∈ roles, nameOf' role = nameOf role) ∧
        d'.Realizes nameOf' (.wrapper terminal :: roles) (Row.wrapper terminal :: rows) := by
  cases h : d.names.wrappers.get? terminal with
  | some name =>
    obtain ⟨mem, rfl⟩ := (r.wrappers terminal name).1 h
    have mem' := r.wrapped terminal mem
    refine ⟨nameOf, d, ?_, fun _ _ => rfl, r.of_mem_iff (fun role => ?_) fun row => ?_⟩
    · rw [wrapper, h]
    · rw [List.mem_cons, or_iff_right_of_imp (· ▸ mem)]
    · rw [List.mem_cons, or_iff_right_of_imp (· ▸ mem')]
  | none =>
    obtain ⟨name, fresh, e⟩ := d.exists_wrapper h
    have new : Role.wrapper terminal ∉ roles := by
      intro mem
      rw [(r.wrappers terminal _).2 ⟨mem, rfl⟩] at h
      contradiction
    obtain ⟨agree, spells⟩ := r.declare new (by simp) fresh
    have self : Function.update nameOf (.wrapper terminal) name (.wrapper terminal) = name :=
      Function.update_self ..
    have spells' := spells.addRow (Row.wrapper terminal) ⟨.head _, by simp [Row.wrapper]⟩
    refine ⟨Function.update nameOf (.wrapper terminal) name, _, by rw [e, self], agree, ?_⟩
    exact {
      toSpells := by
        rw [show (Row.wrapper terminal).left = .wrapper terminal from rfl, self] at spells'
        exact spells'
      wrapped := by
        intro other mem
        rcases List.mem_cons.1 mem with same | mem
        · cases same
          exact .head _
        · exact .tail _ (r.wrapped other mem)
      wrappers := by
        intro other name'
        rw [OrderedMap.get?_insert, List.mem_cons, Role.wrapper.injEq]
        split
        · next same => simp [same]
        · next other_ne =>
          rw [r.wrappers]
          refine Iff.trans (and_congr_right fun mem => ?_)
            (and_congr_left' (or_iff_right other_ne)).symm
          rw [agree _ mem] }

theorem exists_newLink (r : d.Realizes nameOf roles rows) {left : String} {right rest : Alternative}
    (new : .link left right rest ∉ roles) :
    ∃ nameOf' d', d.newLink = .ok (nameOf' (.link left right rest), d') ∧
      (∀ role ∈ roles, nameOf' role = nameOf role) ∧
      d'.Realizes nameOf' (.link left right rest :: roles) rows := by
  obtain ⟨name, fresh, e⟩ := d.exists_newLink
  obtain ⟨agree, spells⟩ := r.declare new (by simp) fresh
  refine ⟨Function.update nameOf (.link left right rest) name, _,
    by rw [e, Function.update_self], agree, ?_⟩
  exact {
    toSpells := spells
    wrapped := by
      intro terminal mem
      rcases List.mem_cons.1 mem with same | mem
      · contradiction
      · exact r.wrapped terminal mem
    wrappers := by
      intro terminal name'
      rw [r.wrappers, List.mem_cons]
      simp only [reduceCtorEq, false_or]
      refine and_congr_right fun mem => ?_
      rw [agree _ mem] }

theorem exists_isolate (r : d.Realizes nameOf roles rows) {symbols : List Symbol}
    (known : ∀ name, .nonterminal name ∈ symbols → .old name ∈ roles) :
    ∃ nameOf' d', d.isolate symbols = .ok (symbols.map fun symbol => nameOf' symbol.role, d') ∧
      (∀ role ∈ roles, nameOf' role = nameOf role) ∧
        d'.Realizes nameOf' (Role.wrappers symbols ++ roles) (Row.wrappers symbols ++ rows) := by
  induction symbols generalizing d nameOf roles rows with
  | nil => exact ⟨nameOf, d, rfl, fun _ _ => rfl, r⟩
  | cons symbol symbols ih =>
    cases symbol with
    | nonterminal name =>
      obtain ⟨nameOf', d', e, agree, r'⟩ := ih r fun other mem => known other (.tail _ mem)
      refine ⟨nameOf', d', ?_, agree, r'⟩
      rw [isolate, e, List.map_cons, Symbol.role, r'.old name]
      rfl
    | terminal terminal =>
      obtain ⟨nameOf₁, d₁, e₁, agree₁, r₁⟩ := r.exists_wrapper terminal
      obtain ⟨nameOf', d', e, agree, r'⟩ :=
        ih r₁ fun other mem => .tail _ (known other (.tail _ mem))
      refine ⟨nameOf', d', ?_, fun role mem => ?_, r'.of_mem_iff (fun role => ?_) fun row => ?_⟩
      · simp only [isolate, e₁, e, bind, Except.bind, List.map_cons, Symbol.role,
          agree _ List.mem_cons_self]
        rfl
      · rw [agree role (.tail _ mem), agree₁ role mem]
      · simp [Role.wrappers, Symbol.terminal?, or_left_comm]
      · simp [Row.wrappers, Symbol.terminal?, or_left_comm]

theorem exists_chain (r : d.Realizes nameOf roles rows) {left : String} {right : Alternative}
    {owner : Role} (mem : owner ∈ roles) {symbols : List Symbol}
    (known : ∀ symbol ∈ symbols, symbol.role ∈ roles)
    (new : ∀ role ∈ Role.links left right symbols, role ∉ roles) :
    ∃ nameOf' d', d.chain (nameOf owner) (symbols.map fun symbol => nameOf symbol.role) = .ok d' ∧
      d'.Realizes nameOf' (Role.links left right symbols ++ roles)
        (Row.chain left right owner symbols ++ rows) := by
  fun_induction Row.chain left right owner symbols generalizing d nameOf roles rows with
  | case1 owner first second third rest ih =>
    obtain ⟨nameOf₁, d₁, e₁, agree, r₁⟩ := r.exists_newLink (new _ (.head _))
    have known₁ : ∀ symbol ∈ first :: second :: third :: rest,
        nameOf₁ symbol.role = nameOf symbol.role :=
      fun symbol hs => agree _ (known symbol hs)
    have r₂ := r₁.addRow
      ⟨owner, [.nonterminal first.role, .nonterminal (.link left right (second :: third :: rest))]⟩
      ⟨.tail _ mem, by simp [known first (.head _)]⟩
    have new₁ : ∀ role ∈ Role.links left right (second :: third :: rest),
        role ∉ Role.link left right (second :: third :: rest) :: roles := by
      intro role hr
      rw [List.mem_cons, not_or]
      exact ⟨fun same => Role.link_not_mem_links left right _ (same ▸ hr), new role (.tail _ hr)⟩
    obtain ⟨nameOf', d', e, r'⟩ :=
      ih r₂ (.head _) (fun symbol hs => .tail _ (known symbol (.tail _ hs))) new₁
    refine ⟨nameOf', d', ?_, r'.of_mem_iff (fun role => ?_) fun row => ?_⟩
    · rw [← List.map_congr_left known₁, ← agree owner mem, List.map_cons, List.map_cons,
        List.map_cons, chain, e₁]
      exact e
    · simp [Role.links, or_left_comm]
    · simp [or_left_comm]
  | case2 owner symbols short =>
    have known' : ∀ role,
      .nonterminal role ∈ symbols.map (fun symbol => RoleSymbol.nonterminal symbol.role) →
        role ∈ roles := by
      intro role hr
      obtain ⟨symbol, hs, e⟩ := List.mem_map.1 hr
      cases e
      exact known symbol hs
    have r' := r.addRow ⟨owner, symbols.map fun symbol => .nonterminal symbol.role⟩ ⟨mem, known'⟩
    obtain ⟨no_links, last⟩ : Role.links left right symbols = [] ∧
        d.chain (nameOf owner) (symbols.map fun symbol => nameOf symbol.role) =
          .ok (d.addProduction (nameOf owner)
            ((symbols.map fun symbol => nameOf symbol.role).map .nonterminal)) := by
      rcases symbols with _ | ⟨first, _ | ⟨second, _ | ⟨third, rest⟩⟩⟩
      · exact ⟨rfl, rfl⟩
      · exact ⟨rfl, rfl⟩
      · exact ⟨rfl, rfl⟩
      · exact (short first second third rest rfl).elim
    rw [no_links]
    rw [List.map_map] at last r'
    exact ⟨nameOf, _, last, r'⟩

theorem exists_addShortened (r : d.Realizes nameOf roles rows) {left : String} {right : Alternative}
    (mem : .old left ∈ roles) (known : ∀ name, .nonterminal name ∈ right → .old name ∈ roles)
    (new : ∀ rest, .link left right rest ∉ roles) :
    ∃ nameOf' d', d.addShortened left right = .ok d' ∧
      d'.Realizes nameOf' (Role.ofProduction (left, right) ++ roles)
        (Row.ofProduction (left, right) ++ rows) := by
  by_cases short : Alternative.Short right
  · have known' : ∀ role, .nonterminal role ∈ right.map Symbol.kept → role ∈ roles := by
      intro role hr
      obtain ⟨symbol, hs, e⟩ := List.mem_map.1 hr
      cases symbol with
      | nonterminal name =>
        cases e
        exact known name hs
      | terminal => contradiction
    have r' := r.addRow ⟨.old left, right.map Symbol.kept⟩ ⟨mem, known'⟩
    rw [spell_kept r.old, r.old] at r'
    rw [Role.ofProduction, if_pos short, Row.ofProduction, if_pos short]
    exact ⟨nameOf, _, addShortened_of_short d short, r'⟩
  · obtain ⟨nameOf₁, d₁, e₁, _, r₁⟩ := r.exists_isolate known
    have known₁ : ∀ symbol ∈ right, symbol.role ∈ Role.wrappers right ++ roles := by
      intro symbol hs
      cases symbol with
      | nonterminal name => exact List.mem_append_right _ (known name hs)
      | terminal name =>
        apply List.mem_append_left
        exact List.mem_map_of_mem (List.mem_filterMap.2 ⟨_, hs, rfl⟩)
    have new₁ : ∀ role ∈ Role.links left right right, role ∉ Role.wrappers right ++ roles := by
      intro role hr
      obtain ⟨rest, e, _⟩ := Role.exists_of_mem_links hr
      rw [List.mem_append, not_or, e]
      refine ⟨fun hw => ?_, new rest⟩
      obtain ⟨_, e'⟩ := Role.exists_of_mem_wrappers hw
      contradiction
    obtain ⟨nameOf', d', e, r'⟩ := r₁.exists_chain (List.mem_append_right _ mem) known₁ new₁
    refine ⟨nameOf', d', ?_, r'.of_mem_iff (fun role => ?_) fun row => ?_⟩
    · rw [addShortened, if_neg (by simpa [Alternative.Short] using short), e₁]
      rw [r₁.old] at e
      exact e
    · simp [Role.ofProduction, short, or_left_comm]
    · simp [Row.ofProduction, short, or_left_comm]

end Draft.Realizes

namespace Grammar

variable {g : Grammar}

def rolesAfter (g : Grammar) (productions : List (String × Alternative)) : List Role :=
  productions.flatMap Role.ofProduction ++ g.nonterminals.toList.map Role.old

def roles (g : Grammar) : List Role := g.rolesAfter g.productions

def rows (g : Grammar) : List Row := g.productions.flatMap Row.ofProduction

theorem old_mem_rolesAfter_iff {done : List (String × Alternative)} {name : String} :
    .old name ∈ g.rolesAfter done ↔ name ∈ g.nonterminals := by
  rw [rolesAfter, List.mem_append, List.mem_map_of_injective fun _ _ => Role.old.inj]
  refine or_iff_right fun mem => ?_
  obtain ⟨production, _, mem⟩ := List.mem_flatMap.1 mem
  rcases Role.ofProduction_cases mem with ⟨_, e⟩ | ⟨_, e⟩
  · contradiction
  · contradiction

theorem mem_of_link_mem_rolesAfter {done : List (String × Alternative)} {left : String}
    {right rest : Alternative} (mem : .link left right rest ∈ g.rolesAfter done) :
    (left, right) ∈ done := by
  rcases List.mem_append.1 mem with mem | mem
  · obtain ⟨production, hp, mem⟩ := List.mem_flatMap.1 mem
    rcases Role.ofProduction_cases mem with ⟨_, e⟩ | ⟨_, e⟩
    · contradiction
    · cases e
      exact hp
  · obtain ⟨_, _, e⟩ := List.mem_map.1 mem
    contradiction

theorem nodup_productions (g : Grammar) : g.productions.Nodup := by
  refine List.nodup_flatMap.2 ⟨fun rule _ => ?_, ?_⟩
  · exact rule.2.nodup.map fun right right' e => (Prod.mk.inj e).2
  · refine (List.pairwise_map.1 g.rules.nodup_keys).imp fun ne production mem mem' => ?_
    obtain ⟨_, _, e⟩ := List.mem_map.1 mem
    obtain ⟨_, _, e'⟩ := List.mem_map.1 mem'
    rw [← e', Prod.mk.injEq] at e
    exact ne e.1

theorem realizes_withoutRules (g : Grammar) :
    ∃ nameOf, Draft.Realizes ⟨g.withoutRules, {}⟩ nameOf (g.rolesAfter []) [] := by
  refine ⟨fun role => match role with | .old name | .wrapper name | .link name _ _ => name, ?_⟩
  exact {
    old := fun _ => rfl
    injective := by
      intro role mem role' mem' e
      obtain ⟨name, _, rfl⟩ := List.mem_map.1 mem
      obtain ⟨name', _, rfl⟩ := List.mem_map.1 mem'
      exact congrArg Role.old e
    nonterminals := by
      intro name
      simp [rolesAfter, withoutRules]
    alternatives := by
      intro name right
      simp [mem_alternatives_withoutRules]
    known := by simp
    wrapped := by simp [rolesAfter]
    wrappers := by
      intro terminal name
      refine iff_of_false (fun h => ?_) fun h => ?_
      · cases h
      · simp [rolesAfter] at h }

theorem realizes_addShortened (wf : g.WellFormed) {d : Draft}
    {done todo : List (String × Alternative)} {left : String} {right : Alternative}
    (order : g.productions.Perm (done ++ (left, right) :: todo))
    (r : ∃ nameOf, d.Realizes nameOf (g.rolesAfter done) (done.flatMap Row.ofProduction)) :
    ∃ d', d.addShortened left right = .ok d' ∧ ∃ nameOf, d'.Realizes nameOf
      (g.rolesAfter ((left, right) :: done))
      (((left, right) :: done).flatMap Row.ofProduction) := by
  obtain ⟨nameOf, r⟩ := r
  have mem : right ∈ g.alternatives left := mem_productions.1 (order.mem_iff.2 (by simp))
  have new : ∀ rest, .link left right rest ∉ g.rolesAfter done := by
    intro rest hr
    have nodup := order.nodup_iff.1 g.nodup_productions
    exact (List.nodup_append.1 nodup).2.2 _ (mem_of_link_mem_rolesAfter hr) _ (.head _) rfl
  obtain ⟨nameOf', d', e, r'⟩ :=
    r.exists_addShortened (old_mem_rolesAfter_iff.2 (wf.left_declared mem))
    (fun name hs => old_mem_rolesAfter_iff.2 (wf.rights_declared left right mem _ hs)) new
  refine ⟨d', e, nameOf', ?_⟩
  rw [rolesAfter, List.flatMap_cons, List.flatMap_cons, List.append_assoc]
  exact r'

theorem exists_spells_binarize (wf : g.WellFormed) :
    ∃ h nameOf, g.binarize = .ok h ∧ h.Spells nameOf g.roles g.rows := by
  obtain ⟨d, e, done, order, nameOf, r⟩ := exists_foldlM
    (p := fun todo d => ∃ done, g.productions.Perm (done ++ todo) ∧
      ∃ nameOf, d.Realizes nameOf (g.rolesAfter done) (done.flatMap Row.ofProduction))
    (f := fun d production => Draft.addShortened d production.1 production.2)
    (fun production todo d ⟨done, order, r⟩ => by
      obtain ⟨d', e, r'⟩ := realizes_addShortened wf order r
      exact ⟨d', e, production :: done, order.trans List.perm_middle, r'⟩)
    g.productions ⟨g.withoutRules, {}⟩ ⟨[], List.Perm.refl _, g.realizes_withoutRules⟩
  rw [List.append_nil] at order
  refine ⟨d.grammar, nameOf, ?_, r.toSpells.of_mem_iff (fun role => ?_) fun row => ?_⟩
  · rw [binarize, binarizeWith_eq, e]
    rfl
  · simp only [roles, rolesAfter, List.mem_append, List.mem_flatMap, order.mem_iff]
  · simp only [rows, List.mem_flatMap, order.mem_iff]

end Grammar

end ChomskyNormal
