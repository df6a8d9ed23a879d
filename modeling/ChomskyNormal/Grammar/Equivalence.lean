import ChomskyNormal.Grammar.Basic

/-!
# Equality up to order

Two grammars are the same when they differ at most in the order of names, rules and alternatives.
-/

namespace ChomskyNormal

namespace Grammar

structure Same (g h : Grammar) : Prop where
  start : g.start = h.start
  nonterminals : g.nonterminals.Same h.nonterminals
  terminals : g.terminals.Same h.terminals
  lefts : g.rules.keys.Same h.rules.keys
  alternatives : ∀ left ∈ g.rules.keys.toList, (g.alternatives left).Same (h.alternatives left)

theorem same_iff {g h : Grammar} : g.Same h ↔
    g.start = h.start ∧ g.nonterminals.Same h.nonterminals ∧
    g.terminals.Same h.terminals ∧ g.rules.keys.Same h.rules.keys ∧
    ∀ left ∈ g.rules.keys.toList, (g.alternatives left).Same (h.alternatives left) :=
  ⟨fun s => ⟨s.start, s.nonterminals, s.terminals, s.lefts, s.alternatives⟩,
    fun ⟨a, b, c, d, e⟩ => ⟨a, b, c, d, e⟩⟩

instance (g h : Grammar) : Decidable (g.Same h) := decidable_of_iff _ same_iff.symm

namespace Same

variable {g h k : Grammar}

theorem mem_alternatives_iff (s : g.Same h) {name : String} {right : Alternative} :
    right ∈ g.alternatives name ↔ right ∈ h.alternatives name := by
  by_cases key : name ∈ g.rules.keys
  · exact OrderedSet.same_iff.1 (s.alternatives name key) right
  · have key' : name ∉ h.rules.keys := fun mem => key ((OrderedSet.same_iff.1 s.lefts name).2 mem)
    constructor
    · exact fun mem => absurd (mem_keys_of_mem_alternatives mem) key
    · exact fun mem => absurd (mem_keys_of_mem_alternatives mem) key'

theorem of_mem_iff (start : g.start = h.start)
    (nonterminals : ∀ name, name ∈ g.nonterminals ↔ name ∈ h.nonterminals)
    (terminals : ∀ name, name ∈ g.terminals ↔ name ∈ h.terminals)
    (keys : ∀ name, name ∈ g.rules.keys ↔ name ∈ h.rules.keys)
    (alternatives : ∀ name right, right ∈ g.alternatives name ↔ right ∈ h.alternatives name) :
    g.Same h :=
  ⟨start, OrderedSet.same_iff.2 nonterminals, OrderedSet.same_iff.2 terminals,
    OrderedSet.same_iff.2 keys, fun name _ => OrderedSet.same_iff.2 (alternatives name)⟩

theorem mem_nonterminals_iff (s : g.Same h) {name : String} :
    name ∈ g.nonterminals ↔ name ∈ h.nonterminals :=
  OrderedSet.same_iff.1 s.nonterminals name

theorem mem_terminals_iff (s : g.Same h) {name : String} :
    name ∈ g.terminals ↔ name ∈ h.terminals :=
  OrderedSet.same_iff.1 s.terminals name

theorem mem_keys_iff (s : g.Same h) {name : String} : name ∈ g.rules.keys ↔ name ∈ h.rules.keys :=
  OrderedSet.same_iff.1 s.lefts name

theorem symm (s : g.Same h) : h.Same g :=
  .of_mem_iff s.start.symm (fun _ => s.mem_nonterminals_iff.symm)
    (fun _ => s.mem_terminals_iff.symm)
    (fun _ => s.mem_keys_iff.symm) fun _ _ => s.mem_alternatives_iff.symm

theorem trans (s : g.Same h) (s' : h.Same k) : g.Same k :=
  .of_mem_iff (s.start.trans s'.start)
    (fun _ => s.mem_nonterminals_iff.trans s'.mem_nonterminals_iff)
    (fun _ => s.mem_terminals_iff.trans s'.mem_terminals_iff)
    (fun _ => s.mem_keys_iff.trans s'.mem_keys_iff)
    fun _ _ => s.mem_alternatives_iff.trans s'.mem_alternatives_iff

end Same

end Grammar

end ChomskyNormal
