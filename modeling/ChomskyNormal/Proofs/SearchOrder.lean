import ChomskyNormal.Proofs.Search
import Mathlib.Logic.Function.Iterate
import Mathlib.Order.Lattice.Nat

/-!
# The order of breadth-first search

The members of the set are visited in the order of their distances from the origin. When one is
visited, nothing nearer is left, and nothing seen is more than a step farther away, so that whatever
the visit adds belongs at the end. The searches of a grammar list in this order what occurs in the
sentential forms of the start symbol, and what a nonterminal leads to by unit alternatives.
-/

namespace ChomskyNormal

section Distance

variable {α : Type} {r : α → α → Prop} {origin a b : α} {n : Nat}

inductive Steps (r : α → α → Prop) (origin : α) : Nat → α → Prop where
  | refl : Steps r origin 0 origin
  | tail {n : Nat} {a b : α} : Steps r origin n a → r a b → Steps r origin (n + 1) b

theorem reflTransGen_iff_exists_steps :
    Relation.ReflTransGen r origin a ↔ ∃ n, Steps r origin n a := by
  constructor
  · intro path
    induction path with
    | refl => exact ⟨0, .refl⟩
    | tail _ step ih =>
      have ⟨n, steps⟩ := ih
      exact ⟨n + 1, steps.tail step⟩
  · intro ⟨n, steps⟩
    induction steps with
    | refl => exact .refl
    | tail _ step ih => exact ih.tail step

noncomputable def distance (r : α → α → Prop) (origin a : α) : Nat := sInf {n | Steps r origin n a}

theorem distance_le (steps : Steps r origin n a) : distance r origin a ≤ n := Nat.sInf_le steps

theorem steps_distance (reached : Relation.ReflTransGen r origin a) :
    Steps r origin (distance r origin a) a :=
  Nat.sInf_mem (reflTransGen_iff_exists_steps.1 reached)

theorem distance_le_succ (reached : Relation.ReflTransGen r origin a) (step : r a b) :
    distance r origin b ≤ distance r origin a + 1 :=
  distance_le ((steps_distance reached).tail step)

/-- Nothing is listed twice, and first comes the origin, then what is nearest to it. -/
structure ListedByDistance (r : α → α → Prop) (origin : α) (names : List α) : Prop where
  nodup : names.Nodup
  first : names.head? = some origin
  ordered : names.Pairwise fun a b => distance r origin a ≤ distance r origin b

end Distance

/-- The members of the set are in the order of their distances, and none is more than a step farther
away than the one that is visited next. -/
structure Layered {α : Type} (r : α → α → Prop) (origin : α) (seen : OrderedSet α) (visited : Nat) :
    Prop extends Explored r origin seen visited where
  ordered : seen.toList.Pairwise fun a b => distance r origin a ≤ distance r origin b
  narrow : ∀ h : visited < seen.toList.length, ∀ a ∈ seen,
    distance r origin a ≤ distance r origin seen.toList[visited] + 1

namespace Layered

variable {α : Type} {r : α → α → Prop} {origin a : α} {seen : OrderedSet α} {visited n : Nat}

theorem le_of_mem (layered : Layered r origin seen visited) (h : visited < seen.toList.length)
    (mem : a ∈ seen) (waits : a ∉ seen.toList.take visited) :
    distance r origin seen.toList[visited] ≤ distance r origin a := by
  have later : a ∈ seen.toList.drop visited := by
    rw [← OrderedSet.mem_toList, ← List.take_append_drop visited seen.toList] at mem
    exact (List.mem_append.1 mem).resolve_left waits
  have sorted := layered.ordered.sublist (List.drop_sublist visited _)
  rw [List.drop_eq_getElem_cons h] at later sorted
  rcases List.mem_cons.1 later with rfl | later
  · exact Nat.le_refl _
  · exact (List.pairwise_cons.1 sorted).1 a later

theorem le_of_steps (layered : Layered r origin seen visited) (h : visited < seen.toList.length)
    (steps : Steps r origin n a) (waits : a ∉ seen.toList.take visited) :
    distance r origin seen.toList[visited] ≤ n := by
  induction steps with
  | refl => exact (layered.le_of_mem h layered.origin_mem waits).trans (distance_le .refl)
  | @tail n a b steps step ih =>
    by_cases visit : a ∈ seen.toList.take visited
    · -- Here the path leaves what has been visited, for a member that still waits.
      have mem := layered.done a visit b step
      exact (layered.le_of_mem h mem waits).trans (distance_le (steps.tail step))
    · exact (ih visit).trans (Nat.le_succ n)

theorem lt_of_not_mem (layered : Layered r origin seen visited) (h : visited < seen.toList.length)
    (reached : Relation.ReflTransGen r origin a) (new : a ∉ seen) :
    distance r origin seen.toList[visited] + 1 ≤ distance r origin a := by
  have steps := steps_distance reached
  generalize distance r origin a = n at steps
  cases steps with
  | refl => exact absurd layered.origin_mem new
  | tail steps step =>
    have waits := fun visit => new (layered.done _ visit _ step)
    exact Nat.succ_le_succ (layered.le_of_steps h steps waits)

variable [DecidableEq α] {added : List α}

theorem le_succ_of_mem_insertMany (layered : Layered r origin seen visited)
    (h : visited < seen.toList.length) (neighbours : ∀ b, b ∈ added ↔ r seen.toList[visited] b)
    (mem : a ∈ seen.insertMany added) :
    distance r origin a ≤ distance r origin seen.toList[visited] + 1 := by
  rcases OrderedSet.mem_insertMany.1 mem with mem | mem
  · exact layered.narrow h a mem
  · exact distance_le_succ (layered.reached _ (List.getElem_mem h)) ((neighbours a).1 mem)

theorem ordered_insertMany (layered : Layered r origin seen visited)
    (h : visited < seen.toList.length) (neighbours : ∀ b, b ∈ added ↔ r seen.toList[visited] b) :
    (seen.insertMany added).toList.Pairwise fun a b =>
      distance r origin a ≤ distance r origin b := by
  have ⟨new, split⟩ := seen.toList_prefix_insertMany added
  -- What was there is at most one step behind the member that is visited, and what is new is not
  -- nearer than that.
  have near : ∀ a ∈ seen.toList ++ new,
      distance r origin a ≤ distance r origin seen.toList[visited] + 1 := by
    rw [split]
    exact fun a mem => layered.le_succ_of_mem_insertMany h neighbours mem
  have far : ∀ b ∈ new, distance r origin seen.toList[visited] + 1 ≤ distance r origin b := by
    intro b mem
    have nodup : (seen.toList ++ new).Nodup := split ▸ (seen.insertMany added).nodup
    have absent : b ∉ seen := fun old => (List.nodup_append.1 nodup).2.2 b old b mem rfl
    have found : b ∈ (seen.insertMany added).toList := split ▸ List.mem_append_right _ mem
    exact layered.lt_of_not_mem h ((layered.toExplored.visit h neighbours).reached b found) absent
  rw [← split, List.pairwise_append]
  refine ⟨layered.ordered, List.pairwise_of_forall_mem_list fun a ha b hb => ?_,
    fun a ha b hb => ?_⟩
  · exact (near a (List.mem_append_right _ ha)).trans (far b hb)
  · exact (near a (List.mem_append_left _ ha)).trans (far b hb)

theorem visit (layered : Layered r origin seen visited) (h : visited < seen.toList.length)
    (neighbours : ∀ b, b ∈ added ↔ r seen.toList[visited] b) :
    Layered r origin (seen.insertMany added) (visited + 1) where
  toExplored := layered.toExplored.visit h neighbours
  ordered := layered.ordered_insertMany h neighbours
  narrow := by
    intro h' a mem
    have ordered := layered.ordered_insertMany h neighbours
    have next := List.pairwise_iff_getElem.1 ordered visited (visited + 1) (by omega) h'
      (Nat.lt_succ_self _)
    have same : (seen.insertMany added).toList[visited] = seen.toList[visited] :=
      ((seen.toList_prefix_insertMany added).getElem h).symm
    rw [same] at next
    exact (layered.le_succ_of_mem_insertMany h neighbours mem).trans (Nat.succ_le_succ next)

end Layered

section Search

variable {α : Type} [DecidableEq α] {r : α → α → Prop} {origin : α} {next : α → List α}
  {scope : List α}
  {closed : ∀ a, ∀ b ∈ next a, b ∈ scope}

theorem layered_start (r : α → α → Prop) (origin : α) : Layered r origin (.ofList [origin]) 0 where
  toExplored := explored_start r origin
  ordered := List.pairwise_singleton _ _
  narrow := by
    intro _ a mem
    rw [OrderedSet.mem_ofList, List.mem_singleton] at mem
    rw [mem]
    exact (distance_le .refl).trans (Nat.zero_le _)

theorem listedByDistance_breadthFirst (neighbours : ∀ a b, b ∈ next a ↔ r a b) (origin : α) :
    ListedByDistance r origin (breadthFirst next scope closed (.ofList [origin]) 0).toList := by
  have layered : Layered r origin (breadthFirst next scope closed (.ofList [origin]) 0) _ :=
    breadthFirst_induction (p := Layered r origin)
      (fun _ _ h layered => layered.visit h (neighbours _))
      (layered_start r origin) (Nat.zero_le _)
  exact ⟨OrderedSet.nodup _, layered.first, layered.ordered⟩

end Search

/-- The same search with the names that wait for their visit in a list of their own. -/
structure Worklist (α : Type) where
  found : OrderedSet α
  queue : List α

namespace Worklist

variable {α : Type} [DecidableEq α]

def start (origin : α) : Worklist α := ⟨.ofList [origin], [origin]⟩

def note (w : Worklist α) (a : α) : Worklist α :=
  if a ∈ w.found then w else ⟨w.found.insert a, w.queue ++ [a]⟩

def visit (next : α → List α) (w : Worklist α) : Worklist α :=
  match w.queue with
  | [] => w
  | a :: rest => (next a).foldl note ⟨w.found, rest⟩

def waiting (seen : OrderedSet α) (visited : Nat) : Worklist α := ⟨seen, seen.toList.drop visited⟩

variable {seen : OrderedSet α} {visited : Nat}

theorem note_waiting (le : visited ≤ seen.toList.length) (a : α) :
    (waiting seen visited).note a = waiting (seen.insert a) visited := by
  by_cases old : a ∈ seen
  · rw [OrderedSet.insert_of_mem old]
    exact if_pos old
  · have added : (seen.insert a).toList = seen.toList ++ [a] :=
      OrderedSet.toList_insert_of_not_mem old
    rw [waiting, note, if_neg old, waiting, added, List.drop_append_of_le_length le]

theorem foldl_note_waiting (le : visited ≤ seen.toList.length) (added : List α) :
    added.foldl note (waiting seen visited) = waiting (seen.insertMany added) visited := by
  induction added generalizing seen with
  | nil => rfl
  | cons a added ih =>
    rw [List.foldl_cons, note_waiting le, ih, OrderedSet.insertMany_cons]
    exact le.trans (seen.toList_prefix_insertMany [a]).length_le

theorem visit_waiting (next : α → List α) (h : visited < seen.toList.length) :
    (waiting seen visited).visit next = waiting (seen.insertMany (next seen.toList[visited]))
    (visited + 1) := by
  rw [visit, waiting, List.drop_eq_getElem_cons h]
  exact foldl_note_waiting h _

theorem iterate_visit_start {next : α → List α} {scope : List α}
    (closed : ∀ a, ∀ b ∈ next a, b ∈ scope) (origin : α) :
    (visit next)^[(breadthFirst next scope closed (.ofList [origin]) 0).size] (start origin) =
      ⟨breadthFirst next scope closed (.ofList [origin]) 0, []⟩ := by
  have run : (visit next)^[(breadthFirst next scope closed (.ofList [origin]) 0).size]
      (start origin) = waiting (breadthFirst next scope closed (.ofList [origin]) 0)
        (breadthFirst next scope closed (.ofList [origin]) 0).size := by
    refine breadthFirst_induction
      (p := fun seen visited => (visit next)^[visited] (start origin) = waiting seen visited) ?_ rfl
      (Nat.zero_le _)
    intro seen visited h run
    rw [Function.iterate_succ_apply', run, visit_waiting next h]
  rw [run, waiting, OrderedSet.size, List.drop_length]

end Worklist

namespace Grammar

variable {g : Grammar}

inductive Rewrites (g : Grammar) : List Symbol → List Symbol → Prop where
  | apply {name : String} {right : Alternative} (before after : List Symbol) :
    right ∈ g.alternatives name →
      Rewrites g (before ++ .nonterminal name :: after) (before ++ (right ++ after))

theorem Rewrites.frame {form form' : List Symbol} (step : g.Rewrites form form')
    (front back : List Symbol) :
    g.Rewrites (front ++ (form ++ back)) (front ++ (form' ++ back)) := by
  cases step with
  | apply before after mem =>
    have framed := Rewrites.apply (front ++ before) (after ++ back) mem
    simpa only [List.append_assoc, List.cons_append] using framed

theorem rewrites_frame {form form' : List Symbol}
    (path : Relation.ReflTransGen g.Rewrites form form') (front back : List Symbol) :
    Relation.ReflTransGen g.Rewrites (front ++ (form ++ back)) (front ++ (form' ++ back)) :=
  path.lift (fun form => front ++ (form ++ back)) fun _ _ step => step.frame front back

theorem rewrites_of_derives {form : List Symbol} {word : List String} (d : g.Derives form word) :
    Relation.ReflTransGen g.Rewrites form (word.map .terminal) := by
  induction d with
  | nil => exact .refl
  | @terminal name rest word _ ih =>
    have path := rewrites_frame ih [.terminal name] []
    rwa [List.append_nil, List.append_nil] at path
  | @nonterminal name right rest front back mem _ _ ih₁ ih₂ =>
    have first := rewrites_frame ih₁ [] rest
    have others := rewrites_frame ih₂ (front.map .terminal) []
    rw [List.append_nil, List.append_nil, ← List.map_append] at others
    exact .head (.apply [] rest mem) (first.trans others)

theorem derives_of_rewrites {form form' : List Symbol} (step : g.Rewrites form form')
    {word : List String} (d : g.Derives form' word) : g.Derives form word := by
  cases step with
  | apply before after mem =>
    have ⟨_, _, split, front, d⟩ := derives_append_iff.1 d
    have ⟨_, _, split', middle, back⟩ := derives_append_iff.1 d
    rw [split, split']
    exact front.append (.nonterminal mem middle back)

theorem derives_iff_rewrites {form : List Symbol} {word : List String} :
    g.Derives form word ↔ Relation.ReflTransGen g.Rewrites form (word.map .terminal) := by
  refine ⟨rewrites_of_derives, fun path => ?_⟩
  induction path using Relation.ReflTransGen.head_induction_on with
  | refl =>
    induction word with
    | nil => exact .nil
    | cons name word ih => exact .terminal ih
  | head step _ ih => exact derives_of_rewrites step ih

theorem reachable_of_rewrites {form : List Symbol}
    (path : Relation.ReflTransGen g.Rewrites [.nonterminal g.start] form) {name : String}
    (mem : .nonterminal name ∈ form) : g.Reachable name := by
  induction path generalizing name with
  | refl =>
    rw [List.mem_singleton, Symbol.nonterminal.injEq] at mem
    exact mem ▸ .refl
  | tail _ step ih =>
    cases step with
    | @apply left right before after mem' =>
      rcases List.mem_append.1 mem with mem | mem
      · exact ih (List.mem_append_left _ mem)
      rcases List.mem_append.1 mem with mem | mem
      · exact (ih (List.mem_append_right before (.head after))).tail ⟨right, mem', mem⟩
      · exact ih (List.mem_append_right _ (.tail _ mem))

theorem exists_form_of_reachable {name : String} (reachable : g.Reachable name) :
    ∃ form, Relation.ReflTransGen g.Rewrites [.nonterminal g.start] form ∧
      .nonterminal name ∈ form := by
  induction reachable with
  | refl => exact ⟨_, .refl, .head _⟩
  | tail _ step ih =>
    have ⟨form, path, mem⟩ := ih
    have ⟨right, mem', mem''⟩ := step
    obtain ⟨before, after, rfl⟩ := List.append_of_mem mem
    exact ⟨_, path.tail (.apply before after mem'),
      List.mem_append_right _ (List.mem_append_left _ mem'')⟩

/-- Both searches end with an empty queue, after one visit for each name that they find. One finds
what occurs in the sentential forms of the start symbol, the other what unit alternatives lead to,
and both find the nearest names first. -/
theorem searches_exact (g : Grammar) :
    ((Worklist.visit g.neighbours)^[g.reachable.size] (.start g.start) = ⟨g.reachable, []⟩ ∧
      (∀ name, name ∈ g.reachable ↔
        ∃ form, Relation.ReflTransGen g.Rewrites [.nonterminal g.start] form ∧
          .nonterminal name ∈ form) ∧
      ListedByDistance g.Leads g.start g.reachable.toList) ∧
    ∀ name, (Worklist.visit g.unitNeighbours)^[(g.unitClosure name).size] (.start name) =
      ⟨g.unitClosure name, []⟩ ∧
      (∀ other, other ∈ g.unitClosure name ↔ Relation.ReflTransGen g.LeadsUnit name other) ∧
      ListedByDistance g.LeadsUnit name (g.unitClosure name).toList := by
  refine ⟨⟨Worklist.iterate_visit_start _ _, fun name => ?_, ?_⟩,
    fun name => ⟨?_, fun _ => mem_unitClosure_iff, ?_⟩⟩
  · rw [mem_reachable_iff]
    exact ⟨exists_form_of_reachable, fun ⟨_, path, mem⟩ => reachable_of_rewrites path mem⟩
  · exact listedByDistance_breadthFirst (fun _ _ => mem_neighbours_iff) g.start
  · exact Worklist.iterate_visit_start _ _
  · exact listedByDistance_breadthFirst (fun _ _ => mem_unitNeighbours_iff) name

end Grammar

end ChomskyNormal
