import Mathlib.Data.List.Forall2
import Haxe.Source.Std.BalancedTree
import Haxe.Source.Std.BalancedTreeHeights
import Haxe.Source.Std.EnumValueMap
import Haxe.Source.Std.ArraySortMerging
import Haxe.Source.Std.ListSortRuns

/-!
# A balanced tree is a finite map

Trees under `set`, `remove`, `copy` and `clear` against finite maps whose keys are compared by
the same order. No rotation reads a field of `null`, and no operation on one tree changes another
one.
-/

namespace Haxe.Guarantees.BalancedTreeMap

open Theory.SortedBindings Source.BalancedTree

variable {K V : Type} {compare : K → K → Int}

/-- The binding of every key, with the key that it was made with. -/
abbrev FiniteMap (K V : Type) := K → Option (K × V)

namespace FiniteMap

def empty : FiniteMap K V := fun _ => none

def set (compare : K → K → Int) (m : FiniteMap K V) (k : K) (v : V) : FiniteMap K V :=
  fun k' => if compare k' k = 0 then some (k, v) else m k'

def remove (compare : K → K → Int) (m : FiniteMap K V) (k : K) : FiniteMap K V :=
  fun k' => if compare k' k = 0 then none else m k'

end FiniteMap

/-- The finite maps after an operation, with the result of `remove`. -/
def mapStep (compare : K → K → Int) (maps : List (FiniteMap K V)) :
    Operation K V → List (FiniteMap K V) × Option Bool
  | .new => (maps ++ [.empty], none)
  | .set tree k v =>
    (maps[tree]?).elim (maps, none) fun m => (maps.set tree (m.set compare k v), none)
  | .remove tree k =>
    (maps[tree]?).elim (maps, none) fun m =>
      (maps.set tree (m.remove compare k), some (m k).isSome)
  | .copy tree => (maps ++ (maps[tree]?).toList, none)
  | .clear tree => (maps.set tree .empty, none)

def mapRun (compare : K → K → Int) (maps : List (FiniteMap K V)) :
    List (Operation K V) → List (FiniteMap K V) × List (Option Bool)
  | [] => (maps, [])
  | operation :: operations =>
    let after := mapStep compare maps operation
    let final := mapRun compare after.1 operations
    (final.1, after.2 :: final.2)

/-- What can be asked of a tree is answered as by the finite map. -/
structure Agrees (compare : K → K → Int) (root : TreeNode K V) (m : FiniteMap K V) : Prop where
  get_eq : ∀ k, get compare k root = (m k).map Prod.snd
  exists_eq : ∀ k, exists_ compare k root = (m k).isSome
  increasing : (keys root).Pairwise fun a b => compare a b < 0
  bound : ∀ k, k ∈ keys root ↔ ∃ v, m k = some (k, v)
  values : List.Forall₂ (fun k v => m k = some (k, v)) (keys root) (iterator root)
  missing : ∀ k, m k = none → remove compare k root = .ok (root, false)

/-- The bindings of a tree, in order, are those of the finite map. -/
structure Represents (compare : K → K → Int) (root : TreeNode K V) (m : FiniteMap K V) :
    Prop where
  exact_ : root.Exact
  sorted : Sorted compare root.bindings
  lookup_eq : ∀ k, lookup compare k root.bindings = m k

theorem represents_null : Represents compare (.null : TreeNode K V) .empty :=
  ⟨trivial, List.Pairwise.nil, fun _ => rfl⟩

theorem forall₂_getElem? {α β : Type} {R : α → β → Prop} {as : List α} {bs : List β}
    (related : List.Forall₂ R as bs) (i : Nat) :
    (as[i]? = none ∧ bs[i]? = none) ∨ ∃ a b, as[i]? = some a ∧ bs[i]? = some b ∧ R a b := by
  induction related generalizing i with
  | nil => exact .inl ⟨rfl, rfl⟩
  | cons head _ ih =>
    cases i with
    | zero => exact .inr ⟨_, _, rfl, rfl, head⟩
    | succ i => exact ih i

theorem forall₂_set {α β : Type} {R : α → β → Prop} {as : List α} {bs : List β}
    (related : List.Forall₂ R as bs) (i : Nat) {a : α} {b : β} (new : R a b) :
    List.Forall₂ R (as.set i a) (bs.set i b) := by
  induction related generalizing i with
  | nil => exact .nil
  | cons head tail ih =>
    cases i with
    | zero => exact .cons new tail
    | succ i => exact .cons head (ih i)

variable (order : TotalOrder compare)

include order

theorem Represents.setLoop {root : TreeNode K V} {m : FiniteMap K V}
    (represents : Represents compare root m) (k : K) (v : V) :
    ∃ root', setLoop compare k v root = .ok root' ∧
      Represents compare root' (m.set compare k v) := by
  obtain ⟨root', done, exact_, split⟩ :=
    setLoop_ok order k v represents.exact_ represents.sorted
  refine ⟨root', done, exact_, ?_, ?_⟩
  · rw [split]
    exact sorted_insert order represents.sorted
  · intro k'
    rw [split, lookup_insert order represents.sorted, represents.lookup_eq]
    rfl

theorem Represents.remove {root : TreeNode K V} {m : FiniteMap K V}
    (represents : Represents compare root m) (k : K) :
    ∃ root', remove compare k root = .ok (root', (m k).isSome) ∧
      Represents compare root' (m.remove compare k) ∧ (m k = none → root' = root) := by
  have lookups := represents.lookup_eq k
  unfold Source.BalancedTree.remove
  rcases removeLoop_ok order k represents.exact_ represents.sorted with
    ⟨unbound, failed⟩ | ⟨bound, root', done, exact_, split⟩
  · rw [lookups] at unbound
    rw [failed, unbound]
    refine ⟨root, rfl, ⟨represents.exact_, represents.sorted, ?_⟩, fun _ => rfl⟩
    intro k'
    unfold FiniteMap.remove
    split_ifs with equal
    · rw [lookup_congr order equal, lookups, unbound]
    · exact represents.lookup_eq k'
  · rw [lookups] at bound
    rw [done, bound]
    refine ⟨root', rfl, ⟨exact_, ?_, ?_⟩, ?_⟩
    · rw [split]
      exact sorted_erase represents.sorted
    · intro k'
      rw [split, lookup_erase order, represents.lookup_eq]
      rfl
    · intro unbound
      rw [unbound] at bound
      cases bound

theorem Represents.agrees {root : TreeNode K V} {m : FiniteMap K V}
    (represents : Represents compare root m) : Agrees compare root m := by
  have member : ∀ b, b ∈ root.bindings ↔ m b.1 = some b := by
    intro b
    rw [mem_iff_lookup order represents.sorted, represents.lookup_eq]
  have keysOf : keys root = root.bindings.map Prod.fst := by
    unfold keys
    rw [keysLoop_eq, List.nil_append]
  have valuesOf : iterator root = root.bindings.map Prod.snd := by
    unfold iterator
    rw [iteratorLoop_eq, List.nil_append]
  refine ⟨?_, ?_, ?_, ?_, ?_, ?_⟩
  · intro k
    rw [get_eq order k represents.sorted, represents.lookup_eq]
  · intro k
    rw [exists_eq order k represents.sorted, represents.lookup_eq]
  · rw [keysOf]
    exact List.pairwise_map.mpr represents.sorted
  · intro k
    rw [keysOf]
    constructor
    · intro among
      obtain ⟨⟨k', v⟩, held, rfl⟩ := List.mem_map.mp among
      exact ⟨v, (member _).mp held⟩
    · rintro ⟨v, binding⟩
      exact List.mem_map_of_mem ((member (k, v)).mpr binding)
  · rw [keysOf, valuesOf, List.forall₂_map_left_iff, List.forall₂_map_right_iff,
      List.forall₂_same]
    intro b held
    exact (member b).mp held
  · intro k unbound
    obtain ⟨root', done, -, same⟩ := Represents.remove order represents k
    rw [done, same unbound, unbound]
    rfl

/-- One operation on trees that represent finite maps. -/
theorem represents_step {roots : List (TreeNode K V)} {maps : List (FiniteMap K V)}
    (represent : List.Forall₂ (Represents compare) roots maps) (operation : Operation K V) :
    ∃ roots', step compare roots operation = .ok (roots', (mapStep compare maps operation).2) ∧
      List.Forall₂ (Represents compare) roots' (mapStep compare maps operation).1 := by
  cases operation with
  | new =>
    exact ⟨_, rfl, List.rel_append represent (.cons represents_null .nil)⟩
  | set tree k v =>
    unfold step mapStep
    dsimp only
    rcases forall₂_getElem? represent tree with ⟨none, none'⟩ | ⟨root, m, at_, at', represents⟩
    · rw [none, none']
      exact ⟨roots, rfl, represent⟩
    · obtain ⟨root', done, represents'⟩ := represents.setLoop order k v
      rw [at_, at']
      refine ⟨roots.set tree root', ?_, forall₂_set represent tree represents'⟩
      change (do return (roots.set tree (← setLoop compare k v root), none)) = _
      rw [done]
      rfl
  | remove tree k =>
    unfold step mapStep
    dsimp only
    rcases forall₂_getElem? represent tree with ⟨none, none'⟩ | ⟨root, m, at_, at', represents⟩
    · rw [none, none']
      exact ⟨roots, rfl, represent⟩
    · obtain ⟨root', done, represents', -⟩ := represents.remove order k
      rw [at_, at']
      refine ⟨roots.set tree root', ?_, forall₂_set represent tree represents'⟩
      dsimp only [Option.elim]
      rw [done]
      rfl
  | copy tree =>
    unfold step mapStep
    refine ⟨_, rfl, List.rel_append represent ?_⟩
    rcases forall₂_getElem? represent tree with ⟨none, none'⟩ | ⟨root, m, at_, at', represents⟩
    · rw [none, none']
      exact .nil
    · rw [at_, at']
      exact .cons represents .nil
  | clear tree => exact ⟨_, rfl, forall₂_set represent tree represents_null⟩

theorem represents_run (operations : List (Operation K V)) {roots : List (TreeNode K V)}
    {maps : List (FiniteMap K V)} (represent : List.Forall₂ (Represents compare) roots maps) :
    ∃ roots', run compare roots operations = .ok (roots', (mapRun compare maps operations).2) ∧
      List.Forall₂ (Represents compare) roots' (mapRun compare maps operations).1 := by
  induction operations generalizing roots maps with
  | nil => exact ⟨roots, rfl, represent⟩
  | cons operation operations ih =>
    obtain ⟨next, stepped, represents⟩ := represents_step order represent operation
    obtain ⟨final, ran, represents'⟩ := ih represents
    refine ⟨final, ?_, represents'⟩
    rw [run, stepped]
    dsimp only [Bind.bind, Except.bind]
    rw [ran]
    rfl

/-- Any operations on trees succeed, with the results and the contents of finite maps. -/
theorem balanced_trees_are_maps (operations : List (Operation K V)) :
    ∃ roots, run compare [] operations = .ok (roots, (mapRun compare [] operations).2) ∧
      List.Forall₂ (Agrees compare) roots (mapRun compare [] operations).1 := by
  obtain ⟨roots, ran, represents⟩ := represents_run order operations List.Forall₂.nil
  exact ⟨roots, ran, represents.imp fun _ _ => Represents.agrees order⟩

omit order in
theorem integers_ordered : TotalOrder fun a b : Int => a - b :=
  ⟨fun a b => by omega, fun a b c => by omega⟩

omit order in
theorem copied_tree_is_map :
    ∃ roots, run (fun a b : Int => a - b) []
        [.new, .set 0 2 "two", .set 0 1 "one", .copy 0, .remove 0 2, .remove 1 3] =
          .ok (roots, [none, none, none, none, some true, some false]) ∧
      List.Forall₂ (Agrees fun a b : Int => a - b) roots
        (mapRun (fun a b : Int => a - b) []
          [.new, .set 0 2 "two", .set 0 1 "one", .copy 0, .remove 0 2, .remove 1 3]).1 :=
  balanced_trees_are_maps integers_ordered
    [.new, .set 0 2 "two", .set 0 1 "one", .copy 0, .remove 0 2, .remove 1 3]

end Haxe.Guarantees.BalancedTreeMap

namespace Haxe.Guarantees.EnumValueMap

open Source.BalancedTree Source.EnumValueMap BalancedTreeMap

/-- A map from enum values compares them well, and so is a finite map. -/
theorem enum_maps_are_maps {α C K V : Type} (kind : α → C) {r : Dynamic α → Dynamic α → Int}
    (ordered : Ordered kind r) (view : K → Nat × List (Dynamic α))
    (typed : ∀ k1 k2, (view k1).1 = (view k2).1 → EachComparable kind (view k1).2 (view k2).2)
    (operations : List (Operation K V)) :
    ∃ roots, run (fun k1 k2 => compare r (view k1) (view k2)) [] operations =
        .ok (roots, (mapRun (fun k1 k2 => compare r (view k1) (view k2)) [] operations).2) ∧
      List.Forall₂ (Agrees fun k1 k2 => compare r (view k1) (view k2)) roots
        (mapRun (fun k1 k2 => compare r (view k1) (view k2)) [] operations).1 := by
  have order := compare_ordered ordered typed
  obtain ⟨roots, ran, represents⟩ := represents_run order operations List.Forall₂.nil
  exact ⟨roots, ran, represents.imp fun _ _ => Represents.agrees order⟩

def intCompare : Dynamic Int → Dynamic Int → Int
  | .other a, .other b => a - b
  | _, _ => 0

/-- `B(A(n), [n])`. -/
def wrapped (n : Int) : Nat × List (Dynamic Int) := (1, [.enumValue 0 [.other n], .array [.other n]])

theorem wrapped_map_is_map :
    ∃ roots, run (fun k1 k2 => compare intCompare (wrapped k1) (wrapped k2)) []
        [.new, .set 0 2 "two", .set 0 1 "one", .remove 0 2, .remove 0 3] =
          .ok (roots, [none, none, none, some true, some false]) ∧
      List.Forall₂ (Agrees fun k1 k2 => compare intCompare (wrapped k1) (wrapped k2)) roots
        (mapRun (fun k1 k2 => compare intCompare (wrapped k1) (wrapped k2)) []
          [.new, .set 0 2 "two", .set 0 1 "one", .remove 0 2, .remove 0 3]).1 :=
  enum_maps_are_maps (fun _ => ())
    (fun _ => ⟨fun a b => integers_ordered.symm a.1 b.1,
      fun a b c => integers_ordered.trans a.1 b.1 c.1⟩) wrapped
    (fun _ _ _ => ⟨fun _ => ⟨rfl, trivial⟩, ⟨rfl, trivial⟩, trivial⟩)
    [.new, .set 0 2 "two", .set 0 1 "one", .remove 0 2, .remove 0 3]

end Haxe.Guarantees.EnumValueMap

/-!
## A balanced tree stays balanced

As long as no removal makes the rotation that slips, every node stores its height, and its
subtrees differ in height by at most two.
-/

namespace Haxe.Guarantees.BalancedTreeHeights

open Source.BalancedTree TreeNode

variable {K V : Type} (compare : K → K → Int)

def AllLeveled (roots : List (TreeNode K V)) : Prop := ∀ root ∈ roots, root.Exact ∧ root.Leveled

/-- The trees after some operations. -/
def Reached (roots : List (TreeNode K V)) (operations : List (Operation K V))
    (roots' : List (TreeNode K V)) : Prop :=
  ∃ results, run compare roots operations = .ok (roots', results)

/-- The operation is a removal that makes a rotation that slips. -/
def StepSlips (roots : List (TreeNode K V)) : Operation K V → Prop
  | .remove tree key => ∃ root, roots[tree]? = some root ∧ RemoveSlips compare key root ∧
      ∃ root', removeLoop compare key root = .ok root'
  | _ => False

variable {compare} {roots : List (TreeNode K V)}

theorem AllLeveled.concat (leveled : AllLeveled roots) {new : List (TreeNode K V)}
    (newLeveled : AllLeveled new) : AllLeveled (roots ++ new) := by
  intro root member
  rcases List.mem_append.mp member with old | added
  · exact leveled root old
  · exact newLeveled root added

theorem AllLeveled.set (leveled : AllLeveled roots) (tree : Nat) {root : TreeNode K V}
    (new : root.Exact ∧ root.Leveled) : AllLeveled (roots.set tree root) := by
  intro root' member
  rcases List.mem_or_eq_of_mem_set member with old | rfl
  · exact leveled root' old
  · exact new

theorem step_leveled (leveled : AllLeveled roots) (operation : Operation K V) :
    ∃ roots' result, step compare roots operation = .ok (roots', result) ∧
      (AllLeveled roots' ↔ ¬StepSlips compare roots operation) := by
  have null_leveled : (null : TreeNode K V).Exact ∧ (null : TreeNode K V).Leveled :=
    ⟨trivial, trivial⟩
  cases operation with
  | new =>
    refine ⟨_, _, rfl, iff_of_true (leveled.concat ?_) not_false⟩
    exact List.forall_mem_singleton.mpr null_leveled
  | set tree k v =>
    unfold step
    dsimp only
    cases at_ : roots[tree]? with
    | none => exact ⟨roots, none, rfl, iff_of_true leveled not_false⟩
    | some root =>
      obtain ⟨exact_, level⟩ := leveled root (List.mem_of_getElem? at_)
      obtain ⟨root', done, exact', level', -⟩ := @setLoop_leveled _ _ compare k v _ exact_ level
      have set_leveled := leveled.set tree ⟨exact', level'⟩
      refine ⟨roots.set tree root', none, ?_, iff_of_true set_leveled not_false⟩
      dsimp only [Option.elim]
      rw [done]
      rfl
  | remove tree k =>
    unfold step StepSlips
    dsimp only
    cases at_ : roots[tree]? with
    | none => exact ⟨roots, none, rfl, iff_of_true leveled (by simp)⟩
    | some root =>
      obtain ⟨exact_, level⟩ := leveled root (List.mem_of_getElem? at_)
      dsimp only [Option.elim]
      unfold remove
      rcases @removeLoop_leveled _ _ compare k _ exact_ level with
        failed | ⟨root', done, exact', level', -⟩
      · rw [failed]
        have same_leveled := leveled.set tree ⟨exact_, level⟩
        refine ⟨roots.set tree root, some false, rfl, iff_of_true same_leveled ?_⟩
        rintro ⟨_, same, -, _, removed⟩
        cases same
        rw [failed] at removed
        cases removed
      · rw [done]
        refine ⟨roots.set tree root', some true, rfl, ?_⟩
        constructor
        · intro all
          have present := (List.getElem?_eq_some_iff.mp at_).1
          have last := all root' (List.mem_set present root')
          rintro ⟨_, same, slips, -⟩
          cases same
          exact level'.mp last.2 slips
        · intro steady
          refine leveled.set tree ⟨exact', level'.mpr fun slips => steady ?_⟩
          exact ⟨root, rfl, slips, root', done⟩
  | copy tree =>
    refine ⟨_, _, rfl, iff_of_true (leveled.concat ?_) not_false⟩
    intro root member
    exact leveled root (List.mem_of_getElem? (Option.mem_toList.mp member))
  | clear tree => exact ⟨_, _, rfl, iff_of_true (leveled.set tree null_leveled) not_false⟩

theorem reached_cons {operation : Operation K V} {operations : List (Operation K V)}
    {final : List (TreeNode K V)} :
    Reached compare roots (operation :: operations) final ↔
      ∃ next result, step compare roots operation = .ok (next, result) ∧
        Reached compare next operations final := by
  unfold Reached
  rw [run]
  cases stepped : step compare roots operation with
  | error failure =>
    constructor
    · rintro ⟨results, ran⟩
      cases ran
    · rintro ⟨next, result, done, -⟩
      cases done
  | ok after =>
    dsimp only [Bind.bind, Except.bind]
    cases ran : run compare after.1 operations with
    | error failure =>
      constructor
      · rintro ⟨results, ran⟩
        cases ran
      · rintro ⟨next, result, done, results, ran'⟩
        cases done
        rw [ran] at ran'
        cases ran'
    | ok rest =>
      constructor
      · rintro ⟨results, done⟩
        cases done
        exact ⟨after.1, after.2, rfl, rest.2, ran⟩
      · rintro ⟨next, result, done, results, ran'⟩
        cases done
        rw [ran] at ran'
        cases ran'
        exact ⟨_, rfl⟩

/-- Where the first operation leads, the others go on. -/
theorem reached_next {operation : Operation K V} {operations : List (Operation K V)}
    {next final : List (TreeNode K V)} {result : Option Bool}
    (stepped : step compare roots operation = .ok (next, result)) :
    Reached compare roots (operation :: operations) final ↔
      Reached compare next operations final := by
  rw [reached_cons]
  constructor
  · rintro ⟨next', result', done, reached⟩
    rw [stepped] at done
    cases done
    exact reached
  · intro reached
    exact ⟨next, result, stepped, reached⟩

theorem reached_nil {final : List (TreeNode K V)} :
    Reached compare roots [] final ↔ final = roots := by
  constructor
  · rintro ⟨results, ran⟩
    cases ran
    rfl
  · rintro rfl
    exact ⟨[], rfl⟩

theorem run_leveled (operations : List (Operation K V)) (leveled : AllLeveled roots) :
    (∀ earlier later, operations = earlier ++ later →
      ∃ roots', Reached compare roots earlier roots' ∧ AllLeveled roots') ↔
      ∀ earlier operation later, operations = earlier ++ operation :: later →
        ∀ roots', Reached compare roots earlier roots' → ¬StepSlips compare roots' operation := by
  induction operations generalizing roots with
  | nil =>
    refine iff_of_true ?_ (by simp)
    intro earlier later split
    obtain ⟨rfl, -⟩ := List.append_eq_nil_iff.mp split.symm
    exact ⟨roots, reached_nil.mpr rfl, leveled⟩
  | cons first operations ih =>
    obtain ⟨next, result, stepped, level⟩ := @step_leveled _ _ compare _ leveled first
    constructor
    · intro every
      have nextLeveled : AllLeveled next := by
        obtain ⟨roots', reached, leveled'⟩ := every [first] operations rfl
        rw [reached_next stepped, reached_nil] at reached
        subst reached
        exact leveled'
      have others := (ih nextLeveled).mp fun earlier later split => by
        obtain ⟨final, reached, leveled'⟩ := every (first :: earlier) later (by rw [split]; rfl)
        exact ⟨final, (reached_next stepped).mp reached, leveled'⟩
      intro earlier operation later split roots' reached
      cases earlier with
      | nil =>
        cases split
        obtain rfl := reached_nil.mp reached
        exact level.mp nextLeveled
      | cons first' earlier =>
        cases split
        exact others earlier operation later rfl roots' ((reached_next stepped).mp reached)
    · intro steady
      have nextLeveled : AllLeveled next :=
        level.mpr (steady [] first operations rfl roots (reached_nil.mpr rfl))
      have others := (ih nextLeveled).mpr fun earlier operation later split roots' reached =>
        steady (first :: earlier) operation later (by rw [split]; rfl) roots'
          ((reached_next stepped).mpr reached)
      intro earlier later split
      cases earlier with
      | nil => exact ⟨roots, reached_nil.mpr rfl, leveled⟩
      | cons first' earlier =>
        cases split
        obtain ⟨final, reached, leveled'⟩ := others earlier later rfl
        exact ⟨final, (reached_next stepped).mpr reached, leveled'⟩

/-- In every state of a run the trees store their heights and are balanced, if and only if no
removal makes the rotation that slips. -/
theorem balanced_iff (operations : List (Operation K V)) :
    (∀ earlier later, operations = earlier ++ later →
      ∃ roots, Reached compare [] earlier roots ∧ AllLeveled roots) ↔
      ∀ earlier operation later, operations = earlier ++ operation :: later →
        ∀ roots, Reached compare [] earlier roots → ¬StepSlips compare roots operation :=
  run_leveled operations fun _ member => absurd member List.not_mem_nil

/-- Ten keys in an order that keeps the tree balanced, and the removal of the first of them. -/
def unbalancing : List (Operation Int Unit) :=
  .new :: ([3, 7, 2, 6, 10, 1, 8, 4, 5, 9].map fun k => .set 0 k ()) ++ [.remove 0 1]

theorem removal_unbalances :
    ∃ roots, Reached (fun a b : Int => a - b) [] unbalancing roots ∧ ¬AllLeveled roots := by
  refine ⟨_, ⟨_, rfl⟩, ?_⟩
  intro leveled
  exact absurd (leveled _ List.mem_cons_self).2 (by decide +kernel)

end Haxe.Guarantees.BalancedTreeHeights

/-!
## `ArraySort` is a stable sort

An array is sorted stably and in place unless it is so long that the sum of two of its indices
passes 2^31; then an index outside it is read.
-/

namespace Haxe.Guarantees.StableArraySort

open Source.ArraySort Theory.StableSorting

variable {T : Type} {cmp : T → T → Int}

/-- `sort` ends, inside the array, and leaves the elements in order and stably. -/
def SortsStably (cmp : T → T → Int) (a : List T) : Prop :=
  ∃ fuel, ∀ fuel', fuel ≤ fuel' → ∃ sorted,
    sort fuel' a cmp = some sorted ∧ Ordered cmp sorted ∧ Stably cmp a sorted

/-- `rotate` exchanges two adjacent blocks and leaves the rest of the array. -/
def Rotates (T : Type) : Prop :=
  ∀ (pre front back post : List T) (fuel : Nat), front.length + back.length ≤ fuel →
    rotate fuel (pre ++ front ++ back ++ post) pre.length (pre.length + front.length)
      (pre.length + front.length + back.length) = some (pre ++ back ++ front ++ post)

theorem sorts_of_fits (preorder : TotalPreorder cmp) {a : List T} (int_length : a.length < 2 ^ 31)
    (fits : Fits a.length) : SortsStably cmp a := by
  refine ⟨a.length + 2, ?_⟩
  intro fuel enough
  obtain ⟨sorted, done, ordered, stably⟩ := @sortPart_ok T cmp preorder a.length int_length fits
    fuel 0 [] a [] (by simp) (.inl ⟨rfl, rfl⟩) (by omega) 0 a.length rfl (by omega)
  rw [List.nil_append, List.append_nil, List.nil_append, List.append_nil] at done
  exact ⟨sorted, done, ordered, stably⟩

theorem sort_fails {a : List T} (int_length : a.length < 2 ^ 31) (long : ¬Fits a.length)
    (fuel : Nat) : sort fuel a cmp = none := by
  unfold Fits at long
  push Not at long
  obtain ⟨k, halved, wraps⟩ := long
  have fails := @sortPart_fails T cmp a.length k int_length halved wraps 0 (Nat.zero_le k) fuel a
  rw [lastPart, Nat.sub_self] at fails
  exact fails

/-- Every array of at most 2^30 elements is short enough. -/
theorem fits_of_le {n : Nat} (most : n ≤ 2 ^ 30) : Fits n := by
  intro k halved
  omega

/-- The exact lengths up to which `sort` sorts every array stably. -/
theorem sorts_stably_iff (preorder : TotalPreorder cmp) (a : List T)
    (int_length : a.length < 2 ^ 31) :
    Rotates T ∧ (SortsStably cmp a ↔ Fits a.length) := by
  refine ⟨fun pre front back post fuel => rotate_ok pre post front back, ?_,
    sorts_of_fits preorder int_length⟩
  rintro ⟨fuel, sorts⟩
  by_contra long
  obtain ⟨sorted, done, -⟩ := sorts fuel (Nat.le_refl fuel)
  rw [sort_fails int_length long fuel] at done
  exact nomatch done

theorem difference_preorder : TotalPreorder fun x y : Int => x - y := by
  constructor
  · intro x y
    omega
  · intro x y z most most'
    omega

/-- Three elements are few enough, and `sort` sorts them. -/
theorem sorts_three : SortsStably (fun x y : Int => x - y) [3, 1, 2] :=
  (sorts_stably_iff difference_preorder [3, 1, 2] (by decide)).2.mpr
    (fits_of_le (by decide))

/-- On an array of 2^30 + 16 zeros an index outside the array is read. -/
theorem zeros_are_not_sorted :
    ¬∀ (cmp : Int → Int → Int), TotalPreorder cmp → ∀ a : List Int, a.length < 2 ^ 31 →
      SortsStably cmp a := by
  intro sorts
  have length : (List.replicate (2 ^ 30 + 16) (0 : Int)).length = 2 ^ 30 + 16 :=
    List.length_replicate ..
  obtain ⟨fuel, sorted⟩ := sorts _ difference_preorder (List.replicate (2 ^ 30 + 16) 0)
    (by rw [length]; decide)
  obtain ⟨_, done, -⟩ := sorted fuel (Nat.le_refl fuel)
  have long : ¬Fits (List.replicate (2 ^ 30 + 16) (0 : Int)).length := by
    rw [length]
    intro fits
    have last : lastPart 26 (2 ^ 30 + 16) = 17 := by decide
    have := fits 26
    omega
  rw [sort_fails (by rw [length]; decide) long] at done
  exact nomatch done

end Haxe.Guarantees.StableArraySort

/-!
## `ListSort` is a stable sort

Both sorts end and leave the nodes in the one order that is stable; the one for doubly linked
lists sets every `prev`, and that of the head to the tail.
-/

namespace Haxe.Guarantees.ListSort

open Source.ListSort Theory StableSorting LinkedChains

variable {T : Type}

theorem predecessor_of_segment {next previous : T → Option T} {p : Option T}
    {l front behind : List T} {a b : T} (segment : Segment next previous p l none)
    (split : l = front ++ a :: b :: behind) :
    previous b = some a := by
  rw [split, segment_append] at segment
  exact segment.2.2.2.1

variable [DecidableEq T] {cmp : T → T → Int}

/-- The pointers of a list that is sorted. -/
structure Relinked (r : Sorted T) (sorted : List T) : Prop where
  head : r.head = sorted.head?
  chain : Chain r.next r.head sorted
  predecessor : ∀ front a b behind, sorted = front ++ a :: b :: behind → r.prev b = some a
  head_prev : ∀ h, r.head = some h → r.prev h = sorted.getLast?

theorem relinked_of_finished {s : Cursors T} {sorted : List T} {head : T}
    (finished : Finished true s sorted) (first : s.list = some head) :
    Relinked ⟨s.list, s.next, Function.update s.prev head s.tail⟩ sorted := by
  obtain ⟨previous, segment, prevs⟩ := finished.linked
  have distinct := finished.chain.nodup
  refine ⟨finished.list, finished.chain, fun front a b behind split => ?_, fun h same => ?_⟩
  · have other : b ≠ head := by
      rintro rfl
      have last := finished.list
      rw [first, split] at last
      rw [split, List.nodup_append] at distinct
      cases front with
      | nil =>
        obtain rfl := Option.some.inj last
        exact (List.nodup_cons.mp distinct.2.1).1 List.mem_cons_self
      | cons c front =>
        obtain rfl := Option.some.inj last
        exact distinct.2.2 b List.mem_cons_self b
          (List.mem_cons_of_mem a List.mem_cons_self) rfl
    show Function.update s.prev head s.tail b = some a
    rw [Function.update_of_ne other, prevs rfl]
    exact predecessor_of_segment segment split
  · obtain rfl := Option.some.inj (first.symm.trans same)
    exact (Function.update_self ..).trans finished.tail

/-- What both sorts of a list promise. -/
def SortsStably (fuel : Nat) (cmp : T → T → Int) (next prev : T → Option T) (list : Option T)
    (l : List T) : Prop :=
  ∃ sorted r, sort fuel cmp next prev list = some r ∧ Ordered cmp sorted ∧ Stably cmp l sorted ∧
    Relinked r sorted ∧ ∃ head next', sortSingleLinked fuel cmp next list = some (head, next') ∧
      Chain next' head sorted

def threeNext (x : Fin 3) : Option (Fin 3) :=
  if x = 2 then some 0 else if x = 0 then some 1 else none

def threePrev (x : Fin 3) : Option (Fin 3) :=
  if x = 1 then some 0 else if x = 0 then some 2 else none

end Haxe.Guarantees.ListSort
