import Mathlib.Logic.Relation
import Mathlib.Tactic.Cases
import Haxe.Theory.DepthFirst

/-!
# The numbered spanning tree of a depth-first search

Vertices are their preorder numbers. The descendants of a vertex are the numbers
of an interval starting at it, and an edge never leads to a higher number outside
that interval. `Top k v t` climbs from `v` until the number is at most `k`, or
until the climb would reach the root: the forest whose trees are linked below `k`.
-/

namespace Haxe.Theory

structure PreorderTree (n : Nat) (parent : Nat → Nat) (edge : Nat → Nat → Prop) : Prop where
  parent_lt : ∀ i, 0 < i → i < n → parent i < i
  parent_edge : ∀ i, 0 < i → i < n → edge (parent i) i
  interval : ∀ i, i < n → ∃ e, i < e ∧ (∀ j, i < j → j < e → i ≤ parent j) ∧
    (∀ j, e ≤ j → j < n → parent j < i ∨ e ≤ parent j) ∧ (∀ j, edge i j → j < e)

/-- Proper or improper ancestors in the tree rooted at 0. -/
inductive Ancestor (parent : Nat → Nat) (a : Nat) : Nat → Prop
  | refl : Ancestor parent a a
  | step {b : Nat} (below : 0 < b) (up : Ancestor parent a (parent b)) : Ancestor parent a b

/-- The highest vertex reached from `v` without going above `k` or to the root. -/
inductive Top (parent : Nat → Nat) (k : Nat) : Nat → Nat → Prop
  | low {v : Nat} (small : v ≤ k) : Top parent k v v
  | branch {v : Nat} (large : k < v) (child : parent v = 0) : Top parent k v v
  | climb {v t : Nat} (large : k < v) (inner : parent v ≠ 0) (up : Top parent k (parent v) t) :
      Top parent k v t

variable {n : Nat} {parent : Nat → Nat} {edge : Nat → Nat → Prop}

theorem Ancestor.trans {a b c : Nat} (upper : Ancestor parent a b) (lower : Ancestor parent b c) :
    Ancestor parent a c := by
  induction lower with
  | refl => exact upper
  | step below _ ih => exact .step below ih

namespace PreorderTree

variable (tree : PreorderTree n parent edge)
include tree

theorem ancestor_le {a b : Nat} (up : Ancestor parent a b) (bound : b < n) : a ≤ b := by
  induction up with
  | refl => exact Nat.le_refl _
  | @step b below _ ih =>
    have smaller := tree.parent_lt b below bound
    exact Nat.le_trans (ih (by omega)) (by omega)

theorem root_ancestor {b : Nat} (bound : b < n) : Ancestor parent 0 b := by
  induction b using Nat.strongRecOn with
  | ind b ih =>
    rcases Nat.eq_zero_or_pos b with rfl | below
    · exact .refl
    · have smaller := tree.parent_lt b below bound
      exact .step below (ih _ smaller (by omega))

/-- Descendants are exactly the numbers of the interval of a vertex. -/
theorem ancestor_iff {i e : Nat} (start : i < e)
    (inside : ∀ j, i < j → j < e → i ≤ parent j)
    (outside : ∀ j, e ≤ j → j < n → parent j < i ∨ e ≤ parent j) {j : Nat} (bound : j < n) :
    Ancestor parent i j ↔ i ≤ j ∧ j < e := by
  constructor
  · intro up
    refine ⟨tree.ancestor_le up bound, ?_⟩
    induction up with
    | refl => exact start
    | @step b below up ih =>
      have smaller := tree.parent_lt b below bound
      have within := ih (by omega)
      have above := tree.ancestor_le up (by omega)
      by_contra late
      rcases outside b (by omega) bound with left | right <;> omega
  · rintro ⟨low, high⟩
    induction j using Nat.strongRecOn with
    | ind j ih =>
      rcases Nat.eq_or_lt_of_le low with rfl | strict
      · exact .refl
      · have smaller := tree.parent_lt j (by omega) bound
        exact .step (by omega) (ih _ smaller (by omega) (inside j strict high) (by omega))

/-- An edge to a higher number stays below its source. -/
theorem ancestor_of_edge {v w : Nat} (bound : w < n) (forward : v < w) (along : edge v w) :
    Ancestor parent v w := by
  obtain ⟨e, start, inside, outside, closed⟩ := tree.interval v (by omega)
  exact (tree.ancestor_iff start inside outside bound).mpr ⟨by omega, closed w along⟩

theorem ancestor_between {a w v : Nat} (bound : v < n) (up : Ancestor parent a v) (low : a ≤ w)
    (high : w ≤ v) : Ancestor parent a w := by
  have small := tree.ancestor_le up bound
  obtain ⟨e, start, inside, outside, -⟩ := tree.interval a (by omega)
  have range := (tree.ancestor_iff start inside outside bound).mp up
  exact (tree.ancestor_iff start inside outside (by omega)).mpr ⟨low, by omega⟩

/-- Two ancestors of a vertex are related. -/
theorem ancestor_chain {a b w : Nat} (bound : w < n) (first : Ancestor parent a w)
    (second : Ancestor parent b w) (ordered : a ≤ b) : Ancestor parent a b :=
  tree.ancestor_between bound first ordered (tree.ancestor_le second bound)

theorem top_exists (k : Nat) {v : Nat} (bound : v < n) : ∃ t, Top parent k v t := by
  induction v using Nat.strongRecOn with
  | ind v ih =>
    rcases Nat.lt_or_ge k v with large | small
    · by_cases child : parent v = 0
      · exact ⟨v, .branch large child⟩
      · have smaller := tree.parent_lt v (by omega) bound
        obtain ⟨t, up⟩ := ih _ smaller (by omega)
        exact ⟨t, .climb large child up⟩
    · exact ⟨v, .low small⟩

end PreorderTree

theorem Top.unique {k v s t : Nat} (first : Top parent k v s) (second : Top parent k v t) :
    s = t := by
  induction first with
  | low small => cases second <;> first | rfl | omega
  | branch large child =>
    cases second with
    | low small => omega
    | branch => rfl
    | climb _ inner _ => exact absurd child inner
  | climb large inner _ ih =>
    cases second with
    | low small => omega
    | branch _ child => exact absurd child inner
    | climb _ _ up => exact ih up

theorem Top.ancestor {k v t : Nat} (top : Top parent k v t) : Ancestor parent t v := by
  induction top with
  | low | branch => exact .refl
  | climb large _ _ ih => exact .step (by omega) ih

/-- Unless the climb stopped below the root, it stopped at or below `k`. -/
theorem Top.stops {k v t : Nat} (top : Top parent k v t) : t ≤ k ∨ (parent t = 0 ∧ k < t) := by
  induction top with
  | low small => exact Or.inl small
  | branch large child => exact Or.inr ⟨child, large⟩
  | climb _ _ _ ih => exact ih

theorem Top.pos {k v t : Nat} (top : Top parent k v t) (below : 0 < v) : 0 < t := by
  induction top with
  | low | branch => exact below
  | climb _ inner _ ih => exact ih (by omega)

namespace PreorderTree

variable (tree : PreorderTree n parent edge)
include tree

/-- A non-root ancestor at or below `k` is an ancestor of the top. -/
theorem ancestor_top {k v t a : Nat} (bound : v < n) (top : Top parent k v t)
    (up : Ancestor parent a v) (low : a ≤ k) (inner : 0 < a) : Ancestor parent a t := by
  induction top with
  | low => exact up
  | @branch v large child =>
    cases up with
    | refl => omega
    | step _ up =>
      rw [child] at up
      have := tree.ancestor_le up (by omega)
      omega
  | @climb v t large _ _ ih =>
    cases up with
    | refl => omega
    | step below up => exact ih (by have := tree.parent_lt v below bound; omega) up

/-- Linking one more vertex moves tops upwards only. -/
theorem top_mono {k v s t : Nat} (bound : v < n) (before : Top parent (k + 1) v s)
    (after : Top parent k v t) : t ≤ s := by
  induction before with
  | @low v small => exact tree.ancestor_le after.ancestor bound
  | @branch v large child =>
    cases after with
    | low small => omega
    | branch => exact Nat.le_refl _
    | climb _ inner _ => exact absurd child inner
  | @climb v s large inner _ ih =>
    cases after with
    | low small => omega
    | branch _ child => exact absurd child inner
    | climb _ _ up => exact ih (by have := tree.parent_lt v (by omega) bound; omega) up

end PreorderTree

section Numbering

variable {V : Type*} [DecidableEq V]

/-- The preorder number of a vertex in the output of a search. -/
def number (order : List (V × V)) (v : V) : Nat := (order.map Prod.fst).idxOf v

/-- The number of the vertex from which number `i` was discovered. -/
def parentNumber (order : List (V × V)) (i : Nat) : Nat :=
  (order[i]?.map fun entry => number order entry.2).getD 0

theorem number_lt {order : List (V × V)} {v : V} (member : v ∈ order.map Prod.fst) :
    number order v < order.length := by
  simpa [number] using List.idxOf_lt_length_iff.mpr member

theorem exists_getElem_number {order : List (V × V)} {v : V} (member : v ∈ order.map Prod.fst) :
    ∃ bound : number order v < order.length, order[number order v].1 = v := by
  have inside := List.idxOf_lt_length_iff.mpr member
  refine ⟨number_lt member, ?_⟩
  have found := List.getElem_idxOf inside
  rwa [List.getElem_map] at found

theorem number_append {A B : List (V × V)} {v : V} (member : v ∈ A.map Prod.fst) :
    number (A ++ B) v = number A v := by
  simp [number, List.idxOf_append_of_mem member]

theorem number_split {A C : List (V × V)} {v p : V}
    (nodup : ((A ++ (v, p) :: C).map Prod.fst).Nodup) :
    number (A ++ (v, p) :: C) v = A.length := by
  have outside : v ∉ A.map Prod.fst := by
    rw [List.map_append, List.map_cons, List.nodup_append] at nodup
    exact fun inside => nodup.2.2 v inside v (by simp) rfl
  simp [number, List.idxOf_append_of_notMem outside]

theorem number_getElem {order : List (V × V)} (nodup : (order.map Prod.fst).Nodup) {i : Nat}
    (bound : i < order.length) : number order order[i].1 = i := by
  have := List.Nodup.idxOf_getElem nodup i (by simpa using bound)
  simpa [number] using this

theorem number_injective {order : List (V × V)} {v w : V} (first : v ∈ order.map Prod.fst)
    (same : number order v = number order w) : v = w :=
  (List.idxOf_inj first).mp same

/-- The search from a root numbers its vertices as a preorder tree. -/
theorem visit_preorder (succ : V → List V) (fuel : Nat) (out : List (V × V)) (root : V)
    (found : visit succ fuel [] root root = some out) :
    (out.map Prod.fst).Nodup ∧ (∃ below, out = (root, root) :: below) ∧
      PreorderTree out.length (parentNumber out)
        (fun i j => ∃ v w, number out v = i ∧ number out w = j ∧ v ∈ out.map Prod.fst ∧
          w ∈ succ v) := by
  obtain ⟨below, rfl, segment, rootClosed⟩ :=
    visit_segment succ fuel [] out root root (by simp) (by simp) found
  have nodup : (((root, root) :: below).map Prod.fst).Nodup := by simpa using segment.fresh
  refine ⟨nodup, ⟨below, rfl⟩, ?_⟩
  simp only [List.nil_append]
  have entry : ∀ i, 0 < i → i < ((root, root) :: below).length →
      ∃ A y q C, below = A ++ (y, q) :: C ∧ A.length + 1 = i := by
    intro i positive bound
    obtain ⟨i, rfl⟩ : ∃ j, i = j + 1 := ⟨i - 1, by omega⟩
    have inside : i < below.length := by simpa using bound
    refine ⟨below.take i, (below[i]).1, (below[i]).2, below.drop (i + 1), ?_, ?_⟩
    · change below = below.take i ++ below[i] :: below.drop (i + 1)
      rw [List.getElem_cons_drop, List.take_append_drop]
    · rw [List.length_take]
      omega
  refine ⟨?_, ?_, ?_⟩
  · intro i positive bound
    obtain ⟨A, y, q, C, rfl, rfl⟩ := entry i positive bound
    obtain ⟨earlier, -⟩ := segment.parents A y q C rfl
    have member : q ∈ ((root, root) :: A).map Prod.fst := by simpa using earlier
    have small := number_lt member
    have stable := number_append (B := (y, q) :: C) member
    rw [List.cons_append] at stable
    simpa [parentNumber, stable] using small
  · intro i positive bound
    obtain ⟨A, y, q, C, rfl, rfl⟩ := entry i positive bound
    obtain ⟨earlier, along⟩ := segment.parents A y q C rfl
    refine ⟨q, y, ?_, ?_, ?_, along⟩
    · simp [parentNumber]
    · exact number_split (A := (root, root) :: A) nodup
    · rcases List.mem_cons.mp earlier with rfl | earlier <;> simp [*]
  · intro i bound
    -- Both the root and every vertex below it have finished.
    have finished : ∃ x A B C, Finished succ [] ((root, root) :: below) x A B C ∧ A.length = i := by
      rcases Nat.eq_zero_or_pos i with rfl | positive
      · refine ⟨root, [], below, [], ⟨⟨root, by simp⟩, ?_, by simp, ?_⟩, rfl⟩
        · intro e member
          obtain ⟨S, T, rfl⟩ := List.append_of_mem member
          have earlier := (segment.parents S e.1 e.2 T rfl).1
          rcases List.mem_cons.mp earlier with same | earlier
          · simp [same]
          · simp only [List.map_append, List.mem_cons, List.mem_append]
            exact Or.inr (Or.inl earlier)
        · intro w along
          exact Or.inr (Or.inr (by simpa using rootClosed w along))
      · obtain ⟨A', y, q, C', split, rfl⟩ := entry i positive bound
        obtain ⟨A, B, C, fin⟩ := segment.finished root y (by simp [split])
        obtain ⟨p, whole⟩ := fin.split
        refine ⟨y, A, B, C, fin, ?_⟩
        have first : number ((root, root) :: below) y = A.length := by
          rw [whole, List.append_assoc, List.cons_append]
          exact number_split (by simpa [whole] using nodup)
        have second : number ((root, root) :: below) y = A'.length + 1 := by
          rw [split]
          exact number_split (A := (root, root) :: A') (by simpa [split] using nodup)
        omega
    obtain ⟨x, A, B, C, fin, rfl⟩ := finished
    obtain ⟨p, whole⟩ := fin.split
    rw [whole] at nodup bound ⊢
    have place : number (A ++ (x, p) :: B ++ C) x = A.length := by
      rw [List.append_assoc, List.cons_append]
      exact number_split (by simpa using nodup)
    -- The interval of `x` ends behind `B`.
    have inInterval : ∀ y, y ∈ x :: B.map Prod.fst →
        A.length ≤ number (A ++ (x, p) :: B ++ C) y ∧
          number (A ++ (x, p) :: B ++ C) y < A.length + 1 + B.length := by
      intro y member
      have inBlock : y ∈ (A ++ (x, p) :: B).map Prod.fst := by
        rw [List.map_append]
        exact List.mem_append_right _ (by simpa using member)
      have notBefore : y ∉ A.map Prod.fst := by
        rw [List.map_append, List.map_append, List.nodup_append, List.nodup_append] at nodup
        exact fun inside => nodup.1.2.2 y inside y (by simpa using member) rfl
      rw [number_append inBlock]
      have upper := number_lt inBlock
      constructor
      · simp [number, List.idxOf_append_of_notMem notBefore]
      · simpa [Nat.add_comm, Nat.add_left_comm, Nat.add_assoc] using upper
    have outInterval : ∀ y, y ∉ x :: B.map Prod.fst →
        number (A ++ (x, p) :: B ++ C) y < A.length ∨
          A.length + 1 + B.length ≤ number (A ++ (x, p) :: B ++ C) y := by
      intro y member
      by_cases inside : y ∈ A.map Prod.fst
      · left
        rw [List.append_assoc, number_append inside]
        exact number_lt inside
      · right
        have outside : y ∉ (A ++ (x, p) :: B).map Prod.fst := by
          rw [List.map_append, List.mem_append]
          rintro (inA | inB)
          · exact inside inA
          · exact member (by simpa using inB)
        rw [number, List.map_append, List.idxOf_append_of_notMem outside]
        simp
        omega
    refine ⟨A.length + 1 + B.length, by omega, ?_, ?_, ?_⟩
    · intro j low high
      have inB : (A ++ (x, p) :: B ++ C)[j]? = B[j - A.length - 1]? := by
        rw [List.append_assoc, List.getElem?_append_right (by omega), List.cons_append,
          List.getElem?_cons, if_neg (by omega), List.getElem?_append_left (by omega)]
      have bound' : j - A.length - 1 < B.length := by omega
      rw [parentNumber, inB, List.getElem?_eq_getElem bound']
      exact (inInterval _ (fin.below _ (List.getElem_mem bound'))).1
    · intro j low high
      have inC : (A ++ (x, p) :: B ++ C)[j]? = C[j - (A.length + 1 + B.length)]? := by
        rw [List.getElem?_append_right (by simp; omega)]
        congr 1
        simp
        omega
      have bound' : j - (A.length + 1 + B.length) < C.length := by
        simp at high
        omega
      rw [parentNumber, inC, List.getElem?_eq_getElem bound']
      exact outInterval _ (fin.outside _ (List.getElem_mem bound'))
    · rintro j ⟨v, w, source, rfl, vIn, along⟩
      obtain rfl : v = x := number_injective vIn (source.trans place.symm)
      rcases fin.closed w along with none | before | inside
      · simp at none
      · have small := number_lt before
        rw [List.append_assoc, number_append before]
        omega
      · exact (inInterval w inside).2

end Numbering

end Haxe.Theory
