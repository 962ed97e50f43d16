import Mathlib.Data.List.Nodup
import Mathlib.Data.List.Basic
import Mathlib.Tactic.Cases
import Haxe.Theory.Dominance

/-!
# Depth-first search and its spanning tree

`visit` is the textbook recursive search. Its result lists every discovered
vertex with the vertex it was discovered from, in preorder. `Finished` is the
parenthesis structure of the search: a vertex, then everything discovered below
it, then the rest, with all successors of the vertex discovered no later than
its last descendant. Numbering the list turns this into `PreorderTree`, where
ancestors are intervals and no edge leads to a higher number outside the subtree.
-/

namespace Haxe.Theory

variable {V : Type*}

/-- The entries `B` found below `x`, between what came before and after them. -/
structure Finished (succ : V → List V) (seen segment : List (V × V)) (x : V)
    (A B C : List (V × V)) : Prop where
  split : ∃ p, segment = A ++ (x, p) :: B ++ C
  below : ∀ e ∈ B, e.2 ∈ x :: B.map Prod.fst
  outside : ∀ e ∈ C, e.2 ∉ x :: B.map Prod.fst
  closed : ∀ w ∈ succ x, w ∈ seen.map Prod.fst ∨ w ∈ A.map Prod.fst ∨ w ∈ x :: B.map Prod.fst

/-- What a search from `v` appends to the list of discovered vertices. -/
structure Segment (succ : V → List V) (seen : List (V × V)) (v : V) (new : List (V × V)) :
    Prop where
  fresh : (seen.map Prod.fst ++ v :: new.map Prod.fst).Nodup
  parents : ∀ A y q C, new = A ++ (y, q) :: C → q ∈ v :: A.map Prod.fst ∧ y ∈ succ q
  finished : ∀ p, ∀ x ∈ new.map Prod.fst, ∃ A B C, Finished succ seen ((v, p) :: new) x A B C

theorem Segment.nil {succ : V → List V} {seen : List (V × V)} {v : V}
    (nodup : (seen.map Prod.fst).Nodup) (new : v ∉ seen.map Prod.fst) :
    Segment succ seen v [] where
  fresh := by
    rw [List.map_nil, List.nodup_append]
    refine ⟨nodup, by simp, ?_⟩
    rintro a member b single rfl
    obtain rfl := List.mem_singleton.mp single
    exact new member
  parents := by simp
  finished := by simp

/-- The search below one more child extends the segment of its parent. -/
theorem Segment.append {succ : V → List V} {seen new below : List (V × V)} {v w p : V}
    (done : Segment succ seen v new) (edge : w ∈ succ v)
    (child : Segment succ (seen ++ (v, p) :: new) w below)
    (closed : ∀ x ∈ succ w, x ∈ (seen ++ (v, p) :: new).map Prod.fst ∨ x ∈ w :: below.map Prod.fst) :
    Segment succ seen v (new ++ (w, v) :: below) where
  fresh := by simpa [List.append_assoc] using child.fresh
  parents := by
    intro A y q C split
    rcases List.append_eq_append_iff.mp split with ⟨D, rfl, second⟩ | ⟨D, first, second⟩
    · cases D with
      | nil =>
        obtain ⟨⟨rfl, rfl⟩, rfl⟩ := by simpa using second
        exact ⟨by simp, edge⟩
      | cons d D =>
        rw [List.cons_append, List.cons.injEq] at second
        obtain ⟨rfl, second⟩ := second
        obtain ⟨earlier, succq⟩ := child.parents D y q C second
        refine ⟨?_, succq⟩
        rcases List.mem_cons.mp earlier with rfl | earlier
        · simp
        · simp only [List.map_append, List.map_cons, List.mem_cons, List.mem_append]
          exact Or.inr (Or.inr (Or.inr earlier))
    · cases D with
      | nil =>
        obtain ⟨⟨rfl, rfl⟩, rfl⟩ := by simpa using second.symm
        exact ⟨by simp, edge⟩
      | cons d D =>
        obtain ⟨rfl, -⟩ := by simpa using second
        exact done.parents A y q D first
  finished := by
    have nodup := child.fresh
    rw [List.map_append, List.nodup_append] at nodup
    obtain ⟨oldNodup, -, apart⟩ := nodup
    have vNew : v ∉ new.map Prod.fst :=
      (List.nodup_cons.mp (List.nodup_append.mp oldNodup).2.1).1
    have disjoint : ∀ y ∈ v :: new.map Prod.fst, y ∉ w :: below.map Prod.fst :=
      fun y old inside => apart y (List.mem_append_right _ old) y inside rfl
    intro r x member
    rw [List.map_append, List.mem_append, List.map_cons, List.mem_cons] at member
    rcases member with member | rfl | member
    · obtain ⟨A, B, C, fin⟩ := done.finished r x member
      obtain ⟨q, split⟩ := fin.split
      refine ⟨A, B, C ++ (w, v) :: below, ⟨q, ?_⟩, fin.below, ?_, fin.closed⟩
      · rw [← List.cons_append, split]
        simp
      · have inside : ∀ y ∈ x :: B.map Prod.fst, y ∈ new.map Prod.fst := by
          cases A with
          | nil =>
            obtain ⟨⟨rfl, -⟩, -⟩ := by simpa using split
            exact absurd member vNew
          | cons a A =>
            obtain ⟨-, rfl⟩ := by simpa using split
            intro y inB
            simp only [List.map_append, List.map_cons, List.mem_append]
            exact Or.inr (List.mem_append_left _ inB)
        intro e later
        rcases List.mem_append.mp later with later | later
        · exact fin.outside e later
        · have parent : e.2 = v ∨ e.2 ∈ w :: below.map Prod.fst := by
            rcases List.mem_cons.mp later with rfl | later
            · exact Or.inl rfl
            · obtain ⟨S, T, rfl⟩ := List.append_of_mem later
              have earlier := (child.parents S e.1 e.2 T rfl).1
              right
              rcases List.mem_cons.mp earlier with same | earlier
              · simp [same]
              · simp only [List.map_append, List.mem_cons, List.mem_append]
                exact Or.inr (Or.inl earlier)
          intro within
          have old := inside _ within
          rcases parent with same | parent
          · exact vNew (same ▸ old)
          · exact disjoint e.2 (List.mem_cons_of_mem _ old) parent
    · refine ⟨(v, r) :: new, below, [], ⟨v, by simp⟩, ?_, by simp, ?_⟩
      · intro e member
        obtain ⟨S, T, rfl⟩ := List.append_of_mem member
        have earlier := (child.parents S e.1 e.2 T rfl).1
        rcases List.mem_cons.mp earlier with same | earlier
        · simp [same]
        · simp only [List.map_append, List.mem_cons, List.mem_append]
          exact Or.inr (Or.inl earlier)
      · intro y succx
        rcases closed y succx with old | inside
        · simp only [List.map_append, List.map_cons, List.mem_append] at old
          rcases old with old | old
          · exact Or.inl old
          · exact Or.inr (Or.inl old)
        · exact Or.inr (Or.inr inside)
    · obtain ⟨A, B, C, fin⟩ := child.finished v x member
      obtain ⟨q, split⟩ := fin.split
      refine ⟨(v, r) :: new ++ A, B, C, ⟨q, by simp [split]⟩, fin.below, fin.outside, ?_⟩
      intro y succx
      rcases fin.closed y succx with old | inside
      · simp only [List.map_append, List.map_cons, List.mem_append] at old ⊢
        tauto
      · simp only [List.map_append, List.map_cons, List.mem_append]
        tauto

section Search

variable [DecidableEq V]

/-- Depth-first search from `v`, discovered from `parent`; `none` is lack of fuel. -/
def visit (succ : V → List V) : Nat → List (V × V) → V → V → Option (List (V × V))
  | 0, _, _, _ => none
  | fuel + 1, seen, parent, v =>
    (succ v).foldlM
      (fun seen w => if w ∈ seen.map Prod.fst then some seen else visit succ fuel seen v w)
      (seen ++ [(v, parent)])

/-- The search returns its segment, with the successors of `v` all discovered. -/
theorem visit_segment (succ : V → List V) (fuel : Nat) (seen out : List (V × V)) (parent v : V)
    (nodup : (seen.map Prod.fst).Nodup) (new : v ∉ seen.map Prod.fst)
    (found : visit succ fuel seen parent v = some out) :
    ∃ below, out = seen ++ (v, parent) :: below ∧ Segment succ seen v below ∧
      ∀ x ∈ succ v, x ∈ seen.map Prod.fst ∨ x ∈ v :: below.map Prod.fst := by
  induction fuel generalizing seen out parent v with
  | zero => cases found
  | succ fuel ih =>
    -- Every prefix of the successor list leaves a segment of `v` behind.
    have children : ∀ (todo : List V) (below : List (V × V)), (∀ w ∈ todo, w ∈ succ v) →
        Segment succ seen v below →
        todo.foldlM (fun seen w => if w ∈ seen.map Prod.fst then some seen
          else visit succ fuel seen v w) (seen ++ (v, parent) :: below) = some out →
        ∃ more, out = seen ++ (v, parent) :: (below ++ more) ∧
          Segment succ seen v (below ++ more) ∧
          ∀ w ∈ todo, w ∈ seen.map Prod.fst ∨ w ∈ v :: (below ++ more).map Prod.fst := by
      intro todo
      induction todo with
      | nil =>
        intro below _ segment finished
        obtain rfl := Option.some.inj finished
        exact ⟨[], by simp, by simpa using segment, by simp⟩
      | cons w todo todoIh =>
        intro below edges segment finished
        rw [List.foldlM_cons] at finished
        by_cases old : w ∈ (seen ++ (v, parent) :: below).map Prod.fst
        · rw [if_pos old] at finished
          obtain ⟨more, rfl, whole, covered⟩ := todoIh below
            (fun x member => edges x (List.mem_cons_of_mem _ member)) segment finished
          refine ⟨more, rfl, whole, fun x member => ?_⟩
          rcases List.mem_cons.mp member with rfl | member
          · simp only [List.map_append, List.map_cons, List.mem_append, List.mem_cons] at old ⊢
            tauto
          · exact covered x member
        · rw [if_neg old] at finished
          obtain ⟨inner, searched, finished⟩ := Option.bind_eq_some_iff.mp finished
          have nodup' : ((seen ++ (v, parent) :: below).map Prod.fst).Nodup := by
            simpa using segment.fresh
          obtain ⟨child, rfl, childSegment, childClosed⟩ :=
            ih (seen ++ (v, parent) :: below) inner v w nodup' old searched
          have extended := segment.append (edges w (by simp)) childSegment childClosed
          obtain ⟨more, rfl, whole, covered⟩ := todoIh (below ++ (w, v) :: child)
            (fun x member => edges x (List.mem_cons_of_mem _ member)) extended
            (by simpa using finished)
          refine ⟨(w, v) :: child ++ more, by simp, by simpa using whole, fun x member => ?_⟩
          rcases List.mem_cons.mp member with rfl | member
          · simp
          · simpa using covered x member
    obtain ⟨more, rfl, segment, covered⟩ := children (succ v) [] (fun _ member => member)
      (.nil nodup new) (by simpa [visit] using found)
    exact ⟨more, by simp, by simpa using segment, by simpa using covered⟩

/-- Vertices of `nodes` still to be discovered. -/
def unseen (nodes : List V) (seen : List (V × V)) : List V :=
  nodes.filter (· ∉ seen.map Prod.fst)

theorem unseen_length_le (nodes : List V) {seen more : List (V × V)}
    (subset : seen.map Prod.fst ⊆ more.map Prod.fst) :
    (unseen nodes more).length ≤ (unseen nodes seen).length := by
  apply List.Sublist.length_le
  apply List.monotone_filter_right
  intro x
  simp only [decide_eq_true_eq]
  exact fun outside inside => outside (subset inside)

theorem unseen_length_lt (nodes : List V) {seen : List (V × V)} {v p : V} (member : v ∈ nodes)
    (new : v ∉ seen.map Prod.fst) :
    (unseen nodes (seen ++ [(v, p)])).length < (unseen nodes seen).length := by
  have split : unseen nodes (seen ++ [(v, p)]) = (unseen nodes seen).filter (· ≠ v) := by
    unfold unseen
    rw [List.filter_filter]
    apply List.filter_congr
    intro x _
    by_cases same : x = v <;> simp [same]
  rw [split]
  apply List.length_filter_lt_length_iff_exists.mpr
  refine ⟨v, List.mem_filter.mpr ⟨member, by simpa using new⟩, by simp⟩

/-- Fuel above the number of undiscovered vertices is enough. -/
theorem visit_total (succ : V → List V) (nodes : List V)
    (closed : ∀ v ∈ nodes, ∀ w ∈ succ v, w ∈ nodes) (fuel : Nat) (seen : List (V × V))
    (parent v : V) (nodup : (seen.map Prod.fst).Nodup) (member : v ∈ nodes)
    (new : v ∉ seen.map Prod.fst) (enough : (unseen nodes seen).length ≤ fuel) :
    ∃ out, visit succ fuel seen parent v = some out := by
  induction fuel generalizing seen parent v with
  | zero =>
    have waiting : v ∈ unseen nodes seen := List.mem_filter.mpr ⟨member, by simpa using new⟩
    exact absurd (List.length_pos_of_mem waiting) (by omega)
  | succ fuel ih =>
    have children : ∀ (todo : List V) (now : List (V × V)), (∀ w ∈ todo, w ∈ nodes) →
        (now.map Prod.fst).Nodup → (unseen nodes now).length ≤ fuel →
        ∃ out, todo.foldlM (fun seen w => if w ∈ seen.map Prod.fst then some seen
          else visit succ fuel seen v w) now = some out := by
      intro todo
      induction todo with
      | nil => exact fun now _ _ _ => ⟨now, rfl⟩
      | cons w todo todoIh =>
        intro now inside nodup small
        rw [List.foldlM_cons]
        by_cases old : w ∈ now.map Prod.fst
        · rw [if_pos old]
          exact todoIh now (fun x member => inside x (List.mem_cons_of_mem _ member)) nodup small
        · rw [if_neg old]
          obtain ⟨out, searched⟩ := ih now v w nodup (inside w (by simp)) old small
          obtain ⟨below, rfl, segment, -⟩ := visit_segment succ fuel now out v w nodup old searched
          rw [searched]
          apply todoIh _ (fun x member => inside x (List.mem_cons_of_mem _ member))
          · simpa using segment.fresh
          · refine Nat.le_trans (unseen_length_le nodes ?_) small
            rw [List.map_append]
            exact List.subset_append_left _ _
    rw [visit]
    apply children (succ v) _ (closed v member)
    · simpa using (Segment.nil nodup new : Segment succ _ v []).fresh
    · have := unseen_length_lt nodes (p := parent) member new
      omega

/-- The search from the root discovers everything reachable. -/
theorem visit_covers (succ : V → List V) (fuel : Nat) (out : List (V × V)) (root : V)
    (found : visit succ fuel [] root root = some out) {v : V}
    (reached : Reachable (fun v w => w ∈ succ v) root v) : v ∈ out.map Prod.fst := by
  obtain ⟨below, rfl, segment, rootClosed⟩ :=
    visit_segment succ fuel [] out root root (by simp) (by simp) found
  obtain ⟨p, walk⟩ := reached
  induction walk with
  | start => simp
  | @step p v w _ along ih =>
    have closed : ∀ x ∈ root :: below.map Prod.fst, ∀ y ∈ succ x,
        y ∈ root :: below.map Prod.fst := by
      intro x member y succx
      rcases List.mem_cons.mp member with rfl | member
      · simpa using rootClosed y succx
      · obtain ⟨A, B, C, fin⟩ := segment.finished root x member
        obtain ⟨q, split⟩ := fin.split
        have names : root :: below.map Prod.fst =
            A.map Prod.fst ++ x :: B.map Prod.fst ++ C.map Prod.fst := by
          simpa using congrArg (List.map Prod.fst) split
        rw [names]
        rcases fin.closed y succx with none | before | inside
        · simp at none
        · simp [before]
        · simp only [List.mem_append]
          exact Or.inl (Or.inr inside)
    simpa using closed v (by simpa using ih) w along

end Search

end Haxe.Theory
