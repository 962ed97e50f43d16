import Mathlib.Data.List.Chain
import Haxe.Theory.PreorderTree
import Haxe.Source.Optimization.InferImmediateDominators

/-!
# The records left by the numbering pass

`numberBlocks` is the depth-first search of `Theory.visit` over the outgoing
edges. The block with preorder number `i` has its registered record at address
`2 * i`; the record it was copied from is at `2 * i - 1` and keeps the three
links of a freshly tied record. The root has only one record, at address 0.
-/

namespace Haxe.Source.Optimization.Dominators
open Haxe.Theory

/-- The record of number `i` in an order, as `add_info` fills it. -/
def freshInfo (order : List (Nat × Nat)) (i parent : Nat) : DomBbInfo :=
  { bb := (order[i]?.map Prod.fst).getD 0, parent, idom := 2 * i - 1, semi := i,
    label := 2 * i - 1, ancestor := 2 * i - 1, bucket := [] }

structure Numbered (order : List (Nat × Nat)) (st : Numbering) : Prop where
  allocated : st.allocated = 2 * order.length - 1
  nodes : st.nodes = (List.range order.length).map (2 * ·)
  info : ∀ v, st.info v = if v ∈ order.map Prod.fst then some (2 * number order v) else none
  parents : ∀ e ∈ order, e.2 ∈ order.map Prod.fst
  dominated : ∀ v ∈ order.map Prod.fst, st.bbDominated v = []
  copies : ∀ i < order.length, st.heap (2 * i) = freshInfo order i (2 * parentNumber order i)
  originals : ∀ i < order.length, 0 < i → st.heap (2 * i - 1) = freshInfo order i (2 * i - 1)

theorem freshInfo_append {order : List (Nat × Nat)} {i parent : Nat} (e : Nat × Nat)
    (bound : i < order.length) :
    freshInfo (order ++ [e]) i parent = freshInfo order i parent := by
  simp [freshInfo, List.getElem?_append_left bound]

theorem parentNumber_append {order : List (Nat × Nat)} {i : Nat} (e : Nat × Nat)
    (parents : ∀ e ∈ order, e.2 ∈ order.map Prod.fst) (bound : i < order.length) :
    parentNumber (order ++ [e]) i = parentNumber order i := by
  have member := parents _ (List.getElem_mem bound)
  simp [parentNumber, List.getElem?_append_left bound, List.getElem?_eq_getElem bound,
    number_append member]

/-- `add_info` registers the next number. -/
theorem addInfo_numbered {order : List (Nat × Nat)} {st : Numbering} {bb bbParent : Nat}
    (before : Numbered order st) (new : bb ∉ order.map Prod.fst)
    (parent : bbParent ∈ order.map Prod.fst ∨ (order = [] ∧ bbParent = bb)) :
    ∃ st', addInfo { st with bbDominated := Function.update st.bbDominated bb [] } bb bbParent =
      some st' ∧ Numbered (order ++ [(bb, bbParent)]) st' := by
  have newNumber : number (order ++ [(bb, bbParent)]) bb = order.length := by
    simp [number, List.idxOf_append_of_notMem new]
  have stable : ∀ v ∈ order.map Prod.fst,
      number (order ++ [(bb, bbParent)]) v = number order v := fun v member => number_append member
  have infoStep : ∀ address, 2 * order.length = address →
      ∀ v, Function.update st.info bb (some address) v =
        if v ∈ (order ++ [(bb, bbParent)]).map Prod.fst then
          some (2 * number (order ++ [(bb, bbParent)]) v) else none := by
    rintro address rfl v
    by_cases same : v = bb
    · subst same
      simp [newNumber]
    · rw [Function.update_of_ne same, before.info v]
      by_cases member : v ∈ order.map Prod.fst
      · have inOld : v ∈ (order ++ [(bb, bbParent)]).map Prod.fst := by
          rw [List.map_append]
          exact List.mem_append_left _ member
        rw [if_pos member, if_pos inOld, stable v member]
      · have outside : v ∉ (order ++ [(bb, bbParent)]).map Prod.fst := by
          simpa [same] using member
        rw [if_neg member, if_neg outside]
  have dominatedStep : ∀ v ∈ (order ++ [(bb, bbParent)]).map Prod.fst,
      Function.update st.bbDominated bb [] v = [] := by
    intro v member
    by_cases same : v = bb
    · subst same
      simp
    · rw [Function.update_of_ne same]
      exact before.dominated v (by simpa [same] using member)
  have lengthNodes : st.nodes.length = order.length := by simp [before.nodes]
  rcases parent with parent | ⟨rfl, rfl⟩
  · have different : bb ≠ bbParent := fun same => new (same ▸ parent)
    have positive : 0 < order.length := by
      rcases order with _ | ⟨e, order⟩
      · simp at parent
      · simp
    have lookup : st.info bbParent = some (2 * number order bbParent) := by
      rw [before.info, if_pos parent]
    refine ⟨_, (by simp [addInfo, different, Numbering.alloc, lookup]; rfl), ?_⟩
    have parentNew : parentNumber (order ++ [(bb, bbParent)]) order.length =
        number order bbParent := by
      simp [parentNumber, stable bbParent parent]
    have allocated := before.allocated
    refine ⟨?_, ?_, ?_, ?_, ?_, ?_, ?_⟩
    · simp [Numbering.register, allocated]
      omega
    · simp [Numbering.register, before.nodes, List.range_succ, allocated]
      omega
    · exact infoStep _ (by omega)
    · intro e member
      rw [List.map_append, List.mem_append]
      left
      rcases List.mem_append.mp member with member | member
      · exact before.parents e member
      · obtain rfl := List.mem_singleton.mp member
        exact parent
    · exact dominatedStep
    · intro i bound
      simp only [Numbering.register]
      rcases Nat.lt_or_ge i order.length with old | last
      · rw [Function.update_of_ne (by omega), Function.update_of_ne (by omega),
          before.copies i old, freshInfo_append _ old, parentNumber_append _ before.parents old]
      · obtain rfl : i = order.length := by simp at bound; omega
        rw [show 2 * order.length = st.allocated + 1 by omega, Function.update_self, parentNew]
        simp [freshInfo, lengthNodes, allocated]
    · intro i bound inner
      simp only [Numbering.register]
      rcases Nat.lt_or_ge i order.length with old | last
      · rw [Function.update_of_ne (by omega), Function.update_of_ne (by omega),
          before.originals i old inner, freshInfo_append _ old]
      · obtain rfl : i = order.length := by simp at bound; omega
        rw [Function.update_of_ne (by omega), ← allocated, Function.update_self]
        simp [freshInfo, lengthNodes, allocated]
  · refine ⟨_, (by simp [addInfo, Numbering.alloc]; rfl), ?_⟩
    have allocated := before.allocated
    simp only [List.length_nil] at allocated lengthNodes
    refine ⟨?_, ?_, ?_, ?_, ?_, ?_, ?_⟩
    · simp [Numbering.register, allocated]
    · simp [Numbering.register, before.nodes, allocated]
    · exact infoStep _ (by simp [allocated])
    · simp
    · exact dominatedStep
    · intro i bound
      obtain rfl : i = 0 := by simpa using bound
      have root : parentNumber [(bbParent, bbParent)] 0 = 0 := by simp [parentNumber, number]
      simp [Numbering.register, freshInfo, root, lengthNodes, allocated]
    · intro i bound inner
      have : i < 1 := by simpa using bound
      omega

variable {Texpr : Type} (g : Cfg Texpr)

/-- The numbering pass simulates the depth-first search. -/
theorem numberBlocks_simulates (fuel : Nat) (order out : List (Nat × Nat)) (st : Numbering)
    (bbParent bb : Nat) (before : Numbered order st) (nodup : (order.map Prod.fst).Nodup)
    (new : bb ∉ order.map Prod.fst)
    (parent : bbParent ∈ order.map Prod.fst ∨ (order = [] ∧ bbParent = bb))
    (found : visit g.succ fuel order bbParent bb = some out) :
    ∃ st', numberBlocks g fuel st bbParent bb = some st' ∧ Numbered out st' := by
  induction fuel generalizing order out st bbParent bb with
  | zero => cases found
  | succ fuel ih =>
    obtain ⟨start, added, numbered⟩ := addInfo_numbered before new parent
    rw [numberBlocks]
    simp only [added, Option.bind_eq_bind, Option.bind_some]
    rw [visit, Cfg.succ, List.foldlM_map] at found
    have nodup' : ((order ++ [(bb, bbParent)]).map Prod.fst).Nodup := by
      rw [List.map_append, List.nodup_append]
      refine ⟨nodup, by simp, ?_⟩
      rintro a old b single rfl
      obtain rfl : a = bb := by simpa using single
      exact new old
    have inside : bb ∈ (order ++ [(bb, bbParent)]).map Prod.fst := by simp
    -- The loop over the remaining edges, from any state both sides agree on.
    generalize order ++ [(bb, bbParent)] = now at found numbered nodup' inside
    generalize g.bbOutgoing bb = edges at found
    clear added before new parent nodup
    induction edges generalizing now start with
    | nil =>
      obtain rfl := Option.some.inj found
      exact ⟨start, rfl, numbered⟩
    | cons edge edges edgesIh =>
      rw [List.foldlM_cons] at found ⊢
      rw [numbered.info]
      by_cases old : edge.cfgTo ∈ now.map Prod.fst
      · rw [if_pos old] at found
        simpa [old] using edgesIh start now numbered nodup' inside found
      · rw [if_neg old] at found
        obtain ⟨inner, searched, found⟩ := Option.bind_eq_some_iff.mp found
        obtain ⟨st', done, numbered'⟩ := ih now inner start bb edge.cfgTo numbered nodup' old
          (Or.inl inside) searched
        obtain ⟨below, rfl, segment, -⟩ :=
          visit_segment g.succ fuel now inner bb edge.cfgTo nodup' old searched
        simpa [old, done] using edgesIh st' _ numbered' (by simpa using segment.fresh)
          (by rw [List.map_append]; exact List.mem_append_left _ inside) found

end Haxe.Source.Optimization.Dominators

/-!
## What `eval` returns

Every registered record but the root's starts with the address of its original in
`label`, and nothing ever changes the `semi` of an original. So `eval` compares
preorder numbers, not semidominators: it returns the original of the highest
vertex that the links reach. The invariant `Forest k` holds when exactly the
numbers above `k` are linked.
-/

namespace Haxe.Source.Optimization.Dominators
open Haxe.Theory

@[simp] theorem Heap.assign_self (heap : Heap) (address : Nat) (f : DomBbInfo → DomBbInfo) :
    heap.assign address f address = f (heap address) := by
  simp [Heap.assign]

theorem Heap.assign_of_ne (heap : Heap) {address other : Nat} (f : DomBbInfo → DomBbInfo)
    (different : other ≠ address) : heap.assign address f other = heap other := by
  simp [Heap.assign, different]

/-- The links, labels and constants of the records, with `P` the tree of parents. -/
structure Forest (n : Nat) (P name : Nat → Nat) (k : Nat) (heap : Heap) : Prop where
  bb : ∀ i < n, (heap (2 * i)).bb = name i
  parent : ∀ i < n, (heap (2 * i)).parent = 2 * P i
  rootSemi : (heap 0).semi = 0
  rootAncestor : (heap 0).ancestor = 0
  originalSemi : ∀ i < n, 0 < i → (heap (2 * i - 1)).semi = i
  originalAncestor : ∀ i < n, 0 < i → (heap (2 * i - 1)).ancestor = 2 * i - 1
  ancestor : ∀ i < n, 0 < i →
    (heap (2 * i)).ancestor = if k < i then 2 * P i else 2 * i - 1
  label : ∀ i < n, 0 < i → ∃ j, (heap (2 * i)).label = 2 * j - 1 ∧ Ancestor P j i ∧
    ∀ t, Top P k i t → t ≤ j

/-- The second heap differs from the first at most in labels. -/
def Relabeled (heap heap' : Heap) : Prop :=
  ∀ address, heap' address = { heap address with label := (heap' address).label }

theorem Relabeled.refl (heap : Heap) : Relabeled heap heap := fun _ => rfl

theorem Relabeled.trans {first second third : Heap} (left : Relabeled first second)
    (right : Relabeled second third) : Relabeled first third := by
  intro address
  rw [right address, left address]

section Fields

variable {heap heap' : Heap} (same : Relabeled heap heap') (address : Nat)
include same

theorem Relabeled.bb : (heap' address).bb = (heap address).bb := by rw [same address]

theorem Relabeled.parent : (heap' address).parent = (heap address).parent := by rw [same address]

theorem Relabeled.idom : (heap' address).idom = (heap address).idom := by rw [same address]

theorem Relabeled.semi : (heap' address).semi = (heap address).semi := by rw [same address]

theorem Relabeled.ancestor : (heap' address).ancestor = (heap address).ancestor := by
  rw [same address]

theorem Relabeled.bucket : (heap' address).bucket = (heap address).bucket := by rw [same address]

end Fields

variable {n k : Nat} {P name : Nat → Nat} {edge : Nat → Nat → Prop} {heap : Heap}

/-- Fields the invariant does not mention may change, and `semi` may at registered records. -/
theorem Forest.congr {heap' : Heap} (forest : Forest n P name k heap)
    (links : ∀ a, (heap' a).bb = (heap a).bb ∧ (heap' a).parent = (heap a).parent ∧
      (heap' a).ancestor = (heap a).ancestor ∧ (heap' a).label = (heap a).label)
    (originals : ∀ i, 0 < i → (heap' (2 * i - 1)).semi = (heap (2 * i - 1)).semi)
    (root : (heap' 0).semi = (heap 0).semi) : Forest n P name k heap' where
  bb _ bound := (links _).1.trans (forest.bb _ bound)
  parent i bound := (links _).2.1.trans (forest.parent i bound)
  rootSemi := root.trans forest.rootSemi
  rootAncestor := (links _).2.2.1.trans forest.rootAncestor
  originalSemi i bound inner := (originals i inner).trans (forest.originalSemi i bound inner)
  originalAncestor i bound inner := (links _).2.2.1.trans (forest.originalAncestor i bound inner)
  ancestor _ bound inner := (links _).2.2.1.trans (forest.ancestor _ bound inner)
  label i bound inner := by
    rw [(links _).2.2.2]
    exact forest.label i bound inner

/-- Linking the next vertex to its parent. -/
theorem Forest.link (tree : PreorderTree n P edge) (forest : Forest n P name (k + 1) heap) :
    Forest n P name k
      (heap.assign (2 * (k + 1)) fun r => { r with ancestor := 2 * P (k + 1) }) := by
  have others : ∀ a, ∃ ancestor,
      (heap.assign (2 * (k + 1)) fun r => { r with ancestor := 2 * P (k + 1) }) a =
        { heap a with ancestor := ancestor } ∧
      (a ≠ 2 * (k + 1) → ancestor = (heap a).ancestor) := by
    intro a
    by_cases same : a = 2 * (k + 1)
    · subst same
      exact ⟨2 * P (k + 1), by simp, by simp⟩
    · exact ⟨(heap a).ancestor, by rw [Heap.assign_of_ne _ _ same], fun _ => rfl⟩
  constructor
  · intro i small
    obtain ⟨d, eq, -⟩ := others (2 * i)
    rw [eq]
    exact forest.bb i small
  · intro i small
    obtain ⟨d, eq, -⟩ := others (2 * i)
    rw [eq]
    exact forest.parent i small
  · obtain ⟨d, eq, -⟩ := others 0
    rw [eq]
    exact forest.rootSemi
  · rw [Heap.assign_of_ne _ _ (by omega)]
    exact forest.rootAncestor
  · intro i small inner
    obtain ⟨d, eq, -⟩ := others (2 * i - 1)
    rw [eq]
    exact forest.originalSemi i small inner
  · intro i small inner
    rw [Heap.assign_of_ne _ _ (by omega)]
    exact forest.originalAncestor i small inner
  · intro i small inner
    by_cases same : i = k + 1
    · subst same
      simp
    · rw [Heap.assign_of_ne _ _ (by omega), forest.ancestor i small inner]
      by_cases high : k < i
      · rw [if_pos high, if_pos (by omega)]
      · rw [if_neg high, if_neg (by omega)]
  · intro i small inner
    obtain ⟨d, eq, -⟩ := others (2 * i)
    obtain ⟨j, label, ancestor, above⟩ := forest.label i small inner
    refine ⟨j, by rw [eq]; exact label, ancestor, fun t top => ?_⟩
    obtain ⟨s, before⟩ := tree.top_exists (k + 1) small
    exact Nat.le_trans (tree.top_mono small before top) (above s before)

/-- Pointing a label at the original of the vertex's top keeps the invariant. -/
theorem Forest.assign_label (forest : Forest n P name k heap) {i t : Nat} (bound : i < n)
    (inner : 0 < i) (top : Top P k i t) :
    Forest n P name k (heap.assign (2 * i) fun r => { r with label := 2 * t - 1 }) ∧
      Relabeled heap (heap.assign (2 * i) fun r => { r with label := 2 * t - 1 }) := by
  have relabeled : Relabeled heap (heap.assign (2 * i) fun r => { r with label := 2 * t - 1 }) := by
    intro address
    by_cases same : address = 2 * i
    · subst same
      simp
    · rw [Heap.assign_of_ne _ _ same]
  refine ⟨?_, relabeled⟩
  constructor
  · exact fun j small => (relabeled.bb _).trans (forest.bb j small)
  · exact fun j small => (relabeled.parent _).trans (forest.parent j small)
  · exact (relabeled.semi _).trans forest.rootSemi
  · exact (relabeled.ancestor _).trans forest.rootAncestor
  · exact fun j small positive => (relabeled.semi _).trans (forest.originalSemi j small positive)
  · exact fun j small positive =>
      (relabeled.ancestor _).trans (forest.originalAncestor j small positive)
  · exact fun j small positive => (relabeled.ancestor _).trans (forest.ancestor j small positive)
  · intro j small positive
    by_cases same : j = i
    · subst same
      exact ⟨t, by simp, top.ancestor, fun s other => Nat.le_of_eq (other.unique top)⟩
    · rw [Heap.assign_of_ne _ _ (by omega)]
      exact forest.label j small positive

/-- The chain of ancestor links from `v` ends at the top of `v`. -/
theorem ancestors_top (tree : PreorderTree n P edge) (forest : Forest n P name k heap) (v : Nat)
    (bound : v < n) (inner : 0 < v) (fuel : Nat) (enough : v < fuel) (l : List Nat) :
    ∃ t xs, ancestors heap fuel (2 * v :: l) (heap (2 * v)).ancestor =
        some (2 * t :: xs.map (2 * ·) ++ l) ∧ Top P k v t ∧
      List.IsChain (fun a b => P b = a ∧ k < b) (t :: xs) ∧ (t :: xs).getLast? = some v := by
  induction v using Nat.strongRecOn generalizing fuel l with
  | ind v ih =>
    obtain ⟨fuel, rfl⟩ : ∃ f, fuel = f + 1 := ⟨fuel - 1, by omega⟩
    rw [ancestors, forest.ancestor v bound inner]
    by_cases linked : k < v
    · rw [if_pos linked]
      by_cases child : P v = 0
      · refine ⟨v, [], ?_, .branch linked child, by simp, rfl⟩
        simp [child, forest.rootAncestor]
      · have smaller := tree.parent_lt v inner bound
        have next : (heap (2 * P v)).ancestor ≠ 2 * P v := by
          rw [forest.ancestor _ (by omega) (by omega)]
          have grand := tree.parent_lt (P v) (by omega) (by omega)
          split <;> omega
        rw [if_neg next]
        obtain ⟨t, xs, found, top, chain, last⟩ :=
          ih (P v) smaller (by omega) (by omega) fuel (by omega) (2 * v :: l)
        refine ⟨t, xs ++ [v], ?_, .climb linked child top, ?_, ?_⟩
        · rw [found]
          simp
        · rw [← List.cons_append, List.isChain_append]
          refine ⟨chain, by simp, ?_⟩
          intro a lastA b headB
          rw [last, Option.mem_some] at lastA
          obtain rfl : v = b := by simpa using headB
          exact ⟨lastA, linked⟩
        · rw [← List.cons_append]
          exact List.getLast?_concat
    · rw [if_neg linked, forest.originalAncestor v bound inner, if_pos rfl]
      exact ⟨v, [], by simp, .low (by omega), by simp, rfl⟩

/-- Folding `relabel` down a chain leaves the top's label on all of it. -/
theorem foldl_relabel (tree : PreorderTree n P edge) (xs : List Nat) (heap : Heap) (a t : Nat)
    (forest : Forest n P name k heap) (bound : a < n) (inner : 0 < a) (top : Top P k a t)
    (labelled : (heap (2 * a)).label = 2 * t - 1)
    (chain : List.IsChain (fun a b => P b = a ∧ k < b) (a :: xs)) (small : ∀ x ∈ xs, x < n)
    {v : Nat} (last : (a :: xs).getLast? = some v) :
    ∃ heap', ((xs.map (2 * ·)).foldl relabel (heap, 2 * a, t)).1 = heap' ∧
      Forest n P name k heap' ∧ Relabeled heap heap' ∧ (heap' (2 * v)).label = 2 * t - 1 ∧
      Top P k v t := by
  induction xs generalizing heap a with
  | nil =>
    obtain rfl : a = v := by simpa using last
    exact ⟨heap, rfl, forest, .refl heap, labelled, top⟩
  | cons x xs ih =>
    obtain ⟨⟨up, linked⟩, rest⟩ := List.isChain_cons_cons.mp chain
    have xBound := small x (by simp)
    have topX : Top P k x t := .climb linked (by omega) (up ▸ top)
    obtain ⟨j, label, ancestor, above⟩ := forest.label x xBound (by omega)
    have low := above t topX
    have positive := top.pos inner
    have high := tree.ancestor_le ancestor xBound
    have semi : (heap (2 * j - 1)).semi = j := forest.originalSemi j (by omega) (by omega)
    rw [List.map_cons, List.foldl_cons]
    by_cases stale : t < j
    · have step : relabel (heap, 2 * a, t) (2 * x) =
          (heap.assign (2 * x) fun r => { r with label := 2 * t - 1 }, 2 * x, t) := by
        simp [relabel, label, semi, labelled, stale]
      rw [step]
      obtain ⟨forest', relabeled⟩ := forest.assign_label xBound (by omega) topX
      obtain ⟨heap', done, forest'', more, final, topV⟩ :=
        ih _ x forest' xBound (by omega) topX (by simp) rest
          (fun y member => small y (by simp [member])) (by simpa using last)
      exact ⟨heap', done, forest'', relabeled.trans more, final, topV⟩
    · obtain rfl : j = t := by omega
      have step : relabel (heap, 2 * a, j) (2 * x) = (heap, 2 * x, j) := by
        simp [relabel, label, semi]
      rw [step]
      exact ih heap x forest xBound (by omega) topX label rest
        (fun y member => small y (by simp [member])) (by simpa using last)

/-- `compress` leaves the original of the top in the label of `v`. -/
theorem compress_top (tree : PreorderTree n P edge) (forest : Forest n P name k heap) {v : Nat}
    (bound : v < n) (inner : 0 < v) {fuel : Nat} (enough : v < fuel) :
    ∃ heap' t, compress fuel heap (2 * v) = some heap' ∧ Forest n P name k heap' ∧
      Relabeled heap heap' ∧ Top P k v t ∧ (heap' (2 * v)).label = 2 * t - 1 := by
  obtain ⟨t, xs, found, top, chain, last⟩ :=
    ancestors_top tree forest v bound inner fuel enough []
  have tBound : t < n := by
    have := tree.ancestor_le top.ancestor bound
    omega
  have tInner := top.pos inner
  have topT : Top P k t t := by
    rcases top.stops with low | ⟨child, large⟩
    · exact .low low
    · exact .branch large child
  -- The label of a top can only be its own original.
  have labelled : (heap (2 * t)).label = 2 * t - 1 := by
    obtain ⟨j, label, ancestor, above⟩ := forest.label t tBound tInner
    have := tree.ancestor_le ancestor tBound
    have := above t topT
    obtain rfl : j = t := by omega
    exact label
  have small : ∀ x ∈ xs, x < n := by
    have descend : ∀ (ys : List Nat) (b : Nat),
        List.IsChain (fun a b => P b = a ∧ k < b) (b :: ys) → (b :: ys).getLast? = some v →
        ∀ y ∈ b :: ys, Ancestor P y v := by
      intro ys
      induction ys with
      | nil =>
        intro b _ last y member
        obtain rfl : b = v := by simpa using last
        obtain rfl : y = b := by simpa using member
        exact .refl
      | cons c ys ih =>
        intro b chain last y member
        obtain ⟨⟨up, linked⟩, rest⟩ := List.isChain_cons_cons.mp chain
        have below := ih c rest (by simpa using last)
        rcases List.mem_cons.mp member with rfl | member
        · have step : Ancestor P y c := .step (by omega) (up ▸ .refl)
          exact step.trans (below c (by simp))
        · exact below y member
    intro x member
    have := tree.ancestor_le (descend xs t chain last x (by simp [member])) bound
    omega
  obtain ⟨heap', done, forest', relabeled, label, topV⟩ :=
    foldl_relabel tree xs heap t t forest tBound tInner topT labelled chain small last
  refine ⟨heap', t, ?_, forest', relabeled, topV, label⟩
  have semi : (heap (2 * t - 1)).semi = t := forest.originalSemi t tBound tInner
  simp [compress, found, labelled, semi, done]

/-- `eval` returns a record whose `semi` is the number of the vertex's top. -/
theorem eval_top (tree : PreorderTree n P edge) (forest : Forest n P name k heap)
    {info : Nat → Option Nat} {v : Nat} (known : info (name v) = some (2 * v)) (bound : v < n)
    {fuel : Nat} (enough : v < fuel) :
    ∃ heap' u t, eval fuel info heap (name v) = some (heap', u) ∧ Forest n P name k heap' ∧
      Relabeled heap heap' ∧ Top P k v t ∧ (heap' u).semi = t := by
  rcases Nat.eq_zero_or_pos v with rfl | inner
  · refine ⟨heap, 0, 0, ?_, forest, .refl heap, .low (by omega), forest.rootSemi⟩
    simp [eval, known, forest.rootAncestor]
  · have linked : (heap (2 * v)).ancestor ≠ 2 * v := by
      rw [forest.ancestor v bound inner]
      have := tree.parent_lt v inner bound
      split <;> omega
    obtain ⟨heap', t, done, forest', relabeled, top, label⟩ :=
      compress_top tree forest bound inner enough
    have tBound : t < n := by
      have := tree.ancestor_le top.ancestor bound
      omega
    refine ⟨heap', 2 * t - 1, t, ?_, forest', relabeled, top,
      forest'.originalSemi t tBound (top.pos inner)⟩
    simp [eval, known, linked, done, label]

end Haxe.Source.Optimization.Dominators
