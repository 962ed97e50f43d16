import Haxe.Source.Optimization.DominatorForest

/-!
# The passes over the numbered blocks

`Progress k` describes the heap when exactly the numbers above `k` have been
processed: their `semi` is the highest top among their predecessors, and they have
either been given that vertex as `idom` or still wait in its bucket, below a child
that is yet to be processed. Neither the comparison in the bucket loop nor the
adjusting pass ever selects another vertex.
-/

namespace Haxe.Source.Optimization.Dominators
open Haxe.Theory

/-- `s` is the highest of the tops of the predecessors of `i`. -/
structure JoinIndex (P : Nat → Nat) (edge : Nat → Nat → Prop) (i s : Nat) : Prop where
  lt : s < i
  least : ∀ v t, edge v i → Top P i v t → s ≤ t
  attained : ∃ v, edge v i ∧ Top P i v s

variable {n k : Nat} {P name : Nat → Nat} {edge : Nat → Nat → Prop} {heap : Heap}

/-- The highest top lies on the tree path to the vertex. -/
theorem JoinIndex.ancestor (tree : PreorderTree n P edge) {i s : Nat} (bound : i < n)
    (sources : ∀ v, edge v i → v < n) (join : JoinIndex P edge i s) : Ancestor P s i := by
  obtain ⟨v, along, top⟩ := join.attained
  rcases Nat.lt_or_ge i v with above | below
  · exact tree.ancestor_between (sources v along) top.ancestor (by have := join.lt; omega)
      (by omega)
  · have vBound := sources v along
    have : v ≠ i := by
      rintro rfl
      have := top.unique (.low (Nat.le_refl v))
      have := join.lt
      omega
    obtain rfl : s = v := top.unique (.low below)
    exact tree.ancestor_of_edge bound (by omega) along

structure Progress (n : Nat) (P : Nat → Nat) (edge : Nat → Nat → Prop) (k : Nat) (heap : Heap) :
    Prop where
  semiLow : ∀ i < n, i ≤ k → (heap (2 * i)).semi = i
  semiHigh : ∀ i < n, k < i → JoinIndex P edge i (heap (2 * i)).semi
  bucket : ∀ s < n, ∀ a ∈ (heap (2 * s)).bucket,
    ∃ v, a = 2 * v ∧ k < v ∧ v < n ∧ (heap (2 * v)).semi = s
  idom : ∀ v < n, k < v → (heap (2 * v)).idom = 2 * (heap (2 * v)).semi ∨
    (2 * v ∈ (heap (2 * (heap (2 * v)).semi)).bucket ∧
      ∃ c, 0 < c ∧ c ≤ k ∧ P c = (heap (2 * v)).semi ∧ Ancestor P c v)
  rootIdom : (heap 0).idom = 0

theorem Progress.relabeled {heap' : Heap} (progress : Progress n P edge k heap)
    (same : Relabeled heap heap') : Progress n P edge k heap' := by
  constructor
  · exact fun i bound low => (same.semi _).trans (progress.semiLow i bound low)
  · intro i bound high
    rw [same.semi]
    exact progress.semiHigh i bound high
  · intro s bound a member
    rw [same.bucket] at member
    obtain ⟨v, rfl, high, vBound, semi⟩ := progress.bucket s bound a member
    exact ⟨v, rfl, high, vBound, (same.semi _).trans semi⟩
  · intro v bound high
    rw [same.idom, same.semi, same.bucket]
    exact progress.idom v bound high
  · exact (same.idom _).trans progress.rootIdom

section Evaluation

variable {info : Nat → Option Nat} {fuel : Nat} (tree : PreorderTree n P edge)
  (known : ∀ i < n, info (name i) = some (2 * i)) (enough : n ≤ fuel)
include tree known enough

/-- The fold over the incoming edges computes the least top, or keeps the start value. -/
theorem evalIncoming_spec {Texpr : Type} (incoming : List (CfgEdge Texpr)) (heap : Heap) (acc : Nat)
    (forest : Forest n P name k heap)
    (sources : ∀ e ∈ incoming, ∃ v < n, name v = e.cfgFrom) :
    ∃ heap' m, evalIncoming fuel info incoming heap acc = some (heap', m) ∧
      Forest n P name k heap' ∧ Relabeled heap heap' ∧ m ≤ acc ∧
      (∀ e ∈ incoming, ∃ v t, v < n ∧ name v = e.cfgFrom ∧ Top P k v t ∧ m ≤ t) ∧
      (m = acc ∨ ∃ e ∈ incoming, ∃ v < n, name v = e.cfgFrom ∧ Top P k v m) := by
  induction incoming generalizing heap acc with
  | nil => exact ⟨heap, acc, rfl, forest, .refl heap, Nat.le_refl _, by simp, Or.inl rfl⟩
  | cons e incoming ih =>
    obtain ⟨v, bound, source⟩ := sources e (by simp)
    obtain ⟨heap₁, u, t, evaluated, forest₁, same₁, top, semi⟩ :=
      eval_top tree forest (known v bound) bound (by omega : v < fuel)
    obtain ⟨heap₂, m, folded, forest₂, same₂, low, least, attained⟩ :=
      ih heap₁ (min acc t) forest₁ (fun e member => sources e (by simp [member]))
    refine ⟨heap₂, m, ?_, forest₂, same₁.trans same₂, by omega, ?_, ?_⟩
    · rw [source] at evaluated
      simp [evalIncoming, evaluated, semi, folded]
    · intro e' member
      rcases List.mem_cons.mp member with rfl | member
      · exact ⟨v, t, bound, source, top, by omega⟩
      · exact least e' member
    · rcases attained with rfl | ⟨e', member, found⟩
      · rcases Nat.le_total acc t with left | right
        · exact Or.inl (Nat.min_eq_left left)
        · exact Or.inr ⟨e, by simp, v, bound, source, by rwa [Nat.min_eq_right right]⟩
      · exact Or.inr ⟨e', by simp [member], found⟩

/-- The bucket loop gives every vertex of the bucket the bucket's owner as `idom`. -/
theorem settleBucket_spec (p : Nat) (pLow : p ≤ k) (bucket : List Nat) (heap : Heap)
    (forest : Forest n P name k heap)
    (members : ∀ a ∈ bucket, ∃ v, a = 2 * v ∧ k < v ∧ v < n ∧ (heap a).semi = p ∧
      Ancestor P p v) :
    ∃ heap', settleBucket fuel info (2 * p) bucket heap = some heap' ∧
      Forest n P name k heap' ∧
      ∀ a, heap' a = { heap a with
        label := (heap' a).label, idom := if a ∈ bucket then 2 * p else (heap a).idom } := by
  induction bucket generalizing heap with
  | nil => exact ⟨heap, rfl, forest, fun _ => by simp⟩
  | cons a bucket ih =>
    obtain ⟨v, rfl, high, bound, semiV, up⟩ := members a (by simp)
    obtain ⟨heap₁, u, t, evaluated, forest₁, same₁, top, semi⟩ :=
      eval_top tree forest (known v bound) bound (by omega : v < fuel)
    -- The top of `v` is not above the bucket's owner, so the comparison fails.
    have owner : p ≤ t := by
      rcases Nat.eq_zero_or_pos p with rfl | inner
      · exact Nat.zero_le _
      · have tBound : t < n := by
          have := tree.ancestor_le top.ancestor bound
          omega
        exact tree.ancestor_le (tree.ancestor_top bound top up pLow inner) tBound
    have keeps : ¬ (heap₁ u).semi < (heap₁ (2 * v)).semi := by
      rw [semi, same₁.semi, semiV]
      omega
    have forest₂ : Forest n P name k
        (heap₁.assign (2 * v) fun r => { r with idom := 2 * p }) := by
      have others : ∀ a, ∃ idom, (heap₁.assign (2 * v) fun r => { r with idom := 2 * p }) a =
          { heap₁ a with idom := idom } := by
        intro a
        by_cases same : a = 2 * v
        · subst same
          exact ⟨2 * p, by simp⟩
        · exact ⟨(heap₁ a).idom, by rw [Heap.assign_of_ne _ _ same]⟩
      refine forest₁.congr (fun a => ?_) (fun i _ => ?_) ?_
      · obtain ⟨d, eq⟩ := others a
        simp [eq]
      · obtain ⟨d, eq⟩ := others (2 * i - 1)
        rw [eq]
      · obtain ⟨d, eq⟩ := others 0
        rw [eq]
    obtain ⟨heap₂, settled, forest₃, effect⟩ := ih _ forest₂ (by
      intro a member
      obtain ⟨v', rfl, high', bound', semi', up'⟩ := members a (by simp [member])
      refine ⟨v', rfl, high', bound', ?_, up'⟩
      by_cases same : 2 * v' = 2 * v
      · rw [same] at semi' ⊢
        simp [same₁.semi, semi']
      · rw [Heap.assign_of_ne _ _ same, same₁.semi, semi'])
    refine ⟨heap₂, ?_, forest₃, ?_⟩
    · rw [settleBucket, forest.bb v bound]
      simp [evaluated, keeps, settled]
    · intro b
      rw [effect b]
      by_cases same : b = 2 * v
      · subst same
        rw [Heap.assign_self, same₁ (2 * v)]
        simp
      · rw [Heap.assign_of_ne _ _ same, same₁ b]
        simp [same]

/-- The graph whose blocks are numbered: names are unique and its incoming edges are `edge`. -/
structure Names {Texpr : Type} (g : Cfg Texpr) (n : Nat) (name : Nat → Nat)
    (edge : Nat → Nat → Prop) : Prop where
  injective : ∀ i < n, ∀ j < n, name i = name j → i = j
  incoming : ∀ j < n, ∀ i, edge i j ↔ i < n ∧ ∃ e ∈ g.bbIncoming (name j), e.cfgFrom = name i
  sources : ∀ j < n, ∀ e ∈ g.bbIncoming (name j), ∃ i < n, name i = e.cfgFrom

omit known enough in
/-- Below a proper ancestor the path goes through one of its children. -/
theorem child_towards {a w : Nat} (bound : w < n) (up : Ancestor P a w) (proper : a < w) :
    ∃ c, 0 < c ∧ c ≤ w ∧ P c = a ∧ Ancestor P c w := by
  induction up with
  | refl => omega
  | @step w below up ih =>
    have smaller := tree.parent_lt w below bound
    have := tree.ancestor_le up (by omega)
    rcases Nat.eq_or_lt_of_le this with rfl | strict
    · exact ⟨w, below, Nat.le_refl _, rfl, .refl⟩
    · obtain ⟨c, positive, low, parent, path⟩ := ih (by omega) strict
      exact ⟨c, positive, by omega, parent, .step below path⟩

/-- The semidominator of the vertex that is processed is its join index. -/
theorem evalIncoming_join {Texpr : Type} {g : Cfg Texpr} (names : Names g n name edge)
    {heap : Heap} {w : Nat} (forest : Forest n P name w heap) (inner : 0 < w) (bound : w < n) :
    ∃ heap' m, evalIncoming fuel info (g.bbIncoming (name w)) heap w = some (heap', m) ∧
      Forest n P name w heap' ∧ Relabeled heap heap' ∧ JoinIndex P edge w m := by
  obtain ⟨heap', m, folded, forest', same, -, least, attained⟩ :=
    evalIncoming_spec tree known enough _ heap w forest (names.sources w bound)
  have least' : ∀ v t, edge v w → Top P w v t → m ≤ t := by
    intro v t along top
    obtain ⟨vBound, e, member, source⟩ := (names.incoming w bound v).mp along
    obtain ⟨v', t', vBound', source', top', low⟩ := least e member
    obtain rfl := names.injective v' vBound' v vBound (source'.trans source)
    obtain rfl := top.unique top'
    exact low
  -- The tree parent is a predecessor below `w`, so the start value is not the minimum.
  have smaller := tree.parent_lt w inner bound
  have low := least' _ _ (tree.parent_edge w inner bound) (.low smaller.le)
  refine ⟨heap', m, folded, forest', same, by omega, least', ?_⟩
  rcases attained with rfl | ⟨e, member, v, vBound, source, top⟩
  · omega
  · exact ⟨v, (names.incoming w bound v).mpr ⟨vBound, e, member, source.symm⟩, top⟩

/-- One round of the main loop. -/
theorem semidominators_step {Texpr : Type} {g : Cfg Texpr} (names : Names g n name edge)
    {heap : Heap} (forest : Forest n P name (k + 1) heap)
    (progress : Progress n P edge (k + 1) heap) (bound : k + 1 < n) (nodes : List Nat)
    (layout : nodes = (List.range n).map (2 * ·)) (next : Nat) (rest : List Nat) :
    ∃ heap', semidominators g fuel info nodes (2 * (k + 1) :: next :: rest) heap =
        semidominators g fuel info nodes (next :: rest) heap' ∧
      Forest n P name k heap' ∧ Progress n P edge k heap' := by
  obtain ⟨heap₁, m, folded, forest₁, same₁, join⟩ :=
    evalIncoming_join tree known enough names forest (Nat.succ_pos k) bound
  have progress₁ := progress.relabeled same₁
  have edgeBound : ∀ i < n, ∀ v, edge v i → v < n :=
    fun i iBound v along => ((names.incoming i iBound v).mp along).1
  have mLow := join.lt
  generalize hp : P (k + 1) = p
  have pLow : p < k + 1 := hp ▸ tree.parent_lt (k + 1) (by omega) bound
  -- The heap after the assignments to `semi`, the bucket and `ancestor`.
  obtain ⟨heap₂, h₂⟩ : ∃ h, h = heap₁.assign (2 * (k + 1)) fun r => { r with semi := m } := ⟨_, rfl⟩
  obtain ⟨heap₃, h₃⟩ : ∃ h, h = heap₂.assign (2 * m) fun r =>
    { r with bucket := 2 * (k + 1) :: r.bucket } := ⟨_, rfl⟩
  obtain ⟨heap₄, h₄⟩ : ∃ h, h = heap₃.assign (2 * (k + 1)) fun r => { r with ancestor := 2 * p } :=
    ⟨_, rfl⟩
  have fields₃ : ∀ a, heap₃ a = { heap₁ a with
      semi := if a = 2 * (k + 1) then m else (heap₁ a).semi
      bucket := if a = 2 * m then 2 * (k + 1) :: (heap₁ a).bucket else (heap₁ a).bucket } := by
    intro a
    by_cases isM : a = 2 * m
    · subst isM
      have notW : 2 * m ≠ 2 * (k + 1) := by omega
      simp [h₃, h₂, Heap.assign_of_ne _ _ notW, notW]
    · by_cases isW : a = 2 * (k + 1)
      · subst isW
        simp [h₃, h₂, Heap.assign_of_ne _ _ isM, isM]
      · simp [h₃, h₂, Heap.assign_of_ne _ _ isM, Heap.assign_of_ne _ _ isW, isM, isW]
  have fields₄ : ∀ a, (heap₄ a).semi = (if a = 2 * (k + 1) then m else (heap₁ a).semi) ∧
      (heap₄ a).bucket =
        (if a = 2 * m then 2 * (k + 1) :: (heap₁ a).bucket else (heap₁ a).bucket) ∧
      (heap₄ a).idom = (heap₁ a).idom := by
    intro a
    by_cases isW : a = 2 * (k + 1)
    · subst isW
      simp [h₄, fields₃]
    · simp [h₄, Heap.assign_of_ne _ _ isW, fields₃]
  have forest₃ : Forest n P name (k + 1) heap₃ := by
    refine forest₁.congr (fun a => ?_) (fun i inner => ?_) ?_
    · simp [fields₃]
    · have odd : 2 * i - 1 ≠ 2 * (k + 1) := by omega
      simp [fields₃, odd]
    · simp [fields₃]
  have forest₄ : Forest n P name k heap₄ := by
    rw [h₄, ← hp]
    exact forest₃.link tree
  have semi₄ : ∀ i < n, k < i → JoinIndex P edge i (heap₄ (2 * i)).semi := by
    intro i small high
    rw [(fields₄ _).1]
    by_cases isW : i = k + 1
    · subst isW
      simpa using join
    · rw [if_neg (by omega)]
      exact progress₁.semiHigh i small (by omega)
  have bucket₄ : ∀ s < n, ∀ a ∈ (heap₄ (2 * s)).bucket,
      ∃ v, a = 2 * v ∧ k < v ∧ v < n ∧ (heap₄ (2 * v)).semi = s := by
    intro s small a member
    have old : a ∈ (heap₁ (2 * s)).bucket →
        ∃ v, a = 2 * v ∧ k < v ∧ v < n ∧ (heap₄ (2 * v)).semi = s := by
      intro member
      obtain ⟨v, rfl, high, vBound, semi⟩ := progress₁.bucket s small a member
      refine ⟨v, rfl, by omega, vBound, ?_⟩
      rw [(fields₄ _).1, if_neg (by omega), semi]
    rw [(fields₄ _).2.1] at member
    by_cases isM : 2 * s = 2 * m
    · rw [if_pos isM] at member
      rcases List.mem_cons.mp member with rfl | member
      · refine ⟨k + 1, rfl, by omega, bound, ?_⟩
        rw [(fields₄ _).1, if_pos rfl]
        omega
      · exact old member
    · rw [if_neg isM] at member
      exact old member
  obtain ⟨heap₅, settled, forest₅, effect⟩ :=
    settleBucket_spec tree known enough p (by omega) (heap₄ (2 * p)).bucket heap₄ forest₄ (by
      intro a member
      obtain ⟨v, rfl, high, vBound, semi⟩ := bucket₄ p (by omega) a member
      refine ⟨v, rfl, high, vBound, semi, ?_⟩
      rw [← semi]
      exact (semi₄ v vBound high).ancestor tree vBound (edgeBound v vBound))
  obtain ⟨heap₆, h₆⟩ : ∃ h, h = heap₅.assign (2 * p) fun r => { r with bucket := [] } := ⟨_, rfl⟩
  have fields₆ : ∀ a, (heap₆ a).semi = (heap₄ a).semi ∧
      (heap₆ a).bucket = (if a = 2 * p then [] else (heap₄ a).bucket) ∧
      (heap₆ a).idom =
        (if a ∈ (heap₄ (2 * p)).bucket then 2 * p else (heap₄ a).idom) := by
    intro a
    by_cases isP : a = 2 * p
    · subst isP
      rw [h₆, Heap.assign_self, effect (2 * p)]
      simp
    · rw [h₆, Heap.assign_of_ne _ _ isP, effect a]
      simp [isP]
  refine ⟨heap₆, ?_, ?_, ?_⟩
  · have semiW : (heap (2 * (k + 1))).semi = k + 1 := progress.semiLow (k + 1) bound (Nat.le_refl _)
    have parentW : (heap₃ (2 * (k + 1))).parent = 2 * p := by
      rw [forest₃.parent (k + 1) bound, hp]
    have nodeM : nodes[m]? = some (2 * m) := by
      simp [layout, List.getElem?_range (show m < n by omega)]
    rw [semidominators, forest.bb (k + 1) bound, semiW]
    · simp only [folded, Option.bind_eq_bind, Option.bind_some, ← h₂, nodeM, ← h₃, parentW, ← h₄,
        settled, ← h₆]
    · simp
  · refine forest₅.congr (fun a => ?_) (fun i _ => ?_) ?_
    · by_cases isP : a = 2 * p
      · subst isP
        simp [h₆]
      · simp [h₆, Heap.assign_of_ne _ _ isP]
    · rw [h₆, Heap.assign_of_ne _ _ (by omega)]
    · by_cases isP : 0 = 2 * p
      · rw [h₆, isP, Heap.assign_self]
      · rw [h₆, Heap.assign_of_ne _ _ isP]
  · constructor
    · intro i small low
      rw [(fields₆ _).1, (fields₄ _).1, if_neg (by omega)]
      exact progress₁.semiLow i small (by omega)
    · intro i small high
      rw [(fields₆ _).1]
      exact semi₄ i small high
    · intro s small a member
      rw [(fields₆ _).2.1] at member
      by_cases isP : 2 * s = 2 * p
      · simp [isP] at member
      · rw [if_neg isP] at member
        obtain ⟨v, rfl, high, vBound, semi⟩ := bucket₄ s small a member
        exact ⟨v, rfl, high, vBound, (fields₆ _).1.trans semi⟩
    · intro v vBound high
      rw [(fields₆ _).1, (fields₆ _).2.2, (fields₆ _).2.1]
      by_cases here : 2 * v ∈ (heap₄ (2 * p)).bucket
      · left
        obtain ⟨v', same, -, -, semi⟩ := bucket₄ p (by omega) _ here
        obtain rfl : v = v' := by omega
        rw [if_pos here, semi]
      · rw [if_neg here, (fields₄ _).2.2]
        by_cases isW : v = k + 1
        · -- The vertex has just entered a bucket other than its parent's.
          subst isW
          have semiW : (heap₄ (2 * (k + 1))).semi = m := by
            rw [(fields₄ _).1, if_pos rfl]
          have waiting : 2 * (k + 1) ∈ (heap₄ (2 * m)).bucket := by
            rw [(fields₄ _).2.1, if_pos rfl]
            exact List.mem_cons_self
          have other : m ≠ p := by
            rintro rfl
            exact here waiting
          obtain ⟨c, positive, low, parent, path⟩ := child_towards tree bound
            (join.ancestor tree bound (edgeBound _ bound)) mLow
          right
          rw [semiW, if_neg (by omega)]
          refine ⟨waiting, c, positive, ?_, parent, path⟩
          have : c ≠ k + 1 := by
            rintro rfl
            exact other (parent.symm.trans hp)
          omega
        · have semiV : (heap₄ (2 * v)).semi = (heap₁ (2 * v)).semi := by
            rw [(fields₄ _).1, if_neg (by omega)]
          rw [semiV]
          rcases progress₁.idom v vBound (by omega) with settledV |
            ⟨waiting, c, positive, low, parent, path⟩
          · exact Or.inl settledV
          · have waiting₄ : 2 * v ∈ (heap₄ (2 * (heap₁ (2 * v)).semi)).bucket := by
              rw [(fields₄ _).2.1]
              split
              · exact List.mem_cons_of_mem _ waiting
              · exact waiting
            have other : (heap₁ (2 * v)).semi ≠ p := by
              intro same
              rw [same] at waiting₄
              exact here waiting₄
            right
            rw [if_neg (by omega)]
            refine ⟨waiting₄, c, positive, ?_, parent, path⟩
            have : c ≠ k + 1 := by
              rintro rfl
              exact other (parent.symm.trans hp)
            omega
    · rw [(fields₆ _).2.2, if_neg, (fields₄ _).2.2]
      · exact progress₁.rootIdom
      · intro member
        obtain ⟨v, zero, high, -, -⟩ := bucket₄ p (by omega) _ member
        omega

/-- The main loop from any point of the order, down to the root. -/
theorem semidominators_spec {Texpr : Type} {g : Cfg Texpr} (names : Names g n name edge)
    (nodes : List Nat) (layout : nodes = (List.range n).map (2 * ·)) (k : Nat) (bound : k < n)
    (heap : Heap) (forest : Forest n P name k heap) (progress : Progress n P edge k heap) :
    ∃ heap', semidominators g fuel info nodes ((List.range (k + 1)).map (2 * ·)).reverse heap =
        some heap' ∧ Forest n P name 0 heap' ∧ Progress n P edge 0 heap' := by
  induction k generalizing heap with
  | zero => exact ⟨heap, rfl, forest, progress⟩
  | succ k ih =>
    have shape : ((List.range (k + 1 + 1)).map (2 * ·)).reverse =
        2 * (k + 1) :: 2 * k :: ((List.range k).map (2 * ·)).reverse := by
      simp [List.range_succ]
    obtain ⟨heap', stepped, forest', progress'⟩ := semidominators_step tree known enough names
      forest progress bound nodes layout (2 * k) ((List.range k).map (2 * ·)).reverse
    have tail : ((List.range (k + 1)).map (2 * ·)).reverse =
        2 * k :: ((List.range k).map (2 * ·)).reverse := by
      simp [List.range_succ]
    rw [shape, stepped, ← tail]
    exact ih (by omega) heap' forest' progress'

end Evaluation

/-- After the main loop every `idom` is already the vertex at the `semi` number. -/
theorem Progress.idom_done (progress : Progress n P edge 0 heap) {v : Nat} (bound : v < n)
    (inner : 0 < v) : (heap (2 * v)).idom = 2 * (heap (2 * v)).semi := by
  rcases progress.idom v bound inner with done | ⟨-, c, positive, low, -⟩
  · exact done
  · omega

/-- So the adjusting pass changes nothing. -/
theorem adjustIdoms_id (nodes : List Nat) (rest : List Nat) (heap : Heap)
    (settled : ∀ w ∈ rest, nodes[(heap w).semi]? = some (heap w).idom) :
    adjustIdoms nodes rest heap = some heap := by
  induction rest with
  | nil => rfl
  | cons w rest ih =>
    rw [adjustIdoms, settled w (by simp)]
    simpa using ih fun x member => settled x (by simp [member])

/-- What the last pass writes for a list of numbers, the root being skipped. -/
theorem writeBack_spec (name d : Nat → Nat) (is : List Nat) (heap : Heap) (tree : DominatorTree)
    (nodup : (is.map name).Nodup)
    (bb : ∀ i ∈ is, (heap (2 * i)).bb = name i)
    (root : (heap 0).idom = 0)
    (idom : ∀ i ∈ is, 0 < i → (heap (2 * i)).idom = 2 * d i ∧ d i < i ∧
      (heap (2 * d i)).bb = name (d i) ∧ name i ≠ name (d i)) :
    (∀ i ∈ is, 0 < i → (writeBack heap (is.map (2 * ·)) tree).bbDominator (name i) = name (d i)) ∧
    (∀ v, v ∉ is.map name →
      (writeBack heap (is.map (2 * ·)) tree).bbDominator v = tree.bbDominator v) ∧
    (∀ v w, w ∈ (writeBack heap (is.map (2 * ·)) tree).bbDominated v ↔
      w ∈ tree.bbDominated v ∨ ∃ i ∈ is, 0 < i ∧ w = name i ∧ v = name (d i)) ∧
    (∀ v, (tree.bbDominated v).Nodup → (∀ i ∈ is, name i ∉ tree.bbDominated v) →
      ((writeBack heap (is.map (2 * ·)) tree).bbDominated v).Nodup) := by
  induction is generalizing tree with
  | nil =>
    refine ⟨by simp, fun v _ => rfl, fun v w => by simp [writeBack], fun v nodup _ => nodup⟩
  | cons i is ih =>
    obtain ⟨apart, nodup⟩ := List.nodup_cons.mp nodup
    have bbI := bb i (by simp)
    have rest := fun tree => ih tree nodup (fun j member => bb j (by simp [member]))
      (fun j member => idom j (by simp [member]))
    rcases Nat.eq_zero_or_pos i with rfl | inner
    · have skip : writeBack heap ((0 :: is).map (2 * ·)) tree =
          writeBack heap (is.map (2 * ·)) tree := by
        simp [writeBack, root]
      rw [skip]
      obtain ⟨set, frame, member, unique⟩ := rest tree
      refine ⟨?_, ?_, ?_, ?_⟩
      · intro j inside positive
        rcases List.mem_cons.mp inside with rfl | inside
        · omega
        · exact set j inside positive
      · intro v outside
        exact frame v fun inside => outside (by simp [inside])
      · intro v w
        rw [member]
        simp
      · exact fun v old fresh => unique v old fun j inside => fresh j (by simp [inside])
    · obtain ⟨idomI, below, bbD, different⟩ := idom i (by simp) inner
      have write : writeBack heap ((i :: is).map (2 * ·)) tree =
          writeBack heap (is.map (2 * ·))
            { bbDominator := Function.update tree.bbDominator (name i) (name (d i))
              bbDominated := Function.update tree.bbDominated (name (d i))
                (name i :: tree.bbDominated (name (d i))) } := by
        have moved : 2 * d i ≠ 2 * i := by omega
        simp [writeBack, idomI, bbI, bbD, different, moved]
      rw [write]
      obtain ⟨set, frame, member, unique⟩ := rest
        { bbDominator := Function.update tree.bbDominator (name i) (name (d i))
          bbDominated := Function.update tree.bbDominated (name (d i))
            (name i :: tree.bbDominated (name (d i))) }
      dsimp only at frame member unique
      refine ⟨?_, ?_, ?_, ?_⟩
      · intro j inside positive
        rcases List.mem_cons.mp inside with rfl | inside
        · rw [frame _ apart]
          simp
        · exact set j inside positive
      · intro v outside
        rw [frame v fun inside => outside (by simp [inside])]
        exact Function.update_of_ne (fun same => outside (by simp [same])) _ _
      · intro v w
        rw [member]
        by_cases same : v = name (d i)
        · subst same
          simp only [Function.update_self, List.mem_cons]
          constructor
          · rintro ((rfl | old) | ⟨j, inside, positive, rfl, owner⟩)
            · exact Or.inr ⟨i, Or.inl rfl, inner, rfl, rfl⟩
            · exact Or.inl old
            · exact Or.inr ⟨j, Or.inr inside, positive, rfl, owner⟩
          · rintro (old | ⟨j, rfl | inside, positive, rfl, owner⟩)
            · exact Or.inl (Or.inr old)
            · exact Or.inl (Or.inl rfl)
            · exact Or.inr ⟨j, inside, positive, rfl, owner⟩
        · simp only [Function.update_of_ne same, List.mem_cons]
          constructor
          · rintro (old | ⟨j, inside, positive, rfl, owner⟩)
            · exact Or.inl old
            · exact Or.inr ⟨j, Or.inr inside, positive, rfl, owner⟩
          · rintro (old | ⟨j, rfl | inside, positive, rfl, owner⟩)
            · exact Or.inl old
            · exact absurd owner same
            · exact Or.inr ⟨j, inside, positive, rfl, owner⟩
      · intro v old fresh
        by_cases same : v = name (d i)
        · subst same
          apply unique
          · rw [Function.update_self]
            exact List.nodup_cons.mpr ⟨fresh i (by simp), old⟩
          · intro j inside
            rw [Function.update_self, List.mem_cons]
            rintro (same | old)
            · exact apart (same ▸ List.mem_map_of_mem inside)
            · exact fresh j (by simp [inside]) old
        · apply unique
          · rwa [Function.update_of_ne same]
          · intro j inside
            rw [Function.update_of_ne same]
            exact fresh j (by simp [inside])

end Haxe.Source.Optimization.Dominators
