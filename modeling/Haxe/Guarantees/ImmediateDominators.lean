import Haxe.Source.Optimization.DominatorPasses

/-!
# Immediate dominators

What `infer_immediate_dominators` computes on every graph, and when that is the
dominator tree. Because `label` starts at a record whose `semi` never changes, the
code gives each block the nearest common ancestor of its predecessors in the
depth-first spanning tree, whether or not some path bypasses that block.
-/

namespace Haxe.Guarantees.ImmediateDominators
open Haxe.Theory Haxe.Source.Optimization Haxe.Source.Optimization.Dominators

variable {Texpr : Type} (g : Cfg Texpr)

/-- The blocks in the order of the depth-first search, each with its tree parent. -/
def spanningOrder : List (Nat × Nat) :=
  (visit g.succ (g.gNodes.length + 1) [] g.gRoot g.gRoot).getD []

def DiscoveredFrom (bbParent bb : Nat) : Prop :=
  (bb, bbParent) ∈ spanningOrder g ∧ bb ≠ g.gRoot

def TreeAncestor : Nat → Nat → Prop := Relation.ReflTransGen (DiscoveredFrom g)

/-- The block is the root, or both blocks lie below the same child of the root. -/
def SameBranch (bb bb' : Nat) : Prop :=
  bb = g.gRoot ∨ ∃ c, c ≠ g.gRoot ∧ TreeAncestor g c bb ∧ TreeAncestor g c bb'

def CommonAncestor (bb d : Nat) : Prop :=
  ∀ edge ∈ g.bbIncoming bb, SameBranch g edge.cfgFrom bb → TreeAncestor g d edge.cfgFrom

/-- The nearest common ancestor of the sources of the incoming edges. -/
structure JoinPoint (bb d : Nat) : Prop where
  common : CommonAncestor g bb d
  nearest : ∀ d', CommonAncestor g bb d' → TreeAncestor g d' d

/-- The dominator fields describe the dominator tree of the graph. -/
structure IsDominatorTree (tree : DominatorTree) : Prop where
  dominator : ∀ bb ∈ g.gNodes, bb ≠ g.gRoot →
    ImmediateDominator g.Edge g.gRoot (tree.bbDominator bb) bb
  dominated : ∀ bb ∈ g.gNodes, (tree.bbDominated bb).Nodup ∧ ∀ bb',
    bb' ∈ tree.bbDominated bb ↔ bb' ∈ g.gNodes ∧ bb' ≠ g.gRoot ∧ tree.bbDominator bb' = bb

/-- Every block other than the root is dominated by its join point. -/
def JoinsDominate : Prop :=
  ∀ bb ∈ g.gNodes, bb ≠ g.gRoot → ∀ d, JoinPoint g bb d → Dominates g.Edge g.gRoot d bb

section Tree

variable {n : Nat} {P : Nat → Nat} {edge : Nat → Nat → Prop} (tree : PreorderTree n P edge)
include tree

/-- The join index is a common ancestor of the predecessors in the same branch. -/
theorem join_common {i s v : Nat} (bound : i < n) (sources : ∀ v, edge v i → v < n)
    (join : JoinIndex P edge i s) (along : edge v i)
    (branch : v = 0 ∨ ∃ c, 0 < c ∧ Ancestor P c v ∧ Ancestor P c i) : Ancestor P s v := by
  have vBound := sources v along
  rcases branch with rfl | ⟨c, inner, upV, upI⟩
  · have := join.least 0 0 along (.low (Nat.zero_le _))
    obtain rfl : s = 0 := by omega
    exact .refl
  · obtain ⟨t, top⟩ := tree.top_exists i vBound
    have cLow := tree.ancestor_le upI bound
    have tLow : t ≤ i := by
      rcases top.stops with low | ⟨child, large⟩
      · exact low
      · have up := tree.ancestor_top vBound top upV cLow inner
        cases up with
        | refl => omega
        | step _ up =>
          rw [child] at up
          have := tree.ancestor_le up (by omega)
          omega
    have upT : Ancestor P t i := by
      rcases Nat.lt_or_ge i v with above | below
      · exact tree.ancestor_between vBound top.ancestor tLow above.le
      · obtain rfl := top.unique (.low below)
        rcases Nat.eq_or_lt_of_le below with rfl | strict
        · exact .refl
        · exact tree.ancestor_of_edge bound strict along
    exact (tree.ancestor_chain bound (join.ancestor tree bound sources) upT
      (join.least v t along top)).trans top.ancestor

/-- Every common ancestor of these predecessors is an ancestor of the join index. -/
theorem join_nearest {i s d : Nat} (bound : i < n) (inner : 0 < i)
    (sources : ∀ v, edge v i → v < n) (join : JoinIndex P edge i s)
    (common : ∀ v, edge v i → (v = 0 ∨ ∃ c, 0 < c ∧ Ancestor P c v ∧ Ancestor P c i) →
      Ancestor P d v) : Ancestor P d s := by
  obtain ⟨v, along, top⟩ := join.attained
  have sBound := join.lt
  rcases Nat.eq_zero_or_pos s with rfl | positive
  · have : v = 0 := by
      by_contra nonzero
      have := top.pos (by omega)
      omega
    subst this
    exact common 0 along (Or.inl rfl)
  · have up := common v along
      (Or.inr ⟨s, positive, top.ancestor, join.ancestor tree bound sources⟩)
    have smaller := tree.parent_lt i inner bound
    have upParent := common (P i) (tree.parent_edge i inner bound) (by
      rcases Nat.eq_zero_or_pos (P i) with zero | positive
      · exact Or.inl zero
      · exact Or.inr ⟨P i, positive, .refl, .step inner .refl⟩)
    have := tree.ancestor_le upParent (by omega)
    rcases Nat.eq_zero_or_pos d with rfl | dPositive
    · exact tree.root_ancestor (by omega)
    · exact tree.ancestor_top (sources v along) top up (by omega) dPositive

end Tree

/-- The numbering of a connected graph. -/
structure Spanning (order : List (Nat × Nat)) : Prop where
  found : visit g.succ (g.gNodes.length + 1) [] g.gRoot g.gRoot = some order
  nodup : (order.map Prod.fst).Nodup
  first : ∃ below, order = (g.gRoot, g.gRoot) :: below
  tree : PreorderTree order.length (parentNumber order)
    (fun i j => ∃ v w, number order v = i ∧ number order w = j ∧ v ∈ order.map Prod.fst ∧
      w ∈ g.succ v)
  members : ∀ bb, bb ∈ order.map Prod.fst ↔ bb ∈ g.gNodes

theorem spanning_exists (connected : g.Connected) : ∃ order, Spanning g order := by
  have closed : ∀ v ∈ g.gNodes, ∀ w ∈ g.succ v, w ∈ g.gNodes := by
    intro v _ w along
    obtain ⟨edge, member, rfl⟩ := List.mem_map.mp along
    exact g.target_mem v edge member
  obtain ⟨order, found⟩ := visit_total g.succ g.gNodes closed (g.gNodes.length + 1) [] g.gRoot
    g.gRoot (by simp) g.root_mem (by simp) ((List.length_filter_le _ _).trans (by omega))
  obtain ⟨nodup, first, tree⟩ := visit_preorder g.succ _ order g.gRoot found
  refine ⟨order, found, nodup, first, tree, fun bb => ⟨fun member => ?_, fun member => ?_⟩⟩
  · obtain ⟨below, rfl, segment, -⟩ := visit_segment g.succ _ [] order g.gRoot g.gRoot (by simp)
      (by simp) found
    rw [List.nil_append, List.map_cons, List.mem_cons] at member
    rcases member with rfl | member
    · exact g.root_mem
    · obtain ⟨⟨bb', q⟩, inside, rfl⟩ := List.mem_map.mp member
      obtain ⟨A, C, rfl⟩ := List.append_of_mem inside
      obtain ⟨edge, out, rfl⟩ := List.mem_map.mp (segment.parents A bb' q C rfl).2
      exact g.target_mem q edge out
  · exact visit_covers g.succ _ order g.gRoot found (connected.nodes bb member)

namespace Spanning

variable {g} {order : List (Nat × Nat)} (spanning : Spanning g order)
include spanning

theorem order_eq : spanningOrder g = order := by
  simp [spanningOrder, spanning.found]

theorem number_root : number order g.gRoot = 0 := by
  obtain ⟨below, rfl⟩ := spanning.first
  simp [number]

theorem length_pos : 0 < order.length := by
  obtain ⟨below, rfl⟩ := spanning.first
  simp

theorem number_eq_zero {bb : Nat} (member : bb ∈ g.gNodes) :
    number order bb = 0 ↔ bb = g.gRoot := by
  constructor
  · intro zero
    exact number_injective ((spanning.members bb).mpr member)
      (zero.trans spanning.number_root.symm)
  · rintro rfl
    exact spanning.number_root

/-- An entry is a block with the block of its parent number. -/
theorem entry_iff {bb bbParent : Nat} (member : bb ∈ g.gNodes) :
    (bb, bbParent) ∈ order ↔
      bbParent ∈ g.gNodes ∧ number order bbParent = parentNumber order (number order bb) := by
  have inOrder := (spanning.members bb).mpr member
  obtain ⟨bound, here⟩ := exists_getElem_number inOrder
  have parentMember : ∀ e ∈ order, e.2 ∈ order.map Prod.fst := by
    intro e inside
    obtain ⟨below, rfl, segment, -⟩ := visit_segment g.succ _ [] order g.gRoot g.gRoot (by simp)
      (by simp) spanning.found
    rcases List.mem_cons.mp inside with rfl | inside
    · simp
    · obtain ⟨A, C, rfl⟩ := List.append_of_mem inside
      rcases List.mem_cons.mp (segment.parents A e.1 e.2 C rfl).1 with same | earlier
      · simp [same]
      · simp only [List.nil_append, List.map_cons, List.map_append, List.mem_cons, List.mem_append]
        exact Or.inr (Or.inl earlier)
  have parentEq : parentNumber order (number order bb) = number order order[number order bb].2 := by
    simp [parentNumber, List.getElem?_eq_getElem bound]
  constructor
  · intro entry
    have parentIn := parentMember _ entry
    refine ⟨(spanning.members _).mp parentIn, ?_⟩
    obtain ⟨i, iBound, at_i⟩ := List.getElem_of_mem entry
    have same : number order bb = i := by
      have := number_getElem spanning.nodup iBound
      rwa [at_i] at this
    subst same
    rw [parentEq, at_i]
  · rintro ⟨parentIn, same⟩
    rw [parentEq] at same
    have := number_injective ((spanning.members _).mpr parentIn) same
    rw [this]
    nth_rewrite 1 [← here]
    exact List.getElem_mem bound

/-- Tree ancestry of blocks is ancestry of their numbers. -/
theorem treeAncestor_iff {a b : Nat} (aMember : a ∈ g.gNodes) (bMember : b ∈ g.gNodes) :
    TreeAncestor g a b ↔ Ancestor (parentNumber order) (number order a) (number order b) := by
  constructor
  · intro path
    induction path with
    | refl => exact .refl
    | @tail b c path last ih =>
      rw [DiscoveredFrom, spanning.order_eq] at last
      obtain ⟨parentIn, same⟩ := (spanning.entry_iff bMember).mp last.1
      refine .step ?_ (same ▸ ih parentIn)
      exact Nat.pos_of_ne_zero fun zero => last.2 ((spanning.number_eq_zero bMember).mp zero)
  · intro path
    generalize hi : number order b = i at path
    induction path generalizing b with
    | refl =>
      obtain rfl := number_injective ((spanning.members b).mpr bMember) hi
      exact .refl
    | @step i below up ih =>
      subst hi
      have bound := number_lt ((spanning.members b).mpr bMember)
      have smaller := spanning.tree.parent_lt _ below bound
      -- The parent number is the number of some block.
      have named : ∃ q ∈ g.gNodes, number order q = parentNumber order (number order b) := by
        have qBound : parentNumber order (number order b) < order.length := by omega
        refine ⟨order[parentNumber order (number order b)].1, ?_,
          number_getElem spanning.nodup qBound⟩
        exact (spanning.members _).mp (List.mem_map_of_mem (List.getElem_mem qBound))
      obtain ⟨q, qMember, same⟩ := named
      refine .tail (ih qMember same) ?_
      rw [DiscoveredFrom, spanning.order_eq]
      refine ⟨(spanning.entry_iff bMember).mpr ⟨qMember, same⟩, ?_⟩
      rintro rfl
      rw [spanning.number_root] at below
      omega

/-- The block with a number. -/
theorem block_of_number {i : Nat} (bound : i < order.length) :
    ∃ bb ∈ g.gNodes, number order bb = i :=
  ⟨order[i].1, (spanning.members _).mp (List.mem_map_of_mem (List.getElem_mem bound)),
    number_getElem spanning.nodup bound⟩

/-- The numbered edges are the incoming edges of the graph. -/
theorem edge_iff (connected : g.Connected) {bb bb' : Nat} (member : bb' ∈ g.gNodes) :
    (∃ v w, number order v = number order bb ∧ number order w = number order bb' ∧
      v ∈ order.map Prod.fst ∧ w ∈ g.succ v) ∧ bb ∈ g.gNodes ↔ g.Edge bb bb' := by
  constructor
  · rintro ⟨⟨v, w, sameV, sameW, vIn, along⟩, -⟩
    obtain rfl := number_injective vIn sameV
    have wIn : w ∈ order.map Prod.fst := by
      obtain ⟨edge, out, rfl⟩ := List.mem_map.mp along
      exact (spanning.members _).mpr (g.target_mem _ edge out)
    obtain rfl := number_injective wIn sameW
    exact along
  · intro along
    have source := connected.sources bb bb' along
    exact ⟨⟨bb, bb', rfl, rfl, (spanning.members bb).mpr source, along⟩, source⟩

theorem sameBranch_iff {bb bb' : Nat} (bbMember : bb ∈ g.gNodes) (member' : bb' ∈ g.gNodes) :
    SameBranch g bb bb' ↔ number order bb = 0 ∨ ∃ c, 0 < c ∧
      Ancestor (parentNumber order) c (number order bb) ∧
      Ancestor (parentNumber order) c (number order bb') := by
  constructor
  · rintro (root | ⟨c, proper, up, up'⟩)
    · exact Or.inl ((spanning.number_eq_zero bbMember).mpr root)
    · have cMember : c ∈ g.gNodes := by
        rcases Relation.ReflTransGen.cases_head up with rfl | ⟨d, first, -⟩
        · exact bbMember
        · have dMember : d ∈ g.gNodes := by
            rw [DiscoveredFrom, spanning.order_eq] at first
            exact (spanning.members d).mp (List.mem_map_of_mem first.1)
          rw [DiscoveredFrom, spanning.order_eq] at first
          exact ((spanning.entry_iff dMember).mp first.1).1
      refine Or.inr ⟨number order c, ?_, (spanning.treeAncestor_iff cMember bbMember).mp up,
        (spanning.treeAncestor_iff cMember member').mp up'⟩
      exact Nat.pos_of_ne_zero fun zero => proper ((spanning.number_eq_zero cMember).mp zero)
  · rintro (zero | ⟨c, positive, up, up'⟩)
    · exact Or.inl ((spanning.number_eq_zero bbMember).mp zero)
    · have low := spanning.tree.ancestor_le up (number_lt ((spanning.members bb).mpr bbMember))
      have bound := number_lt ((spanning.members bb).mpr bbMember)
      obtain ⟨c, cMember, rfl⟩ := spanning.block_of_number (i := c) (by omega)
      refine Or.inr ⟨c, ?_, (spanning.treeAncestor_iff cMember bbMember).mpr up,
        (spanning.treeAncestor_iff cMember member').mpr up'⟩
      rintro rfl
      rw [spanning.number_root] at positive
      omega

theorem discovered_edge {bb bbParent : Nat} (found : DiscoveredFrom g bbParent bb) :
    bbParent ∈ g.gNodes ∧ bb ∈ g.gNodes ∧ g.Edge bbParent bb := by
  rw [DiscoveredFrom, spanning.order_eq] at found
  have member := (spanning.members bb).mp (List.mem_map_of_mem found.1)
  refine ⟨((spanning.entry_iff member).mp found.1).1, member, ?_⟩
  obtain ⟨below, rfl, segment, -⟩ := visit_segment g.succ _ [] order g.gRoot g.gRoot (by simp)
    (by simp) spanning.found
  rcases List.mem_cons.mp found.1 with root | inside
  · exact absurd (congrArg Prod.fst root) found.2
  · obtain ⟨A, C, rfl⟩ := List.append_of_mem inside
    exact (segment.parents A bb bbParent C rfl).2

theorem treeAncestor_mem {a b : Nat} (path : TreeAncestor g a b) (member : b ∈ g.gNodes) :
    a ∈ g.gNodes := by
  rcases Relation.ReflTransGen.cases_head path with rfl | ⟨c, first, -⟩
  · exact member
  · exact (spanning.discovered_edge first).1

theorem treeAncestor_antisymm {a b : Nat} (forth : TreeAncestor g a b) (back : TreeAncestor g b a)
    (member : b ∈ g.gNodes) : a = b := by
  have aMember := spanning.treeAncestor_mem forth member
  have low := spanning.tree.ancestor_le ((spanning.treeAncestor_iff aMember member).mp forth)
    (number_lt ((spanning.members b).mpr member))
  have high := spanning.tree.ancestor_le ((spanning.treeAncestor_iff member aMember).mp back)
    (number_lt ((spanning.members a).mpr aMember))
  exact number_injective ((spanning.members a).mpr aMember) (Nat.le_antisymm low high)

theorem root_treeAncestor {bb : Nat} (member : bb ∈ g.gNodes) : TreeAncestor g g.gRoot bb := by
  rw [spanning.treeAncestor_iff g.root_mem member, spanning.number_root]
  exact spanning.tree.root_ancestor (number_lt ((spanning.members bb).mpr member))

/-- Walking down the tree adds proper descendants of the start only. -/
theorem walk_down {q : List Nat} {a b : Nat} (walk : Walk g.Edge g.gRoot q a)
    (path : TreeAncestor g a b) : ∃ q', Walk g.Edge g.gRoot q' b ∧
      ∀ x ∈ q', x ∈ q ∨ (TreeAncestor g a x ∧ TreeAncestor g x b) := by
  induction path with
  | refl => exact ⟨q, walk, fun _ member => Or.inl member⟩
  | @tail b c path last ih =>
    obtain ⟨q', walk', gained⟩ := ih
    refine ⟨c :: q', walk'.step (spanning.discovered_edge last).2.2, fun x member => ?_⟩
    rcases List.mem_cons.mp member with rfl | member
    · exact Or.inr ⟨path.tail last, .refl⟩
    · rcases gained x member with old | ⟨above, below⟩
      · exact Or.inl old
      · exact Or.inr ⟨above, below.tail last⟩

/-- A block that dominates another is its ancestor in the spanning tree. -/
theorem treeAncestor_of_dominates {e bb : Nat} (member : bb ∈ g.gNodes)
    (dominates : Dominates g.Edge g.gRoot e bb) : TreeAncestor g e bb := by
  obtain ⟨q, walk, gained⟩ := spanning.walk_down .start (spanning.root_treeAncestor member)
  rcases gained e (dominates q walk) with root | ⟨-, below⟩
  · obtain rfl := List.mem_singleton.mp root
    exact spanning.root_treeAncestor member
  · exact below

/-- The block whose number is the join index is the join point. -/
theorem joinPoint_of_index (connected : g.Connected) {bb d : Nat} (member : bb ∈ g.gNodes)
    (proper : bb ≠ g.gRoot) (dMember : d ∈ g.gNodes)
    (join : JoinIndex (parentNumber order) (fun i j => ∃ v w, number order v = i ∧
      number order w = j ∧ v ∈ order.map Prod.fst ∧ w ∈ g.succ v)
      (number order bb) (number order d)) : JoinPoint g bb d := by
  have bound := number_lt ((spanning.members bb).mpr member)
  have inner : 0 < number order bb :=
    Nat.pos_of_ne_zero fun zero => proper ((spanning.number_eq_zero member).mp zero)
  have sources : ∀ i, (∃ v w, number order v = i ∧ number order w = number order bb ∧
      v ∈ order.map Prod.fst ∧ w ∈ g.succ v) → i < order.length := by
    rintro i ⟨v, w, rfl, -, vIn, -⟩
    exact number_lt vIn
  constructor
  · intro edge incoming branch
    have along : g.Edge edge.cfgFrom bb := (g.edge_iff_incoming).mpr ⟨edge, incoming, rfl⟩
    obtain ⟨numbered, source⟩ := (spanning.edge_iff connected member).mpr along
    rw [spanning.treeAncestor_iff dMember source]
    exact join_common spanning.tree bound sources join numbered
      ((spanning.sameBranch_iff source member).mp branch)
  · intro d' common
    -- The tree parent is a predecessor in the same branch, so `d'` is a block.
    have parentEdge := spanning.tree.parent_edge _ inner bound
    have branchOf : ∀ v, v ∈ g.gNodes → g.Edge v bb → SameBranch g v bb → TreeAncestor g d' v := by
      intro v _ along branch
      obtain ⟨edge, incoming, rfl⟩ := (g.edge_iff_incoming).mp along
      exact common edge incoming branch
    have smaller := spanning.tree.parent_lt _ inner bound
    obtain ⟨p, pMember, pNumber⟩ :=
      spanning.block_of_number (i := parentNumber order (number order bb)) (by omega)
    have d'Member : d' ∈ g.gNodes := by
      rw [← pNumber] at parentEdge
      have along := (spanning.edge_iff connected member).mp ⟨parentEdge, pMember⟩
      refine spanning.treeAncestor_mem (branchOf p pMember along ?_) pMember
      rw [spanning.sameBranch_iff pMember member, pNumber]
      rcases Nat.eq_zero_or_pos (parentNumber order (number order bb)) with zero | positive
      · exact Or.inl zero
      · exact Or.inr ⟨_, positive, .refl, .step inner .refl⟩
    rw [spanning.treeAncestor_iff d'Member dMember]
    refine join_nearest spanning.tree bound inner sources join fun i along branch => ?_
    obtain ⟨v, vMember, rfl⟩ := spanning.block_of_number (sources i along)
    rw [← spanning.treeAncestor_iff d'Member vMember]
    exact branchOf v vMember ((spanning.edge_iff connected member).mp ⟨along, vMember⟩)
      ((spanning.sameBranch_iff vMember member).mpr branch)

theorem joinPoint_unique {bb d d' : Nat} (dMember : d ∈ g.gNodes) (first : JoinPoint g bb d)
    (second : JoinPoint g bb d') : d' = d :=
  spanning.treeAncestor_antisymm (first.nearest d' second.common)
    (second.nearest d first.common) dMember

/-- A join point that dominates its block dominates it immediately. -/
theorem immediate_of_dominates (connected : g.Connected) {bb d : Nat} (join : JoinPoint g bb d)
    (dominates : Dominates g.Edge g.gRoot d bb) (different : d ≠ bb)
    (below : ∃ v, g.Edge v bb ∧ TreeAncestor g d v) :
    ImmediateDominator g.Edge g.gRoot d bb := by
  refine ⟨⟨dominates, different⟩, fun e strict q walk => ?_⟩
  have common : CommonAncestor g bb e := by
    intro edge incoming _
    have along : g.Edge edge.cfgFrom bb := (g.edge_iff_incoming).mpr ⟨edge, incoming, rfl⟩
    exact spanning.treeAncestor_of_dominates (connected.sources _ _ along)
      (strict.predecessor along)
  obtain ⟨v, along, path⟩ := below
  obtain ⟨q', walk', gained⟩ := spanning.walk_down walk path
  have visited := strict.1 _ (walk'.step along)
  rcases List.mem_cons.mp visited with same | visited
  · exact absurd same strict.2
  · rcases gained e visited with old | ⟨above, -⟩
    · exact old
    · have dMember := spanning.treeAncestor_mem path (connected.sources v bb along)
      obtain rfl := spanning.treeAncestor_antisymm (join.nearest e common) above dMember
      exact walk.head_mem

/-- What the code computes: the block whose number is the join index. -/
theorem computes (connected : g.Connected) (tree : DominatorTree) :
    ∃ tree', inferImmediateDominators g tree = some tree' ∧
      (∀ bb ∈ g.gNodes, bb ≠ g.gRoot → tree'.bbDominator bb ∈ g.gNodes ∧
        JoinIndex (parentNumber order) (fun i j => ∃ v w, number order v = i ∧
          number order w = j ∧ v ∈ order.map Prod.fst ∧ w ∈ g.succ v)
          (number order bb) (number order (tree'.bbDominator bb))) ∧
      ∀ bb ∈ g.gNodes, (tree'.bbDominated bb).Nodup ∧ ∀ bb', bb' ∈ tree'.bbDominated bb ↔
        bb' ∈ g.gNodes ∧ bb' ≠ g.gRoot ∧ tree'.bbDominator bb' = bb := by
  obtain ⟨st, numbered, shape⟩ := numberBlocks_simulates g (g.gNodes.length + 1) [] order
    { heap := fun _ => ⟨0, 0, 0, 0, 0, 0, []⟩, allocated := 0, info := fun _ => none, nodes := [],
      bbDominated := tree.bbDominated } g.gRoot g.gRoot
    ⟨by simp, by simp, by simp, by simp, by simp, by simp, by simp⟩ (by simp) (by simp)
    (Or.inr ⟨rfl, rfl⟩) spanning.found
  obtain ⟨name, nameEq⟩ : ∃ name : Nat → Nat, ∀ i (bound : i < order.length),
      name i = order[i].1 :=
    ⟨fun i => (order[i]?.map Prod.fst).getD 0, fun i bound => by simp [bound]⟩
  have nameOf : ∀ bb ∈ g.gNodes, name (number order bb) = bb := by
    intro bb member
    have inOrder := (spanning.members bb).mpr member
    rw [nameEq _ (number_lt inOrder)]
    exact (exists_getElem_number inOrder).2
  have numberOf : ∀ i < order.length, number order (name i) = i := by
    intro i bound
    rw [nameEq i bound]
    exact number_getElem spanning.nodup bound
  have nameMem : ∀ i < order.length, name i ∈ g.gNodes := by
    intro i bound
    rw [nameEq i bound]
    exact (spanning.members _).mp (List.mem_map_of_mem (List.getElem_mem bound))
  have known : ∀ i < order.length, st.info (name i) = some (2 * i) := by
    intro i bound
    rw [shape.info, if_pos ((spanning.members _).mpr (nameMem i bound)), numberOf i bound]
  have positive := spanning.length_pos
  have enough : order.length ≤ st.allocated + 1 := by
    rw [shape.allocated]
    omega
  have rootParent : parentNumber order 0 = 0 := by
    obtain ⟨below, rfl⟩ := spanning.first
    simp [parentNumber, number]
  -- All records are fresh, so nothing is linked and nothing waits in a bucket.
  have last : order.length - 1 + 1 = order.length := by omega
  have rootRecord : st.heap 0 = freshInfo order 0 0 := by
    simpa [rootParent] using shape.copies 0 positive
  have forest : Forest order.length (parentNumber order) name (order.length - 1) st.heap := by
    constructor
    · intro i bound
      simp [shape.copies i bound, freshInfo, bound, nameEq i bound]
    · intro i bound
      simp [shape.copies i bound, freshInfo]
    · simp [rootRecord, freshInfo]
    · simp [rootRecord, freshInfo]
    · intro i bound inner
      simp [shape.originals i bound inner, freshInfo]
    · intro i bound inner
      simp [shape.originals i bound inner, freshInfo]
    · intro i bound inner
      rw [if_neg (by omega), shape.copies i bound]
      simp [freshInfo]
    · intro i bound inner
      refine ⟨i, by simp [shape.copies i bound, freshInfo], .refl, fun t top => ?_⟩
      exact spanning.tree.ancestor_le top.ancestor bound
  have progress : Progress order.length (parentNumber order) (fun i j => ∃ v w,
      number order v = i ∧ number order w = j ∧ v ∈ order.map Prod.fst ∧ w ∈ g.succ v)
      (order.length - 1) st.heap := by
    constructor
    · intro i bound _
      simp [shape.copies i bound, freshInfo]
    · intro i bound high
      omega
    · intro s bound a member
      simp [shape.copies s bound, freshInfo] at member
    · intro v bound high
      omega
    · simp [rootRecord, freshInfo]
  have names : Names g order.length name (fun i j => ∃ v w,
      number order v = i ∧ number order w = j ∧ v ∈ order.map Prod.fst ∧ w ∈ g.succ v) := by
    constructor
    · intro i iBound j jBound same
      rw [← numberOf i iBound, ← numberOf j jBound, same]
    · intro j jBound i
      constructor
      · rintro ⟨v, w, rfl, sameW, vIn, along⟩
        have wMember : w ∈ g.gNodes := by
          obtain ⟨edge, out, rfl⟩ := List.mem_map.mp along
          exact g.target_mem v edge out
        have := nameOf w wMember
        rw [sameW] at this
        subst this
        obtain ⟨e, member, source⟩ := (g.edge_iff_incoming).mp along
        refine ⟨number_lt vIn, e, member, ?_⟩
        rw [source, nameOf v ((spanning.members v).mp vIn)]
      · rintro ⟨iBound, e, member, source⟩
        refine ⟨name i, name j, numberOf i iBound, numberOf j jBound,
          (spanning.members _).mpr (nameMem i iBound), ?_⟩
        exact (g.edge_iff_incoming).mpr ⟨e, member, source⟩
    · intro j _ e member
      have along : g.Edge e.cfgFrom (name j) := (g.edge_iff_incoming).mpr ⟨e, member, rfl⟩
      have source := connected.sources _ _ along
      exact ⟨number order e.cfgFrom, number_lt ((spanning.members _).mpr source),
        nameOf _ source⟩
  obtain ⟨heap, swept, forest', progress'⟩ := semidominators_spec spanning.tree known enough names
    st.nodes shape.nodes (order.length - 1) (by omega) st.heap forest progress
  rw [last, ← shape.nodes] at swept
  have semiBound : ∀ i < order.length, 0 < i → (heap (2 * i)).semi < i :=
    fun i bound inner => (progress'.semiHigh i bound inner).lt
  have adjusted : adjustIdoms st.nodes st.nodes.tail heap = some heap := by
    apply adjustIdoms_id
    intro w member
    rw [shape.nodes] at member ⊢
    obtain ⟨i, iBound, inner, rfl⟩ : ∃ i < order.length, 0 < i ∧ w = 2 * i := by
      obtain ⟨j, jBound, at_j⟩ := List.getElem_of_mem member
      rw [List.length_tail, List.length_map, List.length_range] at jBound
      exact ⟨j + 1, by omega, by omega, by simpa using at_j.symm⟩
    have := semiBound i iBound inner
    rw [progress'.idom_done iBound inner]
    simp [List.getElem?_range (show (heap (2 * i)).semi < order.length by omega)]
  have rangeNames : (List.range order.length).map name = order.map Prod.fst := by
    apply List.ext_getElem
    · simp
    · intro i _ _
      simp only [List.getElem_map, List.getElem_range]
      exact nameEq i (by simp_all)
  obtain ⟨written, -, children, unique⟩ := writeBack_spec name (fun i => (heap (2 * i)).semi)
    (List.range order.length) heap { tree with bbDominated := st.bbDominated }
    (by rw [rangeNames]; exact spanning.nodup)
    (fun i member => forest'.bb i (List.mem_range.mp member)) progress'.rootIdom (by
      intro i member inner
      have bound := List.mem_range.mp member
      have below := semiBound i bound inner
      refine ⟨progress'.idom_done bound inner, below, forest'.bb _ (by omega), fun same => ?_⟩
      have := names.injective i bound _ (by omega) same
      omega)
  rw [← shape.nodes] at written children unique
  have positiveNumber : ∀ bb ∈ g.gNodes, bb ≠ g.gRoot → 0 < number order bb := by
    intro bb member proper
    exact Nat.pos_of_ne_zero fun zero => proper ((spanning.number_eq_zero member).mp zero)
  have dominator : ∀ bb ∈ g.gNodes, bb ≠ g.gRoot →
      (writeBack heap st.nodes { tree with bbDominated := st.bbDominated }).bbDominator bb =
        name (heap (2 * number order bb)).semi := by
    intro bb member proper
    have bound := number_lt ((spanning.members bb).mpr member)
    have := written (number order bb) (List.mem_range.mpr bound) (positiveNumber bb member proper)
    rwa [nameOf bb member] at this
  refine ⟨writeBack heap st.nodes { tree with bbDominated := st.bbDominated }, ?_, ?_, ?_⟩
  · simp [inferImmediateDominators, numbered, swept, adjusted]
  · intro bb member proper
    have bound := number_lt ((spanning.members bb).mpr member)
    have inner := positiveNumber bb member proper
    have below := semiBound _ bound inner
    rw [dominator bb member proper, numberOf _ (by omega)]
    exact ⟨nameMem _ (by omega), progress'.semiHigh _ bound inner⟩
  · intro bb member
    have empty := shape.dominated bb ((spanning.members bb).mpr member)
    refine ⟨unique bb (by simp [empty]) (by simp [empty]), fun bb' => ?_⟩
    rw [children]
    simp only [empty, List.not_mem_nil, false_or, List.mem_range]
    constructor
    · rintro ⟨i, bound, inner, rfl, rfl⟩
      have proper : name i ≠ g.gRoot := by
        intro same
        have := numberOf i bound
        rw [same, spanning.number_root] at this
        omega
      refine ⟨nameMem i bound, proper, ?_⟩
      rw [dominator _ (nameMem i bound) proper, numberOf i bound]
    · rintro ⟨member', proper, rfl⟩
      have bound := number_lt ((spanning.members bb').mpr member')
      refine ⟨number order bb', bound, positiveNumber bb' member' proper, (nameOf _ member').symm, ?_⟩
      exact dominator bb' member' proper

end Spanning

/-- Block 2 branches to 3 and 4, block 3 goes on to 4, and both may leave for 5, as two
breaks of a loop body do. -/
def bypassGraph : Cfg Unit :=
  Cfg.ofEdges 1 [1, 2, 3, 4, 5]
    [⟨0, 1, 2, .cfgGoto⟩, ⟨1, 2, 3, .cfgGoto⟩, ⟨2, 2, 4, .cfgGoto⟩, ⟨3, 3, 5, .cfgGoto⟩,
      ⟨4, 3, 4, .cfgGoto⟩, ⟨5, 4, 5, .cfgGoto⟩] (by decide) (by decide)

def untouched : DominatorTree := { bbDominator := id, bbDominated := fun _ => [] }

theorem bypassGraph_connected : bypassGraph.Connected := by
  have two : Walk bypassGraph.Edge 1 [2, 1] 2 := .step .start (show 2 ∈ bypassGraph.succ 1 by decide)
  have three := two.step (show 3 ∈ bypassGraph.succ 2 by decide)
  have four := two.step (show 4 ∈ bypassGraph.succ 2 by decide)
  have five := three.step (show 5 ∈ bypassGraph.succ 3 by decide)
  constructor
  · intro bb member
    have cases : bb = 1 ∨ bb = 2 ∨ bb = 3 ∨ bb = 4 ∨ bb = 5 := by
      simpa [bypassGraph, Cfg.ofEdges] using member
    rcases cases with rfl | rfl | rfl | rfl | rfl
    · exact ⟨_, .start⟩
    · exact ⟨_, two⟩
    · exact ⟨_, three⟩
    · exact ⟨_, four⟩
    · exact ⟨_, five⟩
  · rintro bb bb' along
    obtain ⟨edge, member, -⟩ := List.mem_map.mp along
    have source := bypassGraph.outgoing_from bb edge member
    have listed := List.mem_of_mem_filter member
    simp only [List.mem_cons, List.not_mem_nil, or_false] at listed
    rcases listed with rfl | rfl | rfl | rfl | rfl | rfl <;>
      simp [bypassGraph, Cfg.ofEdges, ← source]

/-- The code takes block 3 for the dominator of block 5, which the path over 2 and 4
reaches without it. -/
theorem bypass_not_dominated : bypassGraph.Connected ∧
    ∃ tree', inferImmediateDominators bypassGraph untouched = some tree' ∧
      tree'.bbDominator 5 = 3 ∧ ¬ Dominates bypassGraph.Edge 1 3 5 ∧
      ¬ IsDominatorTree bypassGraph tree' := by
  have computed : (inferImmediateDominators bypassGraph untouched).map
      (fun tree => tree.bbDominator 5) = some 3 := by decide +kernel
  obtain ⟨tree', result, wrong⟩ := Option.map_eq_some_iff.mp computed
  have around : Walk bypassGraph.Edge 1 [5, 4, 2, 1] 5 :=
    .step (.step (.step .start (show 2 ∈ bypassGraph.succ 1 by decide))
      (show 4 ∈ bypassGraph.succ 2 by decide)) (show 5 ∈ bypassGraph.succ 4 by decide)
  have avoided : ¬ Dominates bypassGraph.Edge 1 3 5 := fun dominates =>
    absurd (dominates _ around) (by decide)
  refine ⟨bypassGraph_connected, tree', result, wrong, avoided, fun correct => avoided ?_⟩
  have immediate := correct.dominator 5 (by decide) (by decide)
  rw [wrong] at immediate
  exact immediate.1.1

/-- The code returns on every connected graph, and its dominator fields are the
dominator tree exactly when every block is dominated by its join point. -/
theorem dominator_tree_iff (connected : g.Connected) (tree : DominatorTree) :
    ∃ tree', inferImmediateDominators g tree = some tree' ∧
      (IsDominatorTree g tree' ↔ JoinsDominate g) := by
  obtain ⟨order, spanning⟩ := spanning_exists g connected
  obtain ⟨tree', computed, joins, children⟩ := spanning.computes connected tree
  have joinPoint : ∀ bb ∈ g.gNodes, bb ≠ g.gRoot → JoinPoint g bb (tree'.bbDominator bb) := by
    intro bb member proper
    obtain ⟨dMember, join⟩ := joins bb member proper
    exact spanning.joinPoint_of_index connected member proper dMember join
  refine ⟨tree', computed, fun correct => ?_, fun condition => ⟨?_, children⟩⟩
  · intro bb member proper d join
    obtain rfl := spanning.joinPoint_unique (joins bb member proper).1 (joinPoint bb member proper)
      join
    exact (correct.dominator bb member proper).1.1
  · intro bb member proper
    have join := joinPoint bb member proper
    have index := (joins bb member proper).2
    refine spanning.immediate_of_dominates connected join (condition bb member proper _ join) ?_ ?_
    · intro same
      have := index.lt
      rw [same] at this
      omega
    · obtain ⟨v, ⟨v', w, sameV, sameW, vIn, along⟩, top⟩ := index.attained
      have source := (spanning.members v').mp vIn
      have target : g.Edge v' bb :=
        (spanning.edge_iff connected member).mp ⟨⟨v', w, rfl, sameW, vIn, along⟩, source⟩
      refine ⟨v', target, ?_⟩
      rw [spanning.treeAncestor_iff (joins bb member proper).1 source, sameV]
      exact top.ancestor

theorem bypass_dominator_tree_iff : bypassGraph.Connected ∧
    ∃ tree', inferImmediateDominators bypassGraph untouched = some tree' ∧
      (IsDominatorTree bypassGraph tree' ↔ JoinsDominate bypassGraph) :=
  ⟨bypassGraph_connected, dominator_tree_iff bypassGraph bypassGraph_connected untouched⟩

end Haxe.Guarantees.ImmediateDominators
