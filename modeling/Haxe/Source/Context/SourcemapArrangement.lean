import Mathlib.Data.List.Chain
import Mathlib.Data.List.Nodup
import Haxe.Source.Context.Sourcemaps

/-!
# Arrangement of source map data

What the builder is for: a sequence of data with a place at which the next data are inserted.
The linked list of the builder holds such a sequence between its first and its last node.
-/

namespace Haxe.Source.Sourcemaps

@[grind =] def Call.data : Call → SmNodeData
  | .map pos => .smPos pos
  | .stringWritten str => .smStr str

/-- The data with their nodes, and the node behind which data are inserted. Node 0 stands in front
of all data. -/
structure Arrangement where
  items : List (Nat × Call)
  current : Nat

namespace Arrangement

def start : Arrangement := ⟨[], 0⟩

/-- Insertion behind a node of the sequence. -/
@[grind =] def insertAfter (n : Nat) (new : Nat × Call) : List (Nat × Call) → List (Nat × Call)
  | [] => [new]
  | item :: items =>
    if item.1 = n then item :: new :: items else item :: insertAfter n new items

def insert (a : Arrangement) (call : Call) : Arrangement :=
  let address := a.items.length + 2
  { items := if a.current = 0 then (address, call) :: a.items
      else insertAfter a.current (address, call) a.items
    current := address }

def rewind (a : Arrangement) : Arrangement := { a with current := 0 }

def fastForward (a : Arrangement) : Arrangement :=
  { a with current := (a.items.map Prod.fst).getLastD 0 }

def seek (a : Arrangement) (node : Nat) : Arrangement := { a with current := node }

/-- The data in order. -/
def calls (a : Arrangement) : List Call := a.items.map Prod.snd

/-- All nodes, the one without data in front included. -/
def nodes (a : Arrangement) : List Nat := 0 :: a.items.map Prod.fst

theorem mem_insertAfter {n : Nat} {new item : Nat × Call} {items : List (Nat × Call)} :
    item ∈ insertAfter n new items ↔ item = new ∨ item ∈ items := by
  induction items with
  | nil => simp [insertAfter]
  | cons first items ih =>
    unfold insertAfter
    split
    · simp only [List.mem_cons]
      tauto
    · simp only [List.mem_cons, ih]
      tauto

theorem insertAfter_length (n : Nat) (new : Nat × Call) (items : List (Nat × Call)) :
    (insertAfter n new items).length = items.length + 1 := by
  induction items with
  | nil => rfl
  | cons first items ih =>
    unfold insertAfter
    split
    · rfl
    · rw [List.length_cons, ih]
      rfl

theorem insertAfter_nodes {n : Nat} (new : Nat × Call) {items : List (Nat × Call)}
    {front back : List Nat} (split' : items.map Prod.fst = front ++ n :: back)
    (fresh : n ∉ front) :
    (insertAfter n new items).map Prod.fst = front ++ n :: new.1 :: back := by
  induction items generalizing front with
  | nil => simp at split'
  | cons first items ih =>
    unfold insertAfter
    cases front with
    | nil =>
      obtain ⟨here, rest⟩ := List.cons.inj split'
      rw [if_pos here, List.map_cons, List.map_cons, here, rest]
      rfl
    | cons m front =>
      obtain ⟨here, rest⟩ := List.cons.inj split'
      have other : first.1 ≠ n := fun same => fresh (same ▸ here ▸ List.mem_cons_self)
      rw [if_neg other, List.map_cons, here,
        ih rest fun inside => fresh (List.mem_cons_of_mem m inside)]
      rfl

/-- The new node comes behind the current one. -/
theorem insert_nodes {a : Arrangement} (call : Call) {front back : List Nat}
    (split' : a.nodes = front ++ a.current :: back) (fresh : a.current ∉ front) :
    (a.insert call).nodes = front ++ a.current :: (a.items.length + 2) :: back := by
  unfold insert nodes
  dsimp only
  cases front with
  | nil =>
    obtain ⟨here, rest⟩ := List.cons.inj split'
    rw [if_pos here.symm, List.map_cons, rest, ← here]
    rfl
  | cons m front =>
    obtain ⟨here, rest⟩ := List.cons.inj split'
    have other : a.current ≠ 0 := fun same => fresh (same ▸ here ▸ List.mem_cons_self)
    rw [if_neg other, insertAfter_nodes _ rest fun inside => fresh (List.mem_cons_of_mem m inside),
      here]
    rfl

theorem mem_insert {a : Arrangement} {call : Call} {item : Nat × Call} :
    item ∈ (a.insert call).items ↔ item = (a.items.length + 2, call) ∨ item ∈ a.items := by
  unfold insert
  dsimp only
  split
  · exact List.mem_cons
  · exact mem_insertAfter

theorem insert_length (a : Arrangement) (call : Call) :
    (a.insert call).items.length = a.items.length + 1 := by
  unfold insert
  dsimp only
  split
  · rfl
  · exact insertAfter_length _ _ _

end Arrangement

namespace Builder

def right (b : Builder) (n : Nat) : Option Nat := b.heap[n]?.bind SmNode.smnRight

def left (b : Builder) (n : Nat) : Option Nat := b.heap[n]?.bind SmNode.smnLeft

def data (b : Builder) (n : Nat) : Option SmNodeData := b.heap[n]?.map SmNode.smnData

/-- The second node is linked behind the first. -/
def Link (b : Builder) (m n : Nat) : Prop := b.right m = some n ∧ b.left n = some m

/-- The nodes of the heap from the first to the last hold the data of the sequence. -/
structure Holds (b : Builder) (a : Arrangement) : Prop where
  size : b.heap.length = a.items.length + 2
  distinct : (a.nodes ++ [1]).Nodup
  linked : (a.nodes ++ [1]).IsChain b.Link
  first : b.data 0 = some .smNil
  last : b.data 1 = some .smNil
  closed : b.right 1 = none
  items : ∀ item ∈ a.items, b.data item.1 = some item.2.data
  current : b.current = a.current
  inside : a.current ∈ a.nodes

theorem data_lt {b : Builder} {n : Nat} {d : SmNodeData} (known : b.data n = some d) :
    n < b.heap.length := by
  obtain ⟨x, found, -⟩ := Option.map_eq_some_iff.mp known
  exact (List.getElem?_eq_some_iff.mp found).1

theorem node_of_data {b : Builder} {n : Nat} {d : SmNodeData} (known : b.data n = some d) :
    ∃ x, b.node n = .ok x ∧ x.smnData = d ∧ x.smnRight = b.right n ∧ x.smnLeft = b.left n := by
  obtain ⟨x, found, same⟩ := Option.map_eq_some_iff.mp known
  refine ⟨x, ?_, same, ?_, ?_⟩
  · unfold node
    rw [found]
  · unfold right
    rw [found]
    rfl
  · unfold left
    rw [found]
    rfl

theorem right_setRight {b : Builder} {n : Nat} (inside : n < b.heap.length) (r : Option Nat)
    (m : Nat) : (b.setRight n r).right m = if m = n then r else b.right m := by
  unfold setRight right
  by_cases same : m = n
  · subst same
    simp [List.getElem?_eq_getElem inside]
  · simp [same, Ne.symm same]

theorem left_setRight (b : Builder) (n : Nat) (r : Option Nat) (m : Nat) :
    (b.setRight n r).left m = b.left m := by
  unfold setRight left
  rw [List.getElem?_modify]
  cases b.heap[m]? with
  | none => rfl
  | some x =>
    by_cases same : n = m <;> simp [same]

theorem data_setRight (b : Builder) (n : Nat) (r : Option Nat) (m : Nat) :
    (b.setRight n r).data m = b.data m := by
  unfold setRight data
  rw [List.getElem?_modify]
  cases b.heap[m]? with
  | none => rfl
  | some x =>
    by_cases same : n = m <;> simp [same]

theorem left_setLeft {b : Builder} {n : Nat} (inside : n < b.heap.length) (l : Option Nat)
    (m : Nat) : (b.setLeft n l).left m = if m = n then l else b.left m := by
  unfold setLeft left
  by_cases same : m = n
  · subst same
    simp [List.getElem?_eq_getElem inside]
  · simp [same, Ne.symm same]

theorem right_setLeft (b : Builder) (n : Nat) (l : Option Nat) (m : Nat) :
    (b.setLeft n l).right m = b.right m := by
  unfold setLeft right
  rw [List.getElem?_modify]
  cases b.heap[m]? with
  | none => rfl
  | some x =>
    by_cases same : n = m <;> simp [same]

theorem data_setLeft (b : Builder) (n : Nat) (l : Option Nat) (m : Nat) :
    (b.setLeft n l).data m = b.data m := by
  unfold setLeft data
  rw [List.getElem?_modify]
  cases b.heap[m]? with
  | none => rfl
  | some x =>
    by_cases same : n = m <;> simp [same]

/-- A new node at the end of the heap. -/
def alloc (b : Builder) (x : SmNode) : Builder := { b with heap := b.heap ++ [x] }

theorem getElem?_alloc (b : Builder) (x : SmNode) (n : Nat) :
    (b.alloc x).heap[n]? = if n = b.heap.length then some x else b.heap[n]? := by
  unfold alloc
  by_cases old : n < b.heap.length
  · rw [List.getElem?_append_left old, if_neg (by omega)]
  · rw [List.getElem?_append_right (by omega)]
    by_cases new : n = b.heap.length
    · simp [new]
    · rw [if_neg new, List.getElem?_eq_none (by simp; omega), List.getElem?_eq_none (by omega)]

/-- What `insert` leaves in every node. -/
theorem insert_ok {b : Builder} {d d' : SmNodeData} {next : Nat} (data : SmNodeData)
    (known : b.data b.current = some d) (linked : b.right b.current = some next)
    (known' : b.data next = some d') :
    ∃ b', b.insert data = .ok b' ∧ b'.current = b.heap.length ∧
      b'.heap.length = b.heap.length + 1 ∧
      (∀ n, b'.right n = if n = b.current then some b.heap.length
        else if n = b.heap.length then some next else b.right n) ∧
      (∀ n, b'.left n = if n = next then some b.heap.length
        else if n = b.heap.length then some b.current else b.left n) ∧
      ∀ n, b'.data n = if n = b.heap.length then some data else b.data n := by
  obtain ⟨x, found, -, onRight, -⟩ := node_of_data known
  have inside := data_lt known
  have inside' := data_lt known'
  rw [linked] at onRight
  have grown : (b.alloc ⟨some b.current, x.smnRight, data⟩).heap.length = b.heap.length + 1 := by
    simp [alloc]
  have result : b.insert data = .ok { ((b.alloc ⟨some b.current, x.smnRight, data⟩).setRight
      b.current (some b.heap.length)).setLeft next (some b.heap.length) with
        current := b.heap.length } := by
    unfold insert
    rw [found]
    show Except.ok _ = Except.ok _
    simp only [onRight]
    rfl
  refine ⟨_, result, rfl, ?_, fun n => ?_, fun n => ?_, fun n => ?_⟩
  · simp [setRight, setLeft, alloc]
  · show (setLeft _ next _).right n = _
    rw [right_setLeft, right_setRight (by omega)]
    unfold right
    rw [getElem?_alloc, onRight]
    split
    · rfl
    · split <;> rfl
  · show (setLeft _ next _).left n = _
    rw [left_setLeft (by simp [setRight]; omega), left_setRight]
    unfold left
    rw [getElem?_alloc]
    split
    · rfl
    · split <;> rfl
  · show (setLeft _ next _).data n = _
    rw [data_setLeft, data_setRight]
    unfold Builder.data
    rw [getElem?_alloc]
    split <;> rfl

variable {b : Builder}

theorem rewindLoop_stop {n : Nat} (empty : b.data n = some .smNil) (fuel : Nat) :
    b.rewindLoop (fuel + 1) (some n) = .ok { b with current := n } := by
  obtain ⟨x, found, nil, -, -⟩ := node_of_data empty
  unfold rewindLoop
  simp only [found, bind, Except.bind, nil]
  rfl

theorem rewindLoop_step {n fuel : Nat} {d : SmNodeData} (known : b.data n = some d)
    (nonempty : d ≠ .smNil) : b.rewindLoop (fuel + 1) (some n) = b.rewindLoop fuel (b.left n) := by
  obtain ⟨x, found, same, -, left⟩ := node_of_data known
  rw [Builder.rewindLoop]
  simp only [found, bind, Except.bind, same, left]

theorem fastForwardLoop_stop {n next : Nat} {d : SmNodeData} (known : b.data n = some d)
    (right : b.right n = some next) (empty : b.data next = some .smNil) (fuel : Nat) :
    b.fastForwardLoop (fuel + 1) n = .ok { b with current := n } := by
  obtain ⟨x, found, -, onRight, -⟩ := node_of_data known
  obtain ⟨y, found', nil, -, -⟩ := node_of_data empty
  unfold fastForwardLoop
  simp only [found, bind, Except.bind, onRight, right, found', nil, pure, Except.pure]

theorem fastForwardLoop_step {n next fuel : Nat} {d d' : SmNodeData} (known : b.data n = some d)
    (right : b.right n = some next) (known' : b.data next = some d') (nonempty : d' ≠ .smNil) :
    b.fastForwardLoop (fuel + 1) n = b.fastForwardLoop fuel next := by
  obtain ⟨x, found, -, onRight, -⟩ := node_of_data known
  obtain ⟨y, found', same, -, -⟩ := node_of_data known'
  rw [fastForwardLoop]
  simp only [found, bind, Except.bind, onRight, right, found', same]

theorem getLastD_append_cons (front : List Nat) (m d : Nat) (behind : List Nat) :
    (front ++ m :: behind).getLastD d = behind.getLastD m := by
  induction front generalizing d with
  | nil => exact List.getLastD_cons
  | cons k front ih =>
    rw [List.cons_append, List.getLastD_cons, ih]

theorem generateLoop_stop (findPos : Pos → Int × Int) {n : Nat} (empty : b.data n = some .smNil)
    (right : b.right n = none) (fuel : Nat) (writer : Writer) :
    b.generateLoop findPos (fuel + 1) n writer = .ok writer := by
  obtain ⟨x, found, nil, onRight, -⟩ := node_of_data empty
  unfold generateLoop
  simp only [found, bind, Except.bind, onRight, right, nil]
  rfl

theorem generateLoop_step (findPos : Pos → Int × Int) {n next : Nat} {call : Call}
    (known : b.data n = some call.data) (right : b.right n = some next) (fuel : Nat)
    (writer : Writer) :
    b.generateLoop findPos (fuel + 1) n writer =
      b.generateLoop findPos fuel next (writer.call findPos call) := by
  obtain ⟨x, found, same, onRight, -⟩ := node_of_data known
  rw [generateLoop]
  simp only [found, bind, Except.bind, onRight, right, same]
  cases call <;> rfl

theorem generateLoop_first (findPos : Pos → Int × Int) {n next : Nat}
    (empty : b.data n = some .smNil) (right : b.right n = some next) (fuel : Nat)
    (writer : Writer) :
    b.generateLoop findPos (fuel + 1) n writer = b.generateLoop findPos fuel next writer := by
  obtain ⟨x, found, nil, onRight, -⟩ := node_of_data empty
  rw [generateLoop]
  simp only [found, bind, Except.bind, onRight, right, nil]

namespace Holds

variable {b : Builder} {a : Arrangement}

theorem new : Builder.new.Holds Arrangement.start where
  size := rfl
  distinct := by decide
  linked := by
    refine List.isChain_cons_cons.mpr ⟨⟨rfl, rfl⟩, List.isChain_singleton 1⟩
  first := rfl
  last := rfl
  closed := rfl
  items _ none := absurd none (List.not_mem_nil)
  current := rfl
  inside := List.mem_cons_self

/-- Every node of the list is in the heap. -/
theorem known (holds : b.Holds a) {n : Nat} (inside : n ∈ a.nodes ++ [1]) :
    ∃ d, b.data n = some d := by
  rcases List.mem_append.mp inside with inner | last
  · rcases List.mem_cons.mp inner with rfl | inner
    · exact ⟨_, holds.first⟩
    · obtain ⟨item, member, rfl⟩ := List.mem_map.mp inner
      exact ⟨_, holds.items item member⟩
  · obtain rfl := List.mem_singleton.mp last
    exact ⟨_, holds.last⟩

/-- The list around the current node. -/
theorem around (holds : b.Holds a) : ∃ front behind next back,
    a.nodes = front ++ a.current :: behind ∧ behind ++ [1] = next :: back ∧
      a.current ∉ front := by
  obtain ⟨front, behind, nodes, fresh⟩ := List.eq_append_cons_of_mem holds.inside
  cases behind with
  | nil => exact ⟨front, [], 1, [], nodes, rfl, fresh⟩
  | cons next behind => exact ⟨front, next :: behind, next, behind ++ [1], nodes, rfl, fresh⟩

theorem insert (holds : b.Holds a) (call : Call) :
    ∃ b', b.insert call.data = .ok b' ∧ b'.Holds (a.insert call) := by
  obtain ⟨front, behind, next, back, nodes, behindLast, fresh⟩ := holds.around
  have list : a.nodes ++ [1] = front ++ a.current :: next :: back := by
    rw [nodes, ← behindLast, List.append_assoc]
    rfl
  have old : ∀ n ∈ front ++ a.current :: next :: back, ∃ d, b.data n = some d ∧
      n ≠ b.heap.length := by
    intro n member
    obtain ⟨d, known⟩ := holds.known (list ▸ member)
    exact ⟨d, known, Nat.ne_of_lt (data_lt known)⟩
  have distinct := holds.distinct
  have linked := holds.linked
  rw [list] at distinct linked
  obtain ⟨before, ⟨toNext, toCurrent⟩, after⟩ := List.isChain_append_cons_cons.mp linked
  obtain ⟨d, current, currentOld⟩ := old a.current (by simp)
  obtain ⟨d', nextKnown, nextOld⟩ := old next (by simp)
  rw [← holds.current] at current toNext
  obtain ⟨b', inserted, here, grown, right, left, data⟩ :=
    insert_ok call.data current toNext nextKnown
  rw [holds.current] at toNext
  simp only [holds.current] at right left
  have address : a.items.length + 2 = b.heap.length := holds.size.symm
  have chain : (a.insert call).nodes ++ [1] =
      front ++ a.current :: b.heap.length :: next :: back := by
    rw [Arrangement.insert_nodes call nodes fresh, ← behindLast, address, List.append_assoc]
    rfl
  obtain ⟨frontDistinct, behindDistinct, apart⟩ := List.nodup_append.mp distinct
  obtain ⟨currentOnce, nextDistinct⟩ := List.nodup_cons.mp behindDistinct
  have kept : ∀ m n, m ∈ front ++ a.current :: next :: back →
      n ∈ front ++ a.current :: next :: back → b.Link m n → n ≠ next → b'.Link m n := by
    intro m n _ member link other
    obtain ⟨-, -, mOld⟩ := old m ‹_›
    obtain ⟨-, -, nOld⟩ := old n member
    refine ⟨?_, ?_⟩
    · rw [right, if_neg, if_neg mOld, link.1]
      intro same
      exact other (Option.some.inj (link.1.symm.trans (same ▸ toNext)))
    · rw [left, if_neg other, if_neg nOld, link.2]
  refine ⟨b', inserted, ?_⟩
  constructor
  · rw [grown, Arrangement.insert_length, ← address]
  · rw [chain]
    have new : b.heap.length ∉ front ++ a.current :: next :: back := by
      intro member
      obtain ⟨-, -, other⟩ := old _ member
      exact other rfl
    simp only [List.mem_append, List.mem_cons] at new
    grind
  · rw [chain]
    refine List.isChain_append_cons_cons.mpr
      ⟨?_, ⟨?_, ?_⟩, List.isChain_cons_cons.mpr ⟨⟨?_, ?_⟩, ?_⟩⟩
    · refine before.imp_of_mem_imp fun m n inFront inFront' link => kept m n ?_ ?_ link ?_
      · simp only [List.mem_append, List.mem_cons, List.not_mem_nil, or_false] at inFront ⊢
        tauto
      · simp only [List.mem_append, List.mem_cons, List.not_mem_nil, or_false] at inFront' ⊢
        tauto
      · rintro rfl
        rcases List.mem_append.mp inFront' with inside | same
        · exact apart n inside n (by simp) rfl
        · exact currentOnce (List.mem_singleton.mp same ▸ List.mem_cons_self)
    · rw [right, if_pos rfl]
    · rw [left, if_neg (Ne.symm nextOld), if_pos rfl]
    · rw [right, if_neg (Ne.symm currentOld), if_pos rfl]
    · rw [left, if_pos rfl]
    · refine after.imp_of_mem_tail_imp fun m n inBack inBack' link => kept m n ?_ ?_ link ?_
      · exact List.mem_append_right _ (List.mem_cons_of_mem _ inBack)
      · exact List.mem_append_right _ (List.mem_cons_of_mem _ (List.mem_cons_of_mem _ inBack'))
      · rintro rfl
        exact (List.nodup_cons.mp nextDistinct).1 inBack'
  · rw [data, if_neg (by omega), holds.first]
  · rw [data, if_neg (by omega), holds.last]
  · have apart' : (1 : Nat) ≠ a.current := by
      intro same
      exact (List.nodup_append.mp holds.distinct).2.2 a.current holds.inside 1 (by simp) same.symm
    rw [right, if_neg apart', if_neg (by omega), holds.closed]
  · intro item member
    rcases Arrangement.mem_insert.mp member with rfl | earlier
    · rw [data, if_pos address]
    · obtain ⟨-, -, itemOld⟩ := old item.1 (by
        rw [← list]
        exact List.mem_append_left _ (List.mem_cons_of_mem _ (List.mem_map_of_mem earlier)))
      rw [data, if_neg itemOld]
      exact holds.items item earlier
  · exact here.trans address.symm
  · rw [Arrangement.insert_nodes call nodes fresh]
    simp [Arrangement.insert]

theorem link (holds : b.Holds a) (front : List Nat) (m n : Nat) (back : List Nat)
    (list : a.nodes ++ [1] = front ++ m :: n :: back) : b.Link m n :=
  (List.isChain_append_cons_cons.mp (list ▸ holds.linked)).2.1

/-- Only the first and the last node have no data. -/
theorem inner (holds : b.Holds a) {n : Nat} (member : n ∈ a.items.map Prod.fst) :
    ∃ d, b.data n = some d ∧ d ≠ .smNil := by
  obtain ⟨item, isItem, rfl⟩ := List.mem_map.mp member
  refine ⟨_, holds.items item isItem, ?_⟩
  cases item.2 <;> exact SmNodeData.noConfusion

/-- To the left of every node the first one is reached. -/
theorem rewindLoop (holds : b.Holds a) {front behind : List Nat} {n fuel : Nat}
    (nodes : a.nodes = front ++ n :: behind) (enough : front.length < fuel) :
    b.rewindLoop fuel (some n) = .ok { b with current := 0 } := by
  induction front using List.reverseRecOn generalizing n behind fuel with
  | nil =>
    obtain ⟨fuel, rfl⟩ : ∃ k, fuel = k + 1 := Nat.exists_eq_add_one.mpr enough
    obtain ⟨rfl, -⟩ := List.cons.inj nodes
    exact rewindLoop_stop holds.first fuel
  | append_singleton front m ih =>
    obtain ⟨fuel, rfl⟩ : ∃ k, fuel = k + 1 :=
      Nat.exists_eq_add_one.mpr (Nat.lt_of_le_of_lt (Nat.zero_le _) enough)
    have rest : a.nodes = front ++ m :: n :: behind := by
      rw [nodes, List.append_assoc]
      rfl
    have member : n ∈ a.items.map Prod.fst := by
      cases front with
      | nil =>
        obtain ⟨-, items⟩ := List.cons.inj rest
        rw [items]
        exact List.mem_cons_self
      | cons k front =>
        obtain ⟨-, items⟩ := List.cons.inj rest
        rw [items]
        simp
    obtain ⟨d, known, nonempty⟩ := holds.inner member
    have link : b.Link m n := holds.link front m n (behind ++ [1]) (by
      rw [rest, List.append_assoc]
      rfl)
    rw [rewindLoop_step known nonempty, link.2]
    apply ih rest
    rw [List.length_append, List.length_singleton] at enough
    omega

theorem nodes_length (holds : b.Holds a) : a.nodes.length < b.heap.length := by
  rw [holds.size]
  simp [Arrangement.nodes]

theorem rewind (holds : b.Holds a) :
    b.rewind = .ok { b with current := 0 } ∧ { b with current := 0 : Builder }.Holds a.rewind := by
  obtain ⟨front, behind, -, -, nodes, -⟩ := holds.around
  have short := holds.nodes_length
  rw [nodes, List.length_append] at short
  constructor
  · unfold Builder.rewind
    rw [holds.current]
    exact holds.rewindLoop nodes (by omega)
  · exact ⟨holds.size, holds.distinct, holds.linked, holds.first, holds.last, holds.closed,
      holds.items, rfl, List.mem_cons_self⟩

/-- To the right of every node the last one with data is reached. -/
theorem fastForwardLoop (holds : b.Holds a) (front : List Nat) {behind : List Nat}
    {n fuel : Nat}
    (nodes : a.nodes = front ++ n :: behind) (enough : behind.length < fuel) :
    b.fastForwardLoop fuel n = .ok { b with current := behind.getLastD n } := by
  induction behind generalizing n front fuel with
  | nil =>
    obtain ⟨fuel, rfl⟩ : ∃ k, fuel = k + 1 := Nat.exists_eq_add_one.mpr enough
    obtain ⟨d, known⟩ := holds.known (n := n) (by rw [nodes]; simp)
    have link : b.Link n 1 := holds.link front n 1 [] (by
      rw [nodes, List.append_assoc]
      rfl)
    exact fastForwardLoop_stop known link.1 holds.last fuel
  | cons k behind ih =>
    obtain ⟨fuel, rfl⟩ : ∃ k, fuel = k + 1 :=
      Nat.exists_eq_add_one.mpr (Nat.lt_of_le_of_lt (Nat.zero_le _) enough)
    obtain ⟨d, known⟩ := holds.known (n := n) (by rw [nodes]; simp)
    have link : b.Link n k := holds.link front n k (behind ++ [1]) (by
      rw [nodes, List.append_assoc]
      rfl)
    have member : k ∈ a.items.map Prod.fst := by
      cases front with
      | nil =>
        obtain ⟨-, items⟩ := List.cons.inj nodes
        rw [items]
        exact List.mem_cons_self
      | cons m front =>
        obtain ⟨-, items⟩ := List.cons.inj nodes
        rw [items]
        simp
    obtain ⟨d', known', nonempty⟩ := holds.inner member
    rw [fastForwardLoop_step known link.1 known' nonempty,
      ih (front ++ [n]) (by rw [nodes, List.append_assoc]; rfl)
        (Nat.lt_of_succ_lt_succ enough), List.getLastD_cons]

theorem fastForward (holds : b.Holds a) :
    ∃ b', b.fastForward = .ok b' ∧ b'.Holds a.fastForward := by
  obtain ⟨front, behind, -, -, nodes, -⟩ := holds.around
  have short := holds.nodes_length
  rw [nodes, List.length_append, List.length_cons] at short
  have last : behind.getLastD a.current = (a.items.map Prod.fst).getLastD 0 := by
    have same : (a.items.map Prod.fst).getLastD 0 = a.nodes.getLastD 0 :=
      List.getLastD_cons.symm
    rw [same, nodes, getLastD_append_cons]
  refine ⟨{ b with current := behind.getLastD a.current }, ?_, ?_⟩
  · unfold Builder.fastForward
    rw [holds.current]
    exact holds.fastForwardLoop front nodes (by omega)
  · refine ⟨holds.size, holds.distinct, holds.linked, holds.first, holds.last, holds.closed,
      holds.items, last, ?_⟩
    show (a.items.map Prod.fst).getLastD 0 ∈ a.nodes
    rw [← last, nodes]
    exact List.mem_append_right _ (List.getLastD_mem_cons)

theorem seek (holds : b.Holds a) {n : Nat} (inside : n ∈ a.nodes) :
    (b.seek n).Holds (a.seek n) :=
  ⟨holds.size, holds.distinct, holds.linked, holds.first, holds.last, holds.closed, holds.items,
    rfl, inside⟩

/-- The replay of the data from a node on. -/
theorem generateLoop (findPos : Pos → Int × Int) (holds : b.Holds a)
    (written : List (Nat × Call)) {todo : List (Nat × Call)} {n fuel : Nat} (writer : Writer)
    (items : a.items = written ++ todo)
    (here : n = (todo.map Prod.fst).headD 1) (enough : todo.length < fuel) :
    b.generateLoop findPos fuel n writer =
      .ok ((todo.map Prod.snd).foldl (Writer.call findPos) writer) := by
  induction todo generalizing written n fuel writer with
  | nil =>
    obtain ⟨fuel, rfl⟩ : ∃ k, fuel = k + 1 := Nat.exists_eq_add_one.mpr enough
    obtain rfl : n = 1 := here
    exact generateLoop_stop findPos holds.last holds.closed fuel writer
  | cons item todo ih =>
    obtain ⟨fuel, rfl⟩ : ∃ k, fuel = k + 1 :=
      Nat.exists_eq_add_one.mpr (Nat.lt_of_le_of_lt (Nat.zero_le _) enough)
    obtain rfl : n = item.1 := here
    have rest : a.items = (written ++ [item]) ++ todo := by
      rw [items, List.append_assoc]
      rfl
    have known := holds.items item (items ▸ List.mem_append_right _ List.mem_cons_self)
    have right : b.right item.1 = some ((todo.map Prod.fst).headD 1) := by
      have nodes : a.nodes ++ [1] =
          (0 :: written.map Prod.fst) ++ item.1 :: (todo.map Prod.fst ++ [1]) := by
        unfold Arrangement.nodes
        rw [items]
        simp
      cases todo with
      | nil => exact (holds.link _ _ _ _ nodes).1
      | cons next todo => exact (holds.link _ _ _ _ nodes).1
    rw [generateLoop_step findPos known right, ih _ _ rest rfl (Nat.lt_of_succ_lt_succ enough)]
    rfl

/-- `generate` hands the data to a new writer in their order and leaves the builder as it is. -/
theorem generate (findPos : Pos → Int × Int) (holds : b.Holds a) :
    b.generate findPos = .ok (written findPos a.calls, b) := by
  obtain ⟨rewound, holds'⟩ := holds.rewind
  have size := holds.size
  have right : b.right 0 = some ((a.items.map Prod.fst).headD 1) := by
    cases items : a.items with
    | nil =>
      refine (holds.link [] 0 1 [] ?_).1
      unfold Arrangement.nodes
      rw [items]
      rfl
    | cons item items' =>
      refine (holds.link [] 0 item.1 (items'.map Prod.fst ++ [1]) ?_).1
      unfold Arrangement.nodes
      rw [items]
      rfl
  have loop : Builder.generateLoop findPos { b with current := 0 } b.heap.length 0 Writer.new =
      .ok (written findPos a.calls) := by
    rw [size, generateLoop_first findPos holds'.first right]
    exact holds'.generateLoop findPos [] Writer.new rfl rfl (by
      show a.items.length < _
      omega)
  unfold Builder.generate
  rw [rewound]
  simp only [bind, Except.bind, loop]
  rfl

end Holds

end Builder

/-- A call on the builder. `getPointer` keeps the current node, and `seek` takes one that was
kept before: a caller has no other nodes. -/
inductive Operation where
  | insert (call : Call)
  | rewind
  | fastForward
  | getPointer
  | seek (pointer : Nat)
  deriving DecidableEq, Repr

@[grind =]
def Builder.perform : Builder × List Nat → Operation → Except BuilderError (Builder × List Nat)
  | (b, pointers), .insert call => do return (← b.insert call.data, pointers)
  | (b, pointers), .rewind => do return (← b.rewind, pointers)
  | (b, pointers), .fastForward => do return (← b.fastForward, pointers)
  | (b, pointers), .getPointer => return (b, pointers ++ [b.current])
  | (b, pointers), .seek pointer =>
    match pointers[pointer]? with
    | some node => return (b.seek node, pointers)
    | none => return (b, pointers)

@[grind =] def Arrangement.perform : Arrangement × List Nat → Operation → Arrangement × List Nat
  | (a, pointers), .insert call => (a.insert call, pointers)
  | (a, pointers), .rewind => (a.rewind, pointers)
  | (a, pointers), .fastForward => (a.fastForward, pointers)
  | (a, pointers), .getPointer => (a, pointers ++ [a.current])
  | (a, pointers), .seek pointer =>
    match pointers[pointer]? with
    | some node => (a.seek node, pointers)
    | none => (a, pointers)

/-- The data of a builder in their order. -/
def arranged (operations : List Operation) : List Call :=
  (operations.foldl Arrangement.perform (Arrangement.start, [])).1.calls

/-- The kept nodes stay nodes of the list. -/
theorem Builder.perform_holds {b : Builder} {a : Arrangement} {pointers : List Nat}
    (holds : b.Holds a) (inside : ∀ n ∈ pointers, n ∈ a.nodes) (operation : Operation) :
    ∃ b', Builder.perform (b, pointers) operation =
        .ok (b', (Arrangement.perform (a, pointers) operation).2) ∧
      b'.Holds (Arrangement.perform (a, pointers) operation).1 ∧
      ∀ n ∈ (Arrangement.perform (a, pointers) operation).2,
        n ∈ (Arrangement.perform (a, pointers) operation).1.nodes := by
  cases operation with
  | insert call =>
    obtain ⟨b', inserted, holds'⟩ := holds.insert call
    obtain ⟨front, behind, -, -, nodes, -, fresh⟩ := holds.around
    refine ⟨b', ?_, holds', fun n member => ?_⟩
    · rw [Builder.perform, inserted]
      rfl
    · have before := inside n member
      show n ∈ (a.insert call).nodes
      rw [Arrangement.insert_nodes call nodes fresh]
      rw [nodes] at before
      simp only [List.mem_append, List.mem_cons] at before ⊢
      tauto
  | rewind =>
    obtain ⟨rewound, holds'⟩ := holds.rewind
    refine ⟨_, ?_, holds', inside⟩
    rw [Builder.perform, rewound]
    rfl
  | fastForward =>
    obtain ⟨b', forwarded, holds'⟩ := holds.fastForward
    refine ⟨b', ?_, holds', inside⟩
    rw [Builder.perform, forwarded]
    rfl
  | getPointer =>
    refine ⟨b, ?_, holds, fun n member => ?_⟩
    · rw [Builder.perform, holds.current]
      rfl
    · rcases List.mem_append.mp member with before | new
      · exact inside n before
      · exact List.mem_singleton.mp new ▸ holds.inside
  | seek pointer =>
    rw [Builder.perform, Arrangement.perform]
    cases kept : pointers[pointer]? with
    | none => exact ⟨b, rfl, holds, inside⟩
    | some node =>
      exact ⟨b.seek node, rfl, holds.seek (inside node (List.mem_of_getElem? kept)), inside⟩

/-- No call on a builder dies, and the builder holds what was arranged. -/
theorem Builder.run_holds {b : Builder} {a : Arrangement} {pointers : List Nat}
    (holds : b.Holds a) (inside : ∀ n ∈ pointers, n ∈ a.nodes) (operations : List Operation) :
    ∃ b', operations.foldlM Builder.perform (b, pointers) =
        .ok (b', (operations.foldl Arrangement.perform (a, pointers)).2) ∧
      b'.Holds (operations.foldl Arrangement.perform (a, pointers)).1 := by
  induction operations generalizing b a pointers with
  | nil => exact ⟨b, rfl, holds⟩
  | cons operation operations ih =>
    obtain ⟨b', performed, holds', inside'⟩ := Builder.perform_holds holds inside operation
    obtain ⟨b'', run, holds''⟩ := ih holds' inside'
    refine ⟨b'', ?_, holds''⟩
    rw [List.foldlM_cons, performed]
    exact run

end Haxe.Source.Sourcemaps
