import Haxe.Source.Generators.StackMapBytes

/-!
# Recorded states

What was recorded along a sequence of operations, and how it shows in the builder: the frames are
those of the latest records at their positions, and every local variable has the slot behind all
those allocated before it.
-/

namespace Haxe.Source.Jvm

open Theory StackMapFormat

/-- A local variable when a frame is recorded. -/
structure RecordedLocal where
  jsig : JSignature
  slot : Nat
  ready : Bool
  deriving DecidableEq, Repr

/-- What is recorded by a stack frame: the local variables in the order of their allocation, and
the operand stack from its bottom. -/
structure Snapshot where
  position : Nat
  locals : List RecordedLocal
  stack : List JSignature
  deriving DecidableEq, Repr

variable {pool : ConstantPool}

/-- The verification type that is recorded for a local variable. -/
def RecordedLocal.type (pool : ConstantPool) (l : RecordedLocal) : Option VerificationType :=
  if l.ready then ofSignature pool l.jsig else some .top

def Builder.recordedLocal (this : Builder) (l : Local) : RecordedLocal :=
  ⟨l.jsig, l.slot, this.initialized l⟩

def Builder.snapshot (this : Builder) : Snapshot :=
  ⟨this.fp, this.locals.reverse.map this.recordedLocal, this.stack.reverse⟩

/-- A frame as it is described for a snapshot. -/
structure Depicts (pool : ConstantPool) (s : Snapshot) (f : Frame) : Prop where
  offset : f.offset = s.position
  locals : s.locals.mapM (RecordedLocal.type pool) = some f.locals
  stack : s.stack.mapM (ofSignature pool) = some f.stack

/-- Every signature has a verification type. -/
def Snapshot.Typed (pool : ConstantPool) (s : Snapshot) : Prop := ∃ f, Depicts pool s f

/-- The records of a run, the last one first. A frame that is not typed is an exception. -/
@[grind =] def record (pool : ConstantPool) (history : List Snapshot) (this : Builder) :
    Operation → List Snapshot
  | .addStackFrame =>
    if (this.getLocalsForStackFrame pool this.locals).isSome &&
        (this.stack.mapM (ofSignature pool)).isSome
    then this.snapshot :: history else history
  | _ => history

def records (pool : ConstantPool) (this : Builder) (history : List Snapshot) :
    List Operation → List Snapshot
  | [] => history
  | operation :: operations =>
    records pool (this.step pool operation) (record pool history this operation) operations

/-- The last record at every position, the last position first. -/
@[grind =] def latest : List Snapshot → List Snapshot
  | [] => []
  | s :: earlier => s :: (latest earlier).filter fun s' => decide (s'.position ≠ s.position)

theorem mapM_reverse {α β : Type} {f : α → Option β} {as : List α} {bs : List β}
    (all : as.mapM f = some bs) : as.reverse.mapM f = some bs.reverse := by
  induction as generalizing bs with
  | nil =>
    rw [List.mapM_nil] at all
    obtain rfl := Option.some.inj all
    rfl
  | cons a as ih =>
    rw [List.mapM_cons] at all
    obtain ⟨b, one, all⟩ := Option.bind_eq_some_iff.mp all
    obtain ⟨others, rest, all⟩ := Option.bind_eq_some_iff.mp all
    obtain rfl := Option.some.inj all
    rw [List.reverse_cons, List.mapM_append, ih rest, List.reverse_cons]
    simp [one]

theorem mapM_map {α β γ : Type} (f : α → β) (g : β → Option γ) (as : List α) :
    (as.map f).mapM g = as.mapM fun a => g (f a) := by
  induction as with
  | nil => rfl
  | cons a as ih => rw [List.map_cons, List.mapM_cons, List.mapM_cons, ih]

/-- What the builder keeps of a state is its snapshot. -/
theorem snapshot_depicted {this : Builder} {locals astack : List VerificationType}
    (typed : this.getLocalsForStackFrame pool this.locals = some locals)
    (typed' : this.stack.mapM (ofSignature pool) = some astack) :
    Depicts pool this.snapshot (StackFrame.described ⟨this.fp, locals, astack⟩) where
  offset := rfl
  locals := by
    unfold Builder.snapshot
    rw [mapM_map]
    exact mapM_reverse typed
  stack := mapM_reverse typed'

/-! ## Slots -/

/-- The local variables take the slots from one number to another. -/
def Allocated : Nat → List Local → Nat → Prop
  | first, [], next => first = next
  | first, l :: locals, next => l.slot = first ∧ Allocated (first + signatureSize l.jsig) locals next

theorem Allocated.append {first next : Nat} {locals : List Local} {l : Local}
    (allocated : Allocated first locals next) (slot : l.slot = next) :
    Allocated first (locals ++ [l]) (next + signatureSize l.jsig) := by
  induction locals generalizing first with
  | nil =>
    obtain rfl : first = next := allocated
    exact ⟨slot, rfl⟩
  | cons l' locals ih => exact ⟨allocated.1, ih allocated.2⟩

/-- The same for the local variables of a snapshot. -/
def Placed : Nat → List RecordedLocal → Prop
  | _, [] => True
  | first, l :: locals => l.slot = first ∧ Placed (first + signatureSize l.jsig) locals

theorem Allocated.placed {first next : Nat} {locals : List Local}
    (allocated : Allocated first locals next) (this : Builder) :
    Placed first (locals.map this.recordedLocal) := by
  induction locals generalizing first with
  | nil => trivial
  | cons l locals ih => exact ⟨allocated.1, ih allocated.2⟩

/-- The invariant of the builder, with what was recorded. -/
structure Recording (pool : ConstantPool) (this : Builder) (history : List Snapshot) : Prop where
  allocated : Allocated 0 this.locals.reverse this.localOffset
  scopes : ∀ scope ∈ this.scopes, Allocated 0 scope.1.reverse scope.2
  depicted : List.Forall₂ (Depicts pool) (latest history)
    (this.stackFrames.map StackFrame.described)
  falling : (this.stackFrames.map StackFrame.fp).Pairwise (· > ·)
  reached : ∀ f ∈ this.stackFrames, f.fp ≤ this.fp
  placed : ∀ s ∈ history, Placed 0 s.locals

theorem latest_subset {history : List Snapshot} {s : Snapshot} (member : s ∈ latest history) :
    s ∈ history := by
  induction history with
  | nil => exact member
  | cons s' earlier ih =>
    rcases List.mem_cons.mp member with rfl | older
    · exact List.mem_cons_self
    · exact List.mem_cons_of_mem _ (ih (List.mem_filter.mp older).1)

theorem Allocated.addLocal {this : Builder}
    (allocated : Allocated 0 this.locals.reverse this.localOffset) (jsig : JSignature)
    (initState : VarInitState) :
    Allocated 0 (this.addLocal jsig initState).locals.reverse
      (this.addLocal jsig initState).localOffset := by
  have added := @Allocated.append 0 this.localOffset this.locals.reverse
    ⟨this.inits.length, jsig, this.localOffset⟩ allocated rfl
  unfold Builder.addLocal Builder.checkStore
  dsimp only
  rw [← List.reverse_cons] at added
  cases initState with
  | varWillInit => exact added
  | varArgument =>
    dsimp only
    split <;> exact added
  | varNeedDefault =>
    dsimp only
    split <;> exact added

/-- What `check_store` does not touch. -/
theorem checkStore_same (this : Builder) (init : Nat) :
    ∃ inits, this.checkStore init = { this with inits := inits } := by
  unfold Builder.checkStore
  split
  · exact ⟨_, rfl⟩
  · exact ⟨this.inits, rfl⟩

theorem addLocal_same (this : Builder) (jsig : JSignature) (initState : VarInitState) :
    ∃ inits locals localOffset, this.addLocal jsig initState =
      { this with inits := inits, locals := locals, localOffset := localOffset } := by
  unfold Builder.addLocal Builder.checkStore
  dsimp only
  cases initState with
  | varWillInit => exact ⟨_, _, _, rfl⟩
  | varArgument =>
    dsimp only
    split
    · exact ⟨_, _, _, rfl⟩
    · exact ⟨_, _, _, rfl⟩
  | varNeedDefault =>
    dsimp only
    split
    · exact ⟨_, _, _, rfl⟩
    · exact ⟨_, _, _, rfl⟩

/-- Records of other positions are kept by a new one. -/
theorem filter_depicted {ss : List Snapshot} {fs : List StackFrame} {fp : Nat}
    (depicted : List.Forall₂ (Depicts pool) ss (fs.map StackFrame.described))
    (before : ∀ f ∈ fs, f.fp < fp) :
    ss.filter (fun s => decide (s.position ≠ fp)) = ss := by
  induction fs generalizing ss with
  | nil =>
    cases depicted
    rfl
  | cons f fs ih =>
    cases depicted with
    | cons first others =>
      have below := before f List.mem_cons_self
      rw [show f.fp = _ from first.offset] at below
      have rest := ih others fun f' member => before f' (List.mem_cons_of_mem _ member)
      rw [List.filter_cons_of_pos (by simpa using Nat.ne_of_lt below), rest]

namespace Recording

variable {this : Builder} {history : List Snapshot}

theorem addStackFrame (recording : Recording pool this history) :
    Recording pool (this.addStackFrame pool) (record pool history this .addStackFrame) := by
  unfold Builder.addStackFrame record
  cases typed : this.getLocalsForStackFrame pool this.locals with
  | none => simpa using recording
  | some locals =>
    cases typed' : this.stack.mapM (ofSignature pool) with
    | none => simpa using recording
    | some astack =>
      have depicts := snapshot_depicted typed typed'
      have placed : ∀ s ∈ this.snapshot :: history, Placed 0 s.locals := by
        intro s member
        rcases List.mem_cons.mp member with rfl | earlier
        · exact recording.allocated.placed this
        · exact recording.placed s earlier
      have depicted := recording.depicted
      have falling := recording.falling
      have reached := recording.reached
      show Recording pool _ (this.snapshot :: history)
      cases frames : this.stackFrames with
      | nil =>
        rw [frames] at depicted
        refine ⟨recording.allocated, recording.scopes, ?_, List.pairwise_singleton _ _, ?_, placed⟩
        · rw [latest]
          generalize latest history = ss at depicted
          cases depicted
          exact .cons depicts .nil
        · intro f member
          obtain rfl := List.mem_singleton.mp member
          exact Nat.le_refl _
      | cons f fs =>
        rw [frames] at depicted falling reached
        rw [List.map_cons, List.pairwise_cons] at falling
        have below : ∀ f' ∈ fs, f'.fp < f.fp := fun f' member =>
          falling.1 f'.fp (List.mem_map_of_mem member)
        by_cases same : f.fp = this.fp
        · simp only [if_pos same]
          refine ⟨recording.allocated, recording.scopes, ?_, ?_, ?_, placed⟩
          · rw [latest]
            generalize latest history = ss at depicted
            cases depicted with
            | cons first others =>
              have here : _ = this.snapshot.position := first.offset.symm.trans same
              have older : ∀ f' ∈ fs, f'.fp < this.snapshot.position :=
                fun f' member => Nat.lt_of_lt_of_eq (below f' member) same
              rw [List.filter_cons_of_neg (by simpa using here), filter_depicted others older]
              exact .cons depicts others
          · rw [List.map_cons, List.pairwise_cons]
            exact ⟨fun p member => same ▸ falling.1 p member, falling.2⟩
          · intro f' member
            rcases List.mem_cons.mp member with rfl | older
            · exact Nat.le_refl _
            · exact reached f' (List.mem_cons_of_mem _ older)
        · simp only [if_neg same]
          have ahead : f.fp < this.fp :=
            Nat.lt_of_le_of_ne (reached f List.mem_cons_self) same
          have before : ∀ f' ∈ f :: fs, f'.fp < this.fp := by
            intro f' member
            rcases List.mem_cons.mp member with rfl | older
            · exact ahead
            · exact Nat.lt_trans (below f' older) ahead
          refine ⟨recording.allocated, recording.scopes, ?_, ?_, ?_, placed⟩
          · rw [latest]
            have kept := filter_depicted depicted before
            rw [show (latest history).filter (fun s' =>
              decide (s'.position ≠ this.snapshot.position)) = latest history from kept]
            exact .cons depicts depicted
          · rw [List.map_cons, List.map_cons, List.pairwise_cons, List.pairwise_cons]
            refine ⟨fun p member => ?_, falling⟩
            rcases List.mem_cons.mp member with rfl | older
            · exact ahead
            · exact Nat.lt_trans (falling.1 p older) ahead
          · intro f' member
            rcases List.mem_cons.mp member with rfl | older
            · exact Nat.le_refl _
            · exact Nat.le_of_lt (before f' older)

/-- What one operation keeps. -/
theorem step (recording : Recording pool this history) (operation : Operation) :
    Recording pool (this.step pool operation) (record pool history this operation) := by
  cases operation with
  | pushScope =>
    exact { recording with
      scopes := fun scope member => by
        rcases List.mem_append.mp member with old | new
        · exact recording.scopes scope old
        · obtain rfl := List.mem_singleton.mp new
          exact recording.allocated }
  | leaveScope scope =>
    unfold Builder.step record
    dsimp only
    cases found : this.scopes[scope]? with
    | none => exact recording
    | some saved =>
      show Recording pool (this.leaveScope saved) history
      unfold Builder.leaveScope
      split
      · exact { recording with
          allocated := recording.scopes saved (List.mem_of_getElem? found) }
      · exact recording
  | addLocal jsig initState =>
    have allocated := recording.allocated.addLocal jsig initState
    obtain ⟨inits, locals, localOffset, same⟩ := addLocal_same this jsig initState
    unfold Builder.step record
    dsimp only
    rw [same] at allocated ⊢
    exact { recording with allocated := allocated }
  | store init =>
    obtain ⟨inits, same⟩ := checkStore_same this init
    unfold Builder.step record
    dsimp only
    rw [same]
    exact { recording with }
  | emit length stack =>
    exact { recording with
      reached := fun f member => Nat.le_trans (recording.reached f member) (Nat.le_add_right _ _) }
  | addStackFrame => exact recording.addStackFrame

theorem run (recording : Recording pool this history) (operations : List Operation) :
    Recording pool (this.run pool operations) (records pool this history operations) := by
  induction operations generalizing this history with
  | nil => exact recording
  | cons operation operations ih => exact ih (recording.step operation)

end Recording

end Haxe.Source.Jvm

/-!
## Slots of described local variables

A local variable that is not initialized is described by one unusable slot, whatever its size.
Behind one of two slots every described local variable is one slot too low.
-/

namespace Haxe.Source.Jvm

open Theory StackMapFormat

variable {pool : ConstantPool}

/-- What a slot holds: the type of the initialized local variable that was allocated there. -/
@[grind =]
def typeAt (pool : ConstantPool) (locals : List RecordedLocal) (s : Nat) : VerificationType :=
  match locals.find? fun l => l.ready && decide (l.slot = s) with
  | some l => (ofSignature pool l.jsig).getD .top
  | none => .top

/-- No initialized local variable behind one of two slots that is not. -/
def Aligned (locals : List RecordedLocal) : Prop :=
  locals.Pairwise fun l behind =>
    l.ready = false → signatureSize l.jsig = 2 → behind.ready = false

/-- The slots that a local variable takes. -/
def room (pool : ConstantPool) (l : RecordedLocal) : List VerificationType :=
  if l.ready then slotsOf ((ofSignature pool l.jsig).getD .top)
  else List.replicate (signatureSize l.jsig) .top

def rooms (pool : ConstantPool) (locals : List RecordedLocal) : List VerificationType :=
  locals.flatMap (room pool)

/-- A type takes as many slots as its signature, and only the first one is usable. -/
theorem slotsOf_ofSignature {jsig : JSignature} {t : VerificationType}
    (typed : ofSignature pool jsig = some t) :
    t ≠ .top ∧ slotsOf t = t :: List.replicate (signatureSize jsig - 1) .top := by
  cases jsig with
  | tUninitialized offset =>
    cases offset with
    | none =>
      obtain rfl := Option.some.inj typed
      exact ⟨by simp, rfl⟩
    | some i =>
      obtain rfl := Option.some.inj typed
      exact ⟨by simp, rfl⟩
  | tObjectInner path => cases typed
  | _ =>
    obtain rfl := Option.some.inj typed
    exact ⟨by simp, rfl⟩

theorem slot_append_left {a b : List VerificationType} {s : Nat} (inside : s < a.length) :
    slot (a ++ b) s = slot a s := by
  unfold slot
  rw [List.getElem?_append_left inside]

theorem slot_append_right (a b : List VerificationType) (s : Nat) :
    slot (a ++ b) (a.length + s) = slot b s := by
  unfold slot
  rw [List.getElem?_append_right (Nat.le_add_right _ _), Nat.add_sub_cancel_left]

theorem slot_cons_succ (t : VerificationType) (a : List VerificationType) (s : Nat) :
    slot (t :: a) (s + 1) = slot a s := by
  unfold slot
  rw [List.getElem?_cons_succ]

theorem slot_replicate (n s : Nat) : slot (List.replicate n .top) s = .top := by
  unfold slot
  rw [List.getElem?_replicate]
  split <;> rfl

theorem same_append (a x y : List VerificationType) :
    (∀ s, slot (a ++ x) s = slot (a ++ y) s) ↔ ∀ s, slot x s = slot y s := by
  constructor
  · intro same s
    have here := same (a.length + s)
    rw [slot_append_right, slot_append_right] at here
    exact here
  · intro same s
    by_cases inside : s < a.length
    · rw [slot_append_left inside, slot_append_left inside]
    · obtain ⟨k, rfl⟩ := Nat.exists_eq_add_of_le (Nat.not_lt.mp inside)
      rw [slot_append_right, slot_append_right]
      exact same k

theorem room_ready {l : RecordedLocal} {t : VerificationType} (ready : l.ready = true)
    (typed : l.type pool = some t) :
    room pool l = slotsOf t ∧ ofSignature pool l.jsig = some t := by
  unfold RecordedLocal.type at typed
  rw [if_pos ready] at typed
  unfold room
  rw [if_pos ready, typed]
  exact ⟨rfl, rfl⟩

theorem type_unready {l : RecordedLocal} {t : VerificationType} (unready : l.ready = false)
    (typed : l.type pool = some t) :
    t = .top ∧ room pool l = List.replicate (signatureSize l.jsig) .top := by
  unfold RecordedLocal.type at typed
  rw [unready, if_neg Bool.false_ne_true] at typed
  unfold room
  rw [unready, if_neg Bool.false_ne_true]
  exact ⟨(Option.some.inj typed).symm, rfl⟩

theorem mapM_cons_some {l : RecordedLocal} {locals : List RecordedLocal}
    {ts : List VerificationType} (typed : (l :: locals).mapM (RecordedLocal.type pool) = some ts) :
    ∃ t rest, ts = t :: rest ∧ l.type pool = some t ∧
      locals.mapM (RecordedLocal.type pool) = some rest := by
  rw [List.mapM_cons] at typed
  obtain ⟨t, one, typed⟩ := Option.bind_eq_some_iff.mp typed
  obtain ⟨rest, others, typed⟩ := Option.bind_eq_some_iff.mp typed
  exact ⟨t, rest, (Option.some.inj typed).symm, one, others⟩

/-- Behind a shift all is right exactly if nothing is initialized. -/
theorem slots_shifted_iff {locals : List RecordedLocal} {ts : List VerificationType}
    (typed : locals.mapM (RecordedLocal.type pool) = some ts) (k : Nat) :
    (∀ s, slot (slots ts) s = slot (List.replicate (k + 1) .top ++ rooms pool locals) s) ↔
      ∀ l ∈ locals, l.ready = false := by
  induction locals generalizing ts k with
  | nil =>
    rw [List.mapM_nil] at typed
    obtain rfl := Option.some.inj typed
    refine iff_of_true (fun s => ?_) fun l none => absurd none List.not_mem_nil
    rw [rooms, List.flatMap_nil, List.append_nil, slot_replicate]
    rfl
  | cons l locals ih =>
    obtain ⟨t, rest, rfl, one, others⟩ := mapM_cons_some typed
    unfold slots rooms at ih ⊢
    rw [List.flatMap_cons, List.flatMap_cons]
    cases ready : l.ready with
    | true =>
      obtain ⟨-, signature⟩ := room_ready ready one
      obtain ⟨usable, taken⟩ := slotsOf_ofSignature signature
      refine iff_of_false (fun same => usable ?_) fun all => ?_
      · have front := same 0
        rw [taken] at front
        exact front
      · have impossible := all l List.mem_cons_self
        rw [ready] at impossible
        cases impossible
    | false =>
      obtain ⟨rfl, size⟩ := type_unready ready one
      have wider : ∃ k', k + signatureSize l.jsig = k' + 1 := by
        rcases signatureSize_cases l.jsig with one | two
        · exact ⟨k, by omega⟩
        · exact ⟨k + 1, by omega⟩
      obtain ⟨k', wide⟩ := wider
      have shift : List.replicate (k + 1) VerificationType.top ++
          (room pool l ++ locals.flatMap (room pool)) =
            .top :: (List.replicate (k' + 1) .top ++ locals.flatMap (room pool)) := by
        rw [size, ← List.append_assoc, List.replicate_append_replicate, ← wide,
          Nat.add_right_comm, List.replicate_succ, List.cons_append]
      rw [shift]
      show (∀ s, slot ([.top] ++ rest.flatMap slotsOf) s = slot ([.top] ++
        (List.replicate (k' + 1) .top ++ locals.flatMap (room pool))) s) ↔ _
      rw [same_append, ih others k']
      constructor
      · intro all l' member
        rcases List.mem_cons.mp member with rfl | other
        · exact ready
        · exact all l' other
      · exact fun all l' member => all l' (List.mem_cons_of_mem _ member)

/-- The described slots are the taken ones exactly if the local variables are aligned. -/
theorem slots_iff {locals : List RecordedLocal} {ts : List VerificationType}
    (typed : locals.mapM (RecordedLocal.type pool) = some ts) :
    (∀ s, slot (slots ts) s = slot (rooms pool locals) s) ↔ Aligned locals := by
  induction locals generalizing ts with
  | nil =>
    rw [List.mapM_nil] at typed
    obtain rfl := Option.some.inj typed
    exact iff_of_true (fun s => rfl) .nil
  | cons l locals ih =>
    obtain ⟨t, rest, rfl, one, others⟩ := mapM_cons_some typed
    have rest' := ih others
    have shifted := slots_shifted_iff others 0
    unfold Aligned at rest' ⊢
    rw [List.pairwise_cons]
    unfold slots rooms at rest' shifted ⊢
    rw [List.flatMap_cons, List.flatMap_cons]
    cases ready : l.ready with
    | true =>
      obtain ⟨same, -⟩ := room_ready ready one
      rw [same, same_append, rest']
      simp
    | false =>
      obtain ⟨rfl, size⟩ := type_unready ready one
      rw [size]
      rcases signatureSize_cases l.jsig with single | double
      · rw [single]
        show (∀ s, slot ([VerificationType.top] ++ _) s = slot ([VerificationType.top] ++ _) s) ↔ _
        rw [same_append, rest']
        simp
      · rw [double]
        have both : List.replicate 2 VerificationType.top ++ locals.flatMap (room pool) =
            [.top] ++ (List.replicate (0 + 1) .top ++ locals.flatMap (room pool)) := rfl
        rw [both]
        show (∀ s, slot ([VerificationType.top] ++ _) s = slot ([VerificationType.top] ++ _) s) ↔ _
        rw [same_append, shifted]
        constructor
        · intro unready
          refine ⟨fun l' member _ _ => unready l' member, ?_⟩
          exact List.Pairwise.imp_of_mem (fun _ member _ _ _ => unready _ member)
            (List.pairwise_of_forall (R := fun _ _ => True) fun _ _ => trivial)
        · exact fun pairs l' member => pairs.1 l' member rfl rfl

theorem typeAt_low {locals : List RecordedLocal} {first s : Nat} (placed : Placed first locals)
    (low : s < first) : typeAt pool locals s = .top := by
  have absent : locals.find? (fun l => l.ready && decide (l.slot = s)) = none := by
    induction locals generalizing first with
    | nil => rfl
    | cons l locals ih =>
      obtain ⟨slot, others⟩ := placed
      rw [List.find?_cons_of_neg (by simp; omega)]
      exact ih others (by omega)
  unfold typeAt
  rw [absent]

/-- The taken slots are those that were allocated. -/
theorem rooms_typeAt {locals : List RecordedLocal} {ts : List VerificationType} {first : Nat}
    (placed : Placed first locals) (typed : locals.mapM (RecordedLocal.type pool) = some ts)
    (s : Nat) : slot (rooms pool locals) s = typeAt pool locals (first + s) := by
  induction locals generalizing first ts s with
  | nil => rfl
  | cons l locals ih =>
    obtain ⟨t, rest, rfl, one, others⟩ := mapM_cons_some typed
    obtain ⟨here, behind⟩ := placed
    have skip : ∀ s, s ≠ 0 → typeAt pool (l :: locals) (first + s) =
        typeAt pool locals (first + s) := by
      intro s positive
      unfold typeAt
      rw [List.find?_cons_of_neg (by simp; omega)]
    have further := fun s => ih behind others s
    unfold rooms at further ⊢
    rw [List.flatMap_cons]
    have length : (room pool l).length = signatureSize l.jsig := by
      cases ready : l.ready with
      | true =>
        obtain ⟨same, signature⟩ := room_ready ready one
        obtain ⟨-, taken⟩ := slotsOf_ofSignature signature
        rw [same, taken, List.length_cons, List.length_replicate]
        rcases signatureSize_cases l.jsig with single | double <;> omega
      | false =>
        rw [(type_unready ready one).2, List.length_replicate]
    by_cases inside : s < signatureSize l.jsig
    · rw [slot_append_left (by omega)]
      cases ready : l.ready with
      | true =>
        obtain ⟨same, signature⟩ := room_ready ready one
        obtain ⟨-, taken⟩ := slotsOf_ofSignature signature
        rw [same, taken]
        cases s with
        | zero =>
          unfold typeAt
          rw [List.find?_cons_of_pos (by simp [ready, here])]
          show t = (ofSignature pool l.jsig).getD .top
          rw [signature]
          rfl
        | succ s =>
          rw [slot_cons_succ, slot_replicate, skip _ (Nat.succ_ne_zero s),
            typeAt_low behind (by omega)]
      | false =>
        rw [(type_unready ready one).2, slot_replicate]
        cases s with
        | zero =>
          unfold typeAt
          rw [List.find?_cons_of_neg (by simp [ready])]
          exact (typeAt_low behind (by omega)).symm
        | succ s => rw [skip _ (Nat.succ_ne_zero s), typeAt_low behind (by omega)]
    · obtain ⟨k, rfl⟩ := Nat.exists_eq_add_of_le (Nat.not_lt.mp inside)
      have positive : signatureSize l.jsig + k ≠ 0 := by
        rcases signatureSize_cases l.jsig with single | double <;> omega
      rw [skip _ positive, ← length, slot_append_right, further, length, Nat.add_assoc]

end Haxe.Source.Jvm
