import Mathlib.Data.List.Forall2
import Haxe.Source.Generators.StackMapRecords

/-!
# Runs of the method builder

The arguments of a method stay initialized, and the table of a run is decoded to frames that
depict the latest records.
-/

namespace Haxe.Source.Jvm

open Theory StackMapFormat

variable {pool : ConstantPool}

namespace Builder

variable {this : Builder} {l : Local}

theorem initialized_checkStore (init : Nat) (before : this.initialized l = true) :
    (this.checkStore init).initialized l = true := by
  unfold checkStore
  split
  · rename_i open'
    unfold initialized at before ⊢
    dsimp only
    by_cases same : init = l.init
    · rw [← same, open'] at before
      cases before
    · rw [List.getElem?_set_ne same]
      exact before
  · exact before

theorem initialized_append (before : this.initialized l = true) :
    ((this.inits ++ [none])[l.init]?).join.isSome = true := by
  unfold initialized at before
  cases found : this.inits[l.init]? with
  | none =>
    rw [found] at before
    cases before
  | some init =>
    rw [found] at before
    rw [List.getElem?_append_left (List.getElem?_eq_some_iff.mp found).1, found]
    exact before

theorem initialized_addLocal (jsig : JSignature) (initState : VarInitState)
    (before : this.initialized l = true) : (this.addLocal jsig initState).initialized l = true := by
  have appended := initialized_append before
  unfold addLocal
  cases initState with
  | varWillInit => exact appended
  | varArgument => exact initialized_checkStore _ appended
  | varNeedDefault => exact initialized_checkStore _ appended

theorem initialized_argument (jsig : JSignature) :
    (this.addLocal jsig .varArgument).initialized ⟨this.inits.length, jsig, this.localOffset⟩ =
      true := by
  unfold addLocal checkStore initialized
  dsimp only
  rw [if_pos (by simp)]
  simp

theorem locals_argument (jsig : JSignature) :
    (this.addLocal jsig .varArgument).locals =
      ⟨this.inits.length, jsig, this.localOffset⟩ :: this.locals := by
  obtain ⟨inits, same⟩ := checkStore_same { this with
    inits := this.inits ++ [none]
    locals := ⟨this.inits.length, jsig, this.localOffset⟩ :: this.locals
    localOffset := this.localOffset + signatureSize jsig } this.inits.length
  unfold addLocal
  dsimp only
  rw [same]

theorem initialized_step (operation : Operation) (before : this.initialized l = true) :
    (this.step pool operation).initialized l = true := by
  cases operation with
  | pushScope => exact before
  | leaveScope scope =>
    unfold step
    dsimp only
    cases this.scopes[scope]? with
    | none => exact before
    | some saved =>
      show (this.leaveScope saved).initialized l = true
      unfold leaveScope
      split <;> exact before
  | addLocal jsig initState => exact initialized_addLocal jsig initState before
  | store init => exact initialized_checkStore init before
  | emit length stack => exact before
  | addStackFrame =>
    unfold step addStackFrame
    dsimp only
    split <;> exact before

theorem argumentLocals_step (operation : Operation) :
    (this.step pool operation).argumentLocals = this.argumentLocals := by
  cases operation with
  | pushScope => rfl
  | leaveScope scope =>
    unfold step
    dsimp only
    cases this.scopes[scope]? with
    | none => rfl
    | some saved =>
      show (this.leaveScope saved).argumentLocals = _
      unfold leaveScope
      split <;> rfl
  | addLocal jsig initState =>
    obtain ⟨inits, locals, localOffset, same⟩ := addLocal_same this jsig initState
    unfold step
    dsimp only
    rw [same]
  | store init =>
    obtain ⟨inits, same⟩ := checkStore_same this init
    unfold step
    dsimp only
    rw [same]
  | emit length stack => rfl
  | addStackFrame =>
    unfold step addStackFrame
    dsimp only
    split <;> rfl

/-- The arguments are initialized, and the last one was allocated last. -/
structure HasArguments (this : Builder) (arguments : List JSignature) : Prop where
  signatures : this.argumentLocals.map Local.jsig = arguments.reverse
  initialized : ∀ l ∈ this.argumentLocals, this.initialized l = true

theorem HasArguments.run {arguments : List JSignature} (has : HasArguments this arguments)
    (operations : List Operation) : HasArguments (this.run pool operations) arguments := by
  induction operations generalizing this with
  | nil => exact has
  | cons operation operations ih =>
    refine ih ⟨?_, fun l member => ?_⟩
    · rw [argumentLocals_step]
      exact has.signatures
    · rw [argumentLocals_step] at member
      exact initialized_step operation (has.initialized l member)

/-- What a method has while its arguments are declared. -/
structure Declaring (this : Builder) (declared : List JSignature) : Prop where
  signatures : this.locals.map Local.jsig = declared.reverse
  initialized : ∀ l ∈ this.locals, this.initialized l = true
  allocated : Allocated 0 this.locals.reverse this.localOffset
  scopes : this.scopes = []
  stackFrames : this.stackFrames = []

theorem Declaring.argument {declared : List JSignature} (declaring : Declaring this declared)
    (jsig : JSignature) :
    Declaring (this.addLocal jsig .varArgument) (declared ++ [jsig]) where
  signatures := by
    rw [locals_argument, List.map_cons, declaring.signatures, List.reverse_append]
    rfl
  initialized l member := by
    rw [locals_argument] at member
    rcases List.mem_cons.mp member with rfl | old
    · exact initialized_argument jsig
    · exact initialized_addLocal jsig _ (declaring.initialized l old)
  allocated := declaring.allocated.addLocal jsig _
  scopes := by
    obtain ⟨inits, locals, localOffset, same⟩ := addLocal_same this jsig .varArgument
    rw [same]
    exact declaring.scopes
  stackFrames := by
    obtain ⟨inits, locals, localOffset, same⟩ := addLocal_same this jsig .varArgument
    rw [same]
    exact declaring.stackFrames

theorem Declaring.all {declared : List JSignature} (declaring : Declaring this declared)
    (arguments : List JSignature) :
    Declaring (arguments.foldl (fun this jsig => this.addLocal jsig .varArgument) this)
      (declared ++ arguments) := by
  induction arguments generalizing this declared with
  | nil =>
    rw [List.append_nil]
    exact declaring
  | cons jsig arguments ih =>
    have rest := ih (declaring.argument jsig)
    rw [List.append_assoc] at rest
    exact rest

theorem declaring_start (arguments : List JSignature) :
    Declaring (arguments.foldl (fun this jsig => this.addLocal jsig .varArgument) create)
      arguments := by
  have none : Declaring create [] :=
    ⟨rfl, fun l none => absurd none List.not_mem_nil, rfl, rfl, rfl⟩
  exact none.all arguments

theorem hasArguments_start (arguments : List JSignature) :
    HasArguments (start arguments) arguments :=
  ⟨(declaring_start arguments).signatures, (declaring_start arguments).initialized⟩

theorem recording_start (pool : ConstantPool) (arguments : List JSignature) :
    Recording pool (start arguments) [] where
  allocated := (declaring_start arguments).allocated
  scopes scope member := by
    have none : (start arguments).scopes = [] := (declaring_start arguments).scopes
    rw [none] at member
    cases member
  depicted := by
    have none : (start arguments).stackFrames = [] := (declaring_start arguments).stackFrames
    rw [none]
    exact .nil
  falling := by
    have none : (start arguments).stackFrames = [] := (declaring_start arguments).stackFrames
    rw [none]
    exact .nil
  reached f member := by
    have none : (start arguments).stackFrames = [] := (declaring_start arguments).stackFrames
    rw [none] at member
    cases member
  placed s none := absurd none List.not_mem_nil

/-- The table is relative to the types of the arguments. -/
theorem HasArguments.types {arguments : List JSignature} (has : HasArguments this arguments)
    {lastLocals : List VerificationType}
    (typed : this.getLocalsForStackFrame pool this.argumentLocals = some lastLocals) :
    arguments.mapM (ofSignature pool) = some lastLocals.reverse := by
  have same : this.getLocalsForStackFrame pool this.argumentLocals =
      (this.argumentLocals.map Local.jsig).mapM (ofSignature pool) := by
    unfold getLocalsForStackFrame
    rw [mapM_map]
    have all := has.initialized
    generalize this.argumentLocals = locals at all
    induction locals with
    | nil => rfl
    | cons l locals ih =>
      rw [List.mapM_cons, List.mapM_cons, if_pos (all l List.mem_cons_self),
        ih fun l' member => all l' (List.mem_cons_of_mem _ member)]
  rw [same, has.signatures] at typed
  have forwards := mapM_reverse typed
  rw [List.reverse_reverse] at forwards
  exact forwards

end Builder

/-- The table of a run is decoded to the frames of the latest records, in order. -/
theorem decode_run (arguments : List JSignature) (operations : List Operation)
    {entries : List StackMapFrame} {bytes : List Nat}
    (table : ((Builder.start arguments).run pool operations).getStackMapTable pool = some entries)
    (exported : writeStackMapTable entries = some bytes) :
    ∃ types frames, arguments.mapM (ofSignature pool) = some types ∧
      decode types bytes = some frames ∧ List.Forall₂ (Depicts pool)
        (latest (records pool (Builder.start arguments) [] operations)).reverse frames := by
  have recording := (Builder.recording_start pool arguments).run operations
  have has : ((Builder.start arguments).run pool operations).HasArguments arguments :=
    (Builder.hasArguments_start arguments).run operations
  generalize (Builder.start arguments).run pool operations = this at table recording has
  unfold Builder.getStackMapTable at table
  obtain ⟨lastLocals, typed, table⟩ := Option.bind_eq_some_iff.mp table
  obtain rfl := Option.some.inj table
  have growing : (this.stackFrames.reverse.map StackFrame.fp).Pairwise (· < ·) := by
    rw [List.map_reverse, List.pairwise_reverse]
    exact recording.falling
  obtain ⟨described, distances⟩ := @frames_entries (-1) lastLocals 0 this.stackFrames.reverse rfl
    growing fun f _ => Nat.zero_le f.fp
  have read := reads_table distances exported
  refine ⟨lastLocals.reverse, this.stackFrames.reverse.map StackFrame.described,
    has.types typed, ?_, ?_⟩
  · unfold decode
    rw [read]
    exact described
  · rw [List.map_reverse, List.forall₂_reverse_iff]
    exact recording.depicted

end Haxe.Source.Jvm
