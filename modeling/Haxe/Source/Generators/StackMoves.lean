import Haxe.Source.Generators.JvmCode
import Haxe.Theory.OperandStack

/-!
# Slots of the operand stack

The methods of the opcode builder that duplicate, remove and exchange values, against the stack of
slots that the JVM has, and the size that `jvm_stack` keeps.
-/

namespace Haxe.Source.Jvm

open Theory.OperandStack

abbrev StackValue := Value signatureSize

theorem two_slots_iff (t : JSignature) : signatureSize t = 2 ↔ t = .tLong ∨ t = .tDouble := by
  cases t <;> simp [signatureSize]

/-- The methods that duplicate, remove and exchange values. -/
inductive StackMethod where
  | pop | dup | dupX1 | dupX2 | swap
  deriving DecidableEq, Repr

namespace StackMethod

def method : StackMethod → Method
  | pop => .pop
  | dup => .dup
  | dupX1 => .dupX1
  | dupX2 => .dupX2
  | swap => .swap

/-- What the method does to whole values. `dup_x2` puts the top below the next two slots. -/
def onValues : StackMethod → List StackValue → Option (List StackValue)
  | pop, _ :: values => some values
  | dup, v1 :: values => some (v1 :: v1 :: values)
  | dupX1, v1 :: v2 :: values => some (v1 :: v2 :: v1 :: values)
  | dupX2, v1 :: v2 :: values =>
    if signatureSize v2.type = 2 then some (v1 :: v2 :: v1 :: values)
    else match values with
      | v3 :: values => some (v1 :: v2 :: v3 :: v1 :: values)
      | [] => none
  | swap, v1 :: v2 :: values => some (v2 :: v1 :: values)
  | _, _ => none

/-- The values that are looked past, and those that are exchanged, take one slot each. -/
def KeepsWhole : StackMethod → List JSignature → Prop
  | dupX1, _ :: t2 :: _ => signatureSize t2 = 1
  | swap, t1 :: t2 :: _ => signatureSize t1 = 1 ∧ signatureSize t2 = 1
  | _, _ => True

end StackMethod

def JOpcode.instruction : JOpcode → Option Instruction
  | .opPop => some .pop
  | .opPop2 => some .pop2
  | .opDup => some .dup
  | .opDupX1 => some .dupX1
  | .opDupX2 => some .dupX2
  | .opDup2 => some .dup2
  | .opDup2X1 => some .dup2X1
  | .opDup2X2 => some .dup2X2
  | .opSwap => some .swap
  | _ => none

section Effects

variable (pool : CodePool) (this : CodeBuilder) (m : StackMethod)

/-- The method emits an opcode. -/
def Succeeds : Prop := ∃ opcode, (this.call pool m.method).ops = this.ops ++ [opcode]

/-- The opcode does to the slots of any values of the types on the stack what the method does to
the values, and the types that are recorded behind it are those of the values. -/
def MatchesTypes : Prop :=
  ∃ opcode instruction, (this.call pool m.method).ops = this.ops ++ [opcode] ∧
    opcode.instruction = some instruction ∧
      ∀ values : List StackValue, values.map Value.type = this.stack.stack →
        ∃ after, m.onValues values = some after ∧
          after.map Value.type = (this.call pool m.method).stack.stack ∧
            instruction.execute (slotsOf values) = some (slotsOf after)

end Effects

/-- Everything that is done to the `jvm_stack` of a builder: `start_branch` keeps the stack for the
functions that it returns, and `replace_top` changes the type on the top. -/
inductive StackUse where
  | call (m : Method)
  | save
  | restore (branch : Nat)
  | replace (jsig : JSignature)

structure StackRun where
  code : CodeBuilder
  branches : List (List JSignature × Int)

namespace StackRun

def start : StackRun := ⟨.create, []⟩

/-- `replace`, which raises `EmptyStack`. -/
def replace (this : JvmStack) (jsig : JSignature) : JvmStack :=
  let popped := this.popAll [jsig]
  if popped.2 then popped.1.push jsig else popped.1

/-- The function that a `start_branch` returned is called. -/
def restore (this : StackRun) (branch : Nat) : StackRun :=
  match this.branches[branch]? with
  | some saved => { this with code := { this.code with stack := this.code.stack.restore saved } }
  | none => this

def step (pool : CodePool) (this : StackRun) : StackUse → StackRun
  | .call m => { this with code := this.code.call pool m }
  | .save =>
    { this with branches := this.branches ++ [(this.code.stack.stack, this.code.stack.stackSize)] }
  | .restore branch => this.restore branch
  | .replace jsig => { this with code := { this.code with stack := replace this.code.stack jsig } }

def run (pool : CodePool) (uses : List StackUse) : StackRun := uses.foldl (step pool) start

end StackRun

end Haxe.Source.Jvm

/-!
## The size of the operand stack

Every method does at most one opcode, so that the size that `jvm_stack` keeps is the number of the
slots in every run, and never more than the size that is reported.
-/

namespace Haxe.Source.Jvm

open Theory.OperandStack

/-- A method does nothing, or one opcode. -/
def OneOp (this after : CodeBuilder) : Prop :=
  after = this ∨ ∃ o length expect push, after = this.op o length expect push

theorem oneOp (this : CodeBuilder) (o : JOpcode) (length : Nat) (expect push : List JSignature) :
    OneOp this (this.op o length expect push) := .inr ⟨o, length, expect, push, rfl⟩

theorem withTop_oneOp (this : CodeBuilder) {f : JSignature → CodeBuilder}
    (each : ∀ top, OneOp this (f top)) : OneOp this (this.withTop f) := by
  unfold CodeBuilder.withTop
  cases this.stack.stack.head? with
  | none => exact .inl rfl
  | some top => exact each top

theorem withItems_oneOp (this : CodeBuilder) {i : Nat} {f : List JSignature → CodeBuilder}
    (each : ∀ tl, OneOp this (f tl)) : OneOp this (this.withItems i f) := by
  unfold CodeBuilder.withItems
  cases this.stack.getStackItems i with
  | none => exact .inl rfl
  | some tl => exact each tl

theorem slotOp_oneOp (this : CodeBuilder) (op0 op1 op2 op3 op : JOpcode) (opw : OpWide) (i : Int)
    (tl tr : List JSignature) : OneOp this (this.slotOp op0 op1 op2 op3 op opw i tl tr) := by
  unfold CodeBuilder.slotOp CodeBuilder.opMaybeWide
  repeat' split
  all_goals first
    | exact oneOp ..
    | exact .inl rfl

theorem iinc_oneOp (this : CodeBuilder) (index i : Int) : OneOp this (this.iinc index i) := by
  unfold CodeBuilder.iinc
  split
  · exact oneOp ..
  · exact .inl rfl
  · exact .inl rfl
  · exact oneOp ..

theorem ldc_oneOp (this : CodeBuilder) (offset : Int) (vt : JSignature) :
    OneOp this (this.ldc offset vt) := by
  unfold CodeBuilder.ldc
  split <;> exact oneOp ..

theorem dupX1_oneOp (this : CodeBuilder) : OneOp this this.dupX1 := by
  apply withItems_oneOp
  intro tl
  dsimp only
  split <;> exact oneOp ..

theorem dupX2_oneOp (this : CodeBuilder) : OneOp this this.dupX2 := by
  apply withItems_oneOp
  intro tl
  split
  · exact oneOp ..
  · exact oneOp ..
  · exact oneOp ..
  · exact oneOp ..
  · exact .inl rfl

theorem call_oneOp (pool : CodePool) (this : CodeBuilder) (m : Method) :
    OneOp this (this.call pool m) := by
  cases m with
  | iload | lload | fload | dload | aload | istore | lstore | fstore | dstore | astore =>
    exact slotOp_oneOp ..
  | iinc index i => exact iinc_oneOp this index i
  | athrow | monitorenter | monitorexit | checkcastSig | checkcast | instanceof | pop | dup =>
    exact withTop_oneOp this fun top => oneOp ..
  | dupX1 => exact dupX1_oneOp this
  | dupX2 => exact dupX2_oneOp this
  | swap => exact withItems_oneOp this fun tl => oneOp ..
  | ldc offset vt => exact ldc_oneOp this offset vt
  | sconst t offset => exact ldc_oneOp this offset t
  | _ => exact oneOp ..

/-- The size is the number of slots, and at most the one that is reported. -/
structure JvmStack.Counted (this : JvmStack) : Prop where
  counted : this.stackSize = totalSlots signatureSize this.stack
  bounded : this.stackSize ≤ this.maxStackSize

/-- Counted, and reporting no less than before. -/
def JvmStack.Grows (this after : JvmStack) : Prop :=
  (this.Counted → after.Counted) ∧ this.maxStackSize ≤ after.maxStackSize

theorem JvmStack.Grows.refl (this : JvmStack) : this.Grows this := ⟨id, Int.le_refl _⟩

theorem JvmStack.Grows.trans {this between after : JvmStack} (first : this.Grows between)
    (second : between.Grows after) : this.Grows after :=
  ⟨second.1 ∘ first.1, Int.le_trans first.2 second.2⟩

theorem push_grows (this : JvmStack) (js : JSignature) : this.Grows (this.push js) := by
  unfold JvmStack.push
  constructor
  · intro counted
    have size := counted.counted
    constructor
    · show this.stackSize + signatureSize js = _
      rw [totalSlots_cons, size]
      omega
    · dsimp only
      split <;> omega
  · dsimp only
    split <;> omega

theorem pushes_grow (push : List JSignature) (this : JvmStack) :
    this.Grows (push.foldl JvmStack.push this) := by
  induction push generalizing this with
  | nil => exact .refl this
  | cons js push ih => exact (push_grows this js).trans (ih (this.push js))

theorem popAll_grows (expect : List JSignature) (this : JvmStack) :
    this.Grows (this.popAll expect).1 := by
  induction expect generalizing this with
  | nil => exact .refl this
  | cons t expect ih =>
    obtain ⟨stack, size, most⟩ := this
    cases stack with
    | nil => exact .refl _
    | cons js stack =>
      have one : JvmStack.Grows ⟨js :: stack, size, most⟩ ⟨stack, size - signatureSize js, most⟩ := by
        refine ⟨fun counted => ⟨?_, ?_⟩, Int.le_refl _⟩
        · have size := counted.counted
          rw [totalSlots_cons] at size
          dsimp only at size ⊢
          omega
        · have bounded := counted.bounded
          dsimp only at bounded ⊢
          omega
      exact one.trans (ih ⟨stack, size - signatureSize js, most⟩)

theorem op_grows (this : CodeBuilder) (o : JOpcode) (length : Nat)
    (expect push : List JSignature) :
    this.stack.Grows (this.op o length expect push).stack := by
  show this.stack.Grows (if (this.stack.popAll expect).2 then _ else _)
  split
  · exact (popAll_grows expect this.stack).trans (pushes_grow push.reverse _)
  · exact popAll_grows expect this.stack

theorem call_grows (pool : CodePool) (this : CodeBuilder) (m : Method) :
    this.stack.Grows (this.call pool m).stack := by
  obtain same | ⟨o, length, expect, push, same⟩ := call_oneOp pool this m
  · rw [same]
    exact .refl _
  · rw [same]
    exact op_grows this o length expect push

theorem replace_grows (this : JvmStack) (jsig : JSignature) :
    this.Grows (StackRun.replace this jsig) := by
  unfold StackRun.replace
  dsimp only
  split
  · exact (popAll_grows [jsig] this).trans (push_grows _ jsig)
  · exact popAll_grows [jsig] this

namespace StackRun

/-- The stack is counted, and so are those that a branch goes back to. -/
structure Counted (this : StackRun) : Prop where
  stack : this.code.stack.Counted
  branches : ∀ saved ∈ this.branches,
    saved.2 = totalSlots signatureSize saved.1 ∧ saved.2 ≤ this.code.stack.maxStackSize

theorem of_grows {this : StackRun} (counted : this.Counted) {code : CodeBuilder}
    (grows : this.code.stack.Grows code.stack) : Counted { this with code := code } where
  stack := grows.1 counted.stack
  branches saved member :=
    ⟨(counted.branches saved member).1, Int.le_trans (counted.branches saved member).2 grows.2⟩

theorem step_counted (pool : CodePool) {this : StackRun} (counted : this.Counted)
    (use : StackUse) : (this.step pool use).Counted ∧
      this.code.stack.maxStackSize ≤ (this.step pool use).code.stack.maxStackSize := by
  cases use with
  | call m =>
    have grows := call_grows pool this.code m
    exact ⟨of_grows counted grows, grows.2⟩
  | save =>
    refine ⟨⟨counted.stack, ?_⟩, Int.le_refl _⟩
    intro saved member
    obtain earlier | rfl := List.mem_append.mp member |>.imp_right List.mem_singleton.mp
    · exact counted.branches saved earlier
    · exact ⟨counted.stack.counted, counted.stack.bounded⟩
  | restore branch =>
    show (this.restore branch).Counted ∧ _ ≤ (this.restore branch).code.stack.maxStackSize
    unfold restore
    split
    · rename_i saved found
      have member := List.mem_of_getElem? found
      have kept := counted.branches saved member
      exact ⟨⟨⟨kept.1, kept.2⟩, counted.branches⟩, Int.le_refl _⟩
    · exact ⟨counted, Int.le_refl _⟩
  | replace jsig =>
    have grows := replace_grows this.code.stack jsig
    exact ⟨of_grows counted grows, grows.2⟩

theorem start_counted : start.Counted where
  stack := ⟨rfl, Int.le_refl _⟩
  branches := fun _ member => absurd member List.not_mem_nil

theorem steps_counted (pool : CodePool) (uses : List StackUse) {this : StackRun}
    (counted : this.Counted) : (uses.foldl (step pool) this).Counted ∧
      this.code.stack.maxStackSize ≤ (uses.foldl (step pool) this).code.stack.maxStackSize := by
  induction uses generalizing this with
  | nil => exact ⟨counted, Int.le_refl _⟩
  | cons use uses ih =>
    have first := step_counted pool counted use
    have others := ih first.1
    exact ⟨others.1, Int.le_trans first.2 others.2⟩

end StackRun

end Haxe.Source.Jvm

/-!
## Moves of whole values

When the opcode of a method moves whole values, one method after the other.
-/

namespace Haxe.Source.Jvm

open Theory.OperandStack

theorem popAll_spec (this : JvmStack) (expect : List JSignature)
    (enough : expect.length ≤ this.stack.length) :
    (this.popAll expect).2 = true ∧
      (this.popAll expect).1.stack = this.stack.drop expect.length := by
  induction expect generalizing this with
  | nil => exact ⟨rfl, rfl⟩
  | cons t expect ih =>
    obtain ⟨stack, size, most⟩ := this
    cases stack with
    | nil => cases enough
    | cons js stack => exact ih ⟨stack, size - signatureSize js, most⟩ (Nat.le_of_succ_le_succ enough)

theorem pushed_stack (this : JvmStack) (push : List JSignature) :
    (push.reverse.foldl JvmStack.push this).stack = push ++ this.stack := by
  rw [List.foldl_reverse]
  induction push with
  | nil => rfl
  | cons t push ih =>
    rw [List.foldr_cons]
    exact congrArg (t :: ·) ih

/-- What is on the stack behind an opcode that finds what it expects. -/
theorem op_stack (this : CodeBuilder) (o : JOpcode) (length : Nat) (expect : List JSignature)
    (push : List JSignature) (enough : expect.length ≤ this.stack.stack.length) :
    (this.op o length expect push).stack.stack =
      push ++ this.stack.stack.drop expect.length := by
  obtain ⟨popped, behind⟩ := popAll_spec this.stack expect enough
  show (if (this.stack.popAll expect).2 then _ else _ : JvmStack).stack = _
  rw [if_pos popped, pushed_stack, behind]

theorem op_ops (this : CodeBuilder) (o : JOpcode) (length : Nat) (expect push : List JSignature) :
    (this.op o length expect push).ops = this.ops ++ [o] := rfl

section Methods

variable {pool : CodePool} {this : CodeBuilder} {m : StackMethod}

/-- The opcode that a method emits decides. -/
theorem matches_iff {o : JOpcode} {i : Instruction} {expect push rest : List JSignature}
    (called : this.call pool m.method = this.op o 1 expect push) (known : o.instruction = some i)
    (e : this.stack.stack = expect ++ rest) :
    MatchesTypes pool this m ↔
      ∀ values : List StackValue, values.map Value.type = expect ++ rest →
        ∃ after, m.onValues values = some after ∧ after.map Value.type = push ++ rest ∧
          i.execute (slotsOf values) = some (slotsOf after) := by
  have recorded := op_stack this o 1 expect push (by simp [e])
  rw [e, List.drop_left] at recorded
  unfold MatchesTypes
  rw [called, recorded, op_ops, e]
  constructor
  · rintro ⟨o', i', emitted, known', moves⟩
    obtain rfl := List.singleton_inj.mp (List.append_cancel_left emitted)
    rw [known] at known'
    obtain rfl := Option.some.inj known'
    exact moves
  · intro moves
    exact ⟨o, i, rfl, known, moves⟩

theorem not_succeeds (same : this.call pool m.method = this) : ¬ Succeeds pool this m := by
  rintro ⟨o, emitted⟩
  rw [same] at emitted
  have longer := congrArg List.length emitted
  rw [List.length_append, List.length_singleton] at longer
  omega

/-- Values of some types. -/
theorem values_cons {values : List StackValue} {t : JSignature} {ts : List JSignature}
    (typed : values.map Value.type = t :: ts) :
    ∃ v vs, values = v :: vs ∧ v.type = t ∧ vs.map Value.type = ts :=
  List.map_eq_cons_iff.mp typed

theorem withTop_cons {f : JSignature → CodeBuilder} {t : JSignature} {ts : List JSignature}
    (e : this.stack.stack = t :: ts) : this.withTop f = f t := by
  rw [CodeBuilder.withTop, e]
  rfl

theorem withTop_nil {f : JSignature → CodeBuilder} (e : this.stack.stack = []) :
    this.withTop f = this := by
  rw [CodeBuilder.withTop, e]
  rfl

theorem withItems_enough {f : List JSignature → CodeBuilder} {i : Nat}
    (enough : i ≤ this.stack.stack.length) :
    this.withItems i f = f (this.stack.stack.take i) := by
  rw [CodeBuilder.withItems, JvmStack.getStackItems, if_pos enough]
  rfl

theorem withItems_short {f : List JSignature → CodeBuilder} {i : Nat}
    (short : this.stack.stack.length < i) : this.withItems i f = this := by
  rw [CodeBuilder.withItems, JvmStack.getStackItems, if_neg (Nat.not_le.mpr short)]
  rfl

theorem pop_matches (succeeds : Succeeds pool this .pop) : MatchesTypes pool this .pop := by
  cases e : this.stack.stack with
  | nil => exact absurd succeeds (not_succeeds (withTop_nil e))
  | cons t ts =>
    have called : this.call pool StackMethod.pop.method =
        this.op (if signatureSize t = 1 then .opPop else .opPop2) 1 [t] [] := withTop_cons e
    obtain one | two := signatureSize_cases t
    · rw [if_pos one] at called
      apply (matches_iff called rfl e).mpr
      intro values typed
      obtain ⟨v, vs, rfl, rfl, rest⟩ := values_cons typed
      obtain ⟨a, slots⟩ := v.one_slot one
      refine ⟨vs, rfl, rest, ?_⟩
      rw [slotsOf_cons, slots]
      rfl
    · rw [if_neg (by omega)] at called
      apply (matches_iff called rfl e).mpr
      intro values typed
      obtain ⟨v, vs, rfl, rfl, rest⟩ := values_cons typed
      obtain ⟨a, b, slots⟩ := v.two_slots two
      refine ⟨vs, rfl, rest, ?_⟩
      rw [slotsOf_cons, slots]
      rfl

theorem dup_matches (succeeds : Succeeds pool this .dup) : MatchesTypes pool this .dup := by
  cases e : this.stack.stack with
  | nil => exact absurd succeeds (not_succeeds (withTop_nil e))
  | cons t ts =>
    have called : this.call pool StackMethod.dup.method =
        this.op (if t = .tLong ∨ t = .tDouble then .opDup2 else .opDup) 1 [] [t] := withTop_cons e
    obtain one | two := signatureSize_cases t
    · have narrow : ¬ (t = .tLong ∨ t = .tDouble) := fun wide => by
        rw [← two_slots_iff, one] at wide
        cases wide
      rw [if_neg narrow] at called
      apply (matches_iff called rfl e).mpr
      intro values typed
      obtain ⟨v, vs, rfl, rfl, rest⟩ := values_cons typed
      obtain ⟨a, slots⟩ := v.one_slot one
      refine ⟨v :: v :: vs, rfl, congrArg (fun ts => v.type :: v.type :: ts) rest, ?_⟩
      simp only [slotsOf_cons, slots]
      rfl
    · rw [if_pos ((two_slots_iff t).mp two)] at called
      apply (matches_iff called rfl e).mpr
      intro values typed
      obtain ⟨v, vs, rfl, rfl, rest⟩ := values_cons typed
      obtain ⟨a, b, slots⟩ := v.two_slots two
      refine ⟨v :: v :: vs, rfl, congrArg (fun ts => v.type :: v.type :: ts) rest, ?_⟩
      simp only [slotsOf_cons, slots]
      rfl

/-- Two values of some types. -/
theorem values_two {values : List StackValue} {t1 t2 : JSignature} {ts : List JSignature}
    (typed : values.map Value.type = t1 :: t2 :: ts) :
    ∃ v1 v2 vs, values = v1 :: v2 :: vs ∧ v1.type = t1 ∧ v2.type = t2 ∧
      vs.map Value.type = ts := by
  obtain ⟨v1, behind, rfl, first, typed⟩ := values_cons typed
  obtain ⟨v2, vs, rfl, second, rest⟩ := values_cons typed
  exact ⟨v1, v2, vs, rfl, first, second, rest⟩

/-- Values of given types. -/
theorem samples_typed (t1 t2 : JSignature) (ts : List JSignature) :
    (sample signatureSize 0 t1 :: sample signatureSize 2 t2 ::
      ts.map (sample signatureSize 4)).map Value.type = t1 :: t2 :: ts := by
  rw [List.map_cons, List.map_cons, List.map_map]
  exact congrArg (fun ts => t1 :: t2 :: ts) (List.map_id ts)

theorem sample_one {t : JSignature} {first : Nat} (one : signatureSize t = 1) :
    (sample signatureSize first t).slots = [BitVec.ofNat 32 first] := by
  rw [slots_sample, one]
  rfl

theorem sample_two {t : JSignature} {first : Nat} (two : signatureSize t = 2) :
    (sample signatureSize first t).slots =
      [BitVec.ofNat 32 first, BitVec.ofNat 32 (first + 1)] := by
  rw [slots_sample, two]
  rfl

theorem dupX1_matches_iff (succeeds : Succeeds pool this .dupX1) :
    MatchesTypes pool this .dupX1 ↔ StackMethod.dupX1.KeepsWhole this.stack.stack := by
  match e : this.stack.stack with
  | [] | [_] => exact absurd succeeds (not_succeeds (withItems_short (by simp [e])))
  | t1 :: t2 :: ts =>
    have called : this.call pool StackMethod.dupX1.method =
        this.op (if signatureSize t1 = 2 then .opDup2X1 else .opDupX1) 1 [t1, t2]
          [t1, t2, t1] := by
      show this.dupX1 = _
      rw [CodeBuilder.dupX1, withItems_enough (by simp [e]), e]
      cases t1 <;> rfl
    show _ ↔ signatureSize t2 = 1
    obtain one | two := signatureSize_cases t1
    · rw [if_neg (by omega)] at called
      rw [matches_iff called rfl e]
      constructor
      · intro moves
        obtain wide | narrow := (signatureSize_cases t2).symm
        · obtain ⟨after, whole, _, moved⟩ := moves _ (samples_typed t1 t2 ts)
          obtain rfl := Option.some.inj whole
          simp only [slotsOf_cons, sample_one one, sample_two wide] at moved
          have same := List.cons.inj (List.cons.inj (List.cons.inj (Option.some.inj moved)).2).2
          exact absurd same.1 (by decide)
        · exact narrow
      · intro narrow values typed
        obtain ⟨v1, v2, vs, rfl, rfl, rfl, rest⟩ := values_two typed
        obtain ⟨a, slots⟩ := v1.one_slot one
        obtain ⟨b, slots'⟩ := v2.one_slot narrow
        refine ⟨v1 :: v2 :: v1 :: vs, rfl, by simp [rest], ?_⟩
        simp only [slotsOf_cons, slots, slots']
        rfl
    · rw [if_pos two] at called
      rw [matches_iff called rfl e]
      constructor
      · intro moves
        obtain wide | narrow := (signatureSize_cases t2).symm
        · obtain ⟨after, whole, _, moved⟩ := moves _ (samples_typed t1 t2 ts)
          obtain rfl := Option.some.inj whole
          simp only [slotsOf_cons, sample_two two, sample_two wide] at moved
          have same := List.cons.inj (List.cons.inj (List.cons.inj (List.cons.inj
            (Option.some.inj moved)).2).2).2
          exact absurd same.1 (by decide)
        · exact narrow
      · intro narrow values typed
        obtain ⟨v1, v2, vs, rfl, rfl, rfl, rest⟩ := values_two typed
        obtain ⟨a, b, slots⟩ := v1.two_slots two
        obtain ⟨c, slots'⟩ := v2.one_slot narrow
        refine ⟨v1 :: v2 :: v1 :: vs, rfl, by simp [rest], ?_⟩
        simp only [slotsOf_cons, slots, slots']
        rfl

theorem swap_matches_iff (succeeds : Succeeds pool this .swap) :
    MatchesTypes pool this .swap ↔ StackMethod.swap.KeepsWhole this.stack.stack := by
  match e : this.stack.stack with
  | [] | [_] => exact absurd succeeds (not_succeeds (withItems_short (by simp [e])))
  | t1 :: t2 :: ts =>
    have called : this.call pool StackMethod.swap.method =
        this.op .opSwap 1 [t1, t2] [t2, t1] := by
      show this.withItems 2 _ = _
      rw [withItems_enough (by simp [e]), e]
      rfl
    show _ ↔ signatureSize t1 = 1 ∧ signatureSize t2 = 1
    rw [matches_iff called rfl e]
    constructor
    · intro moves
      obtain ⟨after, whole, _, moved⟩ := moves _ (samples_typed t1 t2 ts)
      obtain rfl := Option.some.inj whole
      obtain one | two := signatureSize_cases t1
      · obtain narrow | wide := signatureSize_cases t2
        · exact ⟨one, narrow⟩
        · simp only [slotsOf_cons, sample_one one, sample_two wide] at moved
          have same := List.cons.inj (List.cons.inj (Option.some.inj moved)).2
          exact absurd same.1 (by decide)
      · obtain narrow | wide := signatureSize_cases t2
        · simp only [slotsOf_cons, sample_two two, sample_one narrow] at moved
          have same := List.cons.inj (Option.some.inj moved)
          exact absurd same.1 (by decide)
        · simp only [slotsOf_cons, sample_two two, sample_two wide] at moved
          have same := List.cons.inj (Option.some.inj moved)
          exact absurd same.1 (by decide)
    · intro narrow values typed
      obtain ⟨v1, v2, vs, rfl, rfl, rfl, rest⟩ := values_two typed
      obtain ⟨a, slots⟩ := v1.one_slot narrow.1
      obtain ⟨b, slots'⟩ := v2.one_slot narrow.2
      refine ⟨v2 :: v1 :: vs, rfl, by simp [rest], ?_⟩
      simp only [slotsOf_cons, slots, slots']
      rfl

/-- The choice of `dup_x2` when the value below takes two slots. -/
theorem dupX2_below_wide {t1 t2 t3 : JSignature} {ts : List JSignature}
    (e : this.stack.stack = t1 :: t2 :: t3 :: ts) (wide : signatureSize t2 = 2) :
    this.call pool StackMethod.dupX2.method =
      this.op (if signatureSize t1 = 2 then .opDup2X2 else .opDupX2) 1 [t1, t2] [t1, t2, t1] := by
  show this.dupX2 = _
  rw [CodeBuilder.dupX2, withItems_enough (by simp [e]), e]
  obtain one | two := signatureSize_cases t1
  · simp [one, wide]
  · simp [two, wide]

theorem dupX2_below_narrow {t1 t2 t3 : JSignature} {ts : List JSignature}
    (e : this.stack.stack = t1 :: t2 :: t3 :: ts) (narrow : signatureSize t2 = 1) :
    this.call pool StackMethod.dupX2.method =
      if signatureSize t3 = 1 then
        this.op (if signatureSize t1 = 2 then .opDup2X2 else .opDupX2) 1 [t1, t2, t3]
          [t1, t2, t3, t1]
      else this := by
  show this.dupX2 = _
  rw [CodeBuilder.dupX2, withItems_enough (by simp [e]), e]
  obtain one | two := signatureSize_cases t1
  · obtain last | last := signatureSize_cases t3
    · simp [one, narrow, last]
    · simp [one, narrow, last]
  · obtain last | last := signatureSize_cases t3
    · simp [two, narrow, last]
    · simp [two, narrow, last]

theorem dupX2_matches (succeeds : Succeeds pool this .dupX2) : MatchesTypes pool this .dupX2 := by
  match e : this.stack.stack with
  | [] | [_] | [_, _] => exact absurd succeeds (not_succeeds (withItems_short (by simp [e])))
  | t1 :: t2 :: t3 :: ts =>
    obtain narrow | wide := signatureSize_cases t2
    · have called : this.call pool StackMethod.dupX2.method = _ := dupX2_below_narrow e narrow
      obtain last | last := signatureSize_cases t3
      · rw [if_pos last] at called
        have three (values : List StackValue)
            (typed : values.map Value.type = t1 :: t2 :: t3 :: ts) :
            ∃ v1 v2 v3 vs b c, values = v1 :: v2 :: v3 :: vs ∧ v1.type = t1 ∧
              v2.slots = [b] ∧ v3.slots = [c] ∧
                StackMethod.dupX2.onValues values = some (v1 :: v2 :: v3 :: v1 :: vs) ∧
                  (v1 :: v2 :: v3 :: v1 :: vs).map Value.type = t1 :: t2 :: t3 :: t1 :: ts := by
          obtain ⟨v1, v2, behind, rfl, rfl, rfl, further⟩ := values_two typed
          obtain ⟨v3, vs, rfl, rfl, rest⟩ := values_cons further
          obtain ⟨b, second⟩ := v2.one_slot narrow
          obtain ⟨c, third⟩ := v3.one_slot last
          refine ⟨v1, v2, v3, vs, b, c, rfl, rfl, second, third, ?_, by simp [rest]⟩
          exact if_neg (by omega)
        obtain one | two := signatureSize_cases t1
        · rw [if_neg (by omega)] at called
          apply (matches_iff called rfl e).mpr
          intro values typed
          obtain ⟨v1, v2, v3, vs, b, c, rfl, rfl, second, third, whole, types⟩ := three values typed
          obtain ⟨a, first⟩ := v1.one_slot one
          refine ⟨_, whole, types, ?_⟩
          simp only [slotsOf_cons, first, second, third]
          rfl
        · rw [if_pos two] at called
          apply (matches_iff called rfl e).mpr
          intro values typed
          obtain ⟨v1, v2, v3, vs, b, c, rfl, rfl, second, third, whole, types⟩ := three values typed
          obtain ⟨a, a', first⟩ := v1.two_slots two
          refine ⟨_, whole, types, ?_⟩
          simp only [slotsOf_cons, first, second, third]
          rfl
      · rw [if_neg (by omega)] at called
        exact absurd succeeds (not_succeeds called)
    · have called : this.call pool StackMethod.dupX2.method = _ := dupX2_below_wide e wide
      have two_values (values : List StackValue)
          (typed : values.map Value.type = t1 :: t2 :: t3 :: ts) :
          ∃ v1 v2 vs b c, values = v1 :: v2 :: vs ∧ v1.type = t1 ∧ v2.slots = [b, c] ∧
            StackMethod.dupX2.onValues values = some (v1 :: v2 :: v1 :: vs) ∧
              (v1 :: v2 :: v1 :: vs).map Value.type = t1 :: t2 :: t1 :: t3 :: ts := by
        obtain ⟨v1, v2, vs, rfl, rfl, rfl, rest⟩ := values_two typed
        obtain ⟨b, c, second⟩ := v2.two_slots wide
        exact ⟨v1, v2, vs, b, c, rfl, rfl, second, if_pos wide, by simp [rest]⟩
      obtain one | two := signatureSize_cases t1
      · rw [if_neg (by omega)] at called
        apply (matches_iff called rfl e).mpr
        intro values typed
        obtain ⟨v1, v2, vs, b, c, rfl, rfl, second, whole, types⟩ := two_values values typed
        obtain ⟨a, first⟩ := v1.one_slot one
        refine ⟨_, whole, types, ?_⟩
        simp only [slotsOf_cons, first, second]
        rfl
      · rw [if_pos two] at called
        apply (matches_iff called rfl e).mpr
        intro values typed
        obtain ⟨v1, v2, vs, b, c, rfl, rfl, second, whole, types⟩ := two_values values typed
        obtain ⟨a, a', first⟩ := v1.two_slots two
        refine ⟨_, whole, types, ?_⟩
        simp only [slotsOf_cons, first, second]
        rfl

/-- A method moves whole values exactly if those that it counts as one slot take one. -/
theorem matchesTypes_iff (succeeds : Succeeds pool this m) :
    MatchesTypes pool this m ↔ m.KeepsWhole this.stack.stack := by
  cases m with
  | pop => exact ⟨fun _ => trivial, fun _ => pop_matches succeeds⟩
  | dup => exact ⟨fun _ => trivial, fun _ => dup_matches succeeds⟩
  | dupX1 => exact dupX1_matches_iff succeeds
  | dupX2 => exact ⟨fun _ => trivial, fun _ => dupX2_matches succeeds⟩
  | swap => exact swap_matches_iff succeeds

end Methods

end Haxe.Source.Jvm
