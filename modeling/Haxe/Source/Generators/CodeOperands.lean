import Haxe.Source.Generators.JvmCode
import Haxe.Theory.CodeLayout

/-!
# Lengths and operands of the opcodes

Where the offsets of the branches are among the bytes of an opcode, and that every method of the
builder declares the length that is written.
-/

namespace Haxe.Source.Jvm

open Theory.CodeLayout

/-- The bytes of an opcode whose branches are not known yet. -/
@[grind =] def opcodeLength (o : JOpcode) : Nat := (writeOpcode (fun _ => 0) o).length

/-- The offset of a branch inside of an opcode. -/
structure Branch where
  ref : Nat
  position : Nat
  width : Nat
  deriving DecidableEq, Repr

@[grind =] def branches : JOpcode → List Branch
  | .opIfAcmpeq i | .opIfAcmpne i | .opIfIcmp _ i | .opIf _ i | .opIfnonnull i | .opIfnull i
  | .opGoto i | .opJsr i => [⟨i, 1, 2⟩]
  | .opGotoW i | .opJsrW i => [⟨i, 1, 4⟩]
  | .opLookupswitch pad byDefault pairs =>
    ⟨byDefault, 1 + pad, 4⟩ :: pairs.mapIdx fun k pair => ⟨pair.2, 1 + pad + 8 + 8 * k + 4, 4⟩
  | .opTableswitch pad byDefault _ _ offsets =>
    ⟨byDefault, 1 + pad, 4⟩ :: offsets.mapIdx fun k offset => ⟨offset, 1 + pad + 12 + 4 * k, 4⟩
  | _ => []

/-- Where the operands of a switch start. -/
@[grind =] def switchOperands : JOpcode → Option Nat
  | .opLookupswitch pad _ _ | .opTableswitch pad _ _ _ _ => some (1 + pad)
  | _ => none

/-- The references of the branches with their widths. -/
def targets (o : JOpcode) : List (Nat × Nat) := (branches o).map fun b => (b.ref, b.width)

/-- The references that a method is given. -/
def Method.targets : Method → List (Nat × Nat)
  | .if_ _ r | .ifIcmp _ r | .ifAcmpEq _ _ r | .ifAcmpNe _ _ r | .ifNull _ r | .ifNonnull _ r
  | .goto r => [(r, 2)]
  | .lookupswitch offsetDef offsets => (offsetDef, 4) :: offsets.map fun pair => (pair.2, 4)
  | .tableswitch offsetDef _ _ offsets => (offsetDef, 4) :: offsets.map fun offset => (offset, 4)
  | _ => []

@[simp] theorem length_writeByte (i : Int) : (writeByte i).length = 1 := rfl

@[simp] theorem length_bp (i : Int) : (bp i).length = 2 := rfl

@[simp] theorem length_b4 (i : Int) : (b4 i).length = 4 := rfl

@[simp] theorem length_b4r (i : Int) : (b4r i).length = 4 := rfl

theorem bytes_two (i : Int) : bytes 2 i = bp i := by
  simp [bytes, bp, writeByte]

theorem bytes_four (i : Int) : bytes 4 i = b4 i := by
  simp [bytes, b4, writeByte]

@[simp] theorem opcodeLength_lookupswitch (pad byDefault : Nat) (pairs : List (Int × Nat)) :
    opcodeLength (.opLookupswitch pad byDefault pairs) = 9 + pad + pairs.length * 8 := by
  simp [opcodeLength, writeOpcode, List.length_flatMap]
  omega

@[simp] theorem opcodeLength_tableswitch (pad byDefault : Nat) (low high : Int)
    (offsets : List Nat) :
    opcodeLength (.opTableswitch pad byDefault low high offsets) =
      13 + pad + offsets.length * 4 := by
  simp [opcodeLength, writeOpcode, List.length_flatMap]
  omega

/-- The values of the references do not change the length. -/
theorem length_writeOpcode (refs : Nat → Int) (o : JOpcode) :
    (writeOpcode refs o).length = opcodeLength o := by
  cases o with
  | opLookupswitch => simp [opcodeLength, writeOpcode, List.length_flatMap]
  | opTableswitch => simp [opcodeLength, writeOpcode, List.length_flatMap]
  | opWide op => cases op <;> rfl
  | _ => rfl

/-- The offset of a branch is written where the branch says. -/
def Written (refs : Nat → Int) (o : JOpcode) (b : Branch) : Prop :=
  ∃ front back, writeOpcode refs o = front ++ bytes b.width (refs b.ref) ++ back ∧
    front.length = b.position

theorem lookupswitch_written (refs : Nat → Int) (pad byDefault : Nat) (pairs : List (Int × Nat))
    (b : Branch) (member : b ∈ branches (.opLookupswitch pad byDefault pairs)) :
    Written refs (.opLookupswitch pad byDefault pairs) b := by
  simp only [branches, List.mem_cons, List.mem_mapIdx] at member
  rcases member with rfl | ⟨k, short, rfl⟩
  · refine ⟨writeByte 0xab ++ List.replicate pad 0, b4 pairs.length ++
      pairs.flatMap fun pair => b4r pair.1 ++ b4 (refs pair.2), ?_, ?_⟩
    · rw [bytes_four]
      simp [writeOpcode]
    · simp only [List.length_append, length_writeByte, List.length_replicate]
  · obtain ⟨front, back, split, length⟩ :=
      @flatMap_entry _ (fun pair : Int × Nat => b4r pair.1 ++ b4 (refs pair.2)) 8
        (fun _ => rfl) _ _ _ (List.getElem?_eq_getElem short)
    refine ⟨writeByte 0xab ++ List.replicate pad 0 ++ b4 (refs byDefault) ++ b4 pairs.length ++
      front ++ b4r pairs[k].1, back, ?_, ?_⟩
    · rw [bytes_four]
      simp [writeOpcode, split]
    · simp only [List.length_append, length_writeByte, List.length_replicate, length_b4, length,
        length_b4r]

theorem tableswitch_written (refs : Nat → Int) (pad byDefault : Nat) (low high : Int)
    (offsets : List Nat) (b : Branch)
    (member : b ∈ branches (.opTableswitch pad byDefault low high offsets)) :
    Written refs (.opTableswitch pad byDefault low high offsets) b := by
  simp only [branches, List.mem_cons, List.mem_mapIdx] at member
  rcases member with rfl | ⟨k, short, rfl⟩
  · refine ⟨writeByte 0xaa ++ List.replicate pad 0, b4r low ++ b4r high ++
      offsets.flatMap fun offset => b4 (refs offset), ?_, ?_⟩
    · rw [bytes_four]
      simp [writeOpcode]
    · simp only [List.length_append, length_writeByte, List.length_replicate]
  · obtain ⟨front, back, split, length⟩ :=
      @flatMap_entry _ (fun offset : Nat => b4 (refs offset)) 4
        (fun _ => rfl) _ _ _ (List.getElem?_eq_getElem short)
    refine ⟨writeByte 0xaa ++ List.replicate pad 0 ++ b4 (refs byDefault) ++ b4r low ++
      b4r high ++ front, back, ?_, ?_⟩
    · rw [bytes_four]
      simp [writeOpcode, split]
    · simp only [List.length_append, length_writeByte, List.length_replicate, length_b4, length,
        length_b4r]

theorem branch_written (refs : Nat → Int) {o : JOpcode} {b : Branch} (member : b ∈ branches o) :
    Written refs o b := by
  cases o with
  | opLookupswitch pad byDefault pairs => exact lookupswitch_written refs _ _ _ b member
  | opTableswitch pad byDefault low high offsets =>
    exact tableswitch_written refs _ _ _ _ _ b member
  | opGotoW i | opJsrW i =>
    obtain rfl := List.mem_singleton.mp member
    exact ⟨writeByte _, [], by rw [bytes_four]; exact (List.append_nil _).symm, rfl⟩
  | opIfAcmpeq i | opIfAcmpne i | opIfIcmp _ i | opIf _ i | opIfnonnull i | opIfnull i
  | opGoto i | opJsr i =>
    obtain rfl := List.mem_singleton.mp member
    exact ⟨writeByte _, [], by rw [bytes_two]; exact (List.append_nil _).symm, rfl⟩
  | _ => exact absurd member (List.not_mem_nil)

theorem branch_width {o : JOpcode} {b : Branch} (member : b ∈ branches o) :
    b.width = 2 ∨ b.width = 4 := by
  cases o with
  | opLookupswitch | opTableswitch =>
    simp only [branches, List.mem_cons, List.mem_mapIdx] at member
    rcases member with rfl | ⟨k, short, rfl⟩ <;> exact .inr rfl
  | opGotoW | opJsrW =>
    obtain rfl := List.mem_singleton.mp member
    exact .inr rfl
  | opIfAcmpeq | opIfAcmpne | opIfIcmp | opIf | opIfnonnull | opIfnull | opGoto | opJsr =>
    obtain rfl := List.mem_singleton.mp member
    exact .inl rfl
  | _ => exact absurd member List.not_mem_nil

/-- What a method does to the code: it raises at first, or it adds an opcode with its length. -/
inductive Emits (this after : CodeBuilder) : List (Nat × Nat) → Prop
  | raised (unchanged : after = this) : Emits this after []
  | emitted (o : JOpcode) (ops : after.ops = this.ops ++ [o])
      (fp : after.fp = this.fp + opcodeLength o)
      (aligned : ∀ start, switchOperands o = some start → 4 ∣ this.fp + start) :
      Emits this after (targets o)

theorem Emits.fp_le {this after : CodeBuilder} {ts : List (Nat × Nat)}
    (emits : Emits this after ts) : this.fp ≤ after.fp := by
  cases emits with
  | raised unchanged => rw [unchanged]
  | emitted o ops fp aligned => omega

namespace CodeBuilder

theorem op_emits (this : CodeBuilder) {o : JOpcode} {length : Nat} (expect push : List JSignature)
    (declared : length = opcodeLength o)
    (aligned : ∀ start, switchOperands o = some start → 4 ∣ this.fp + start) :
    Emits this (this.op o length expect push) (targets o) :=
  .emitted o rfl (by rw [← declared]; rfl) aligned

/-- An opcode of a length that has neither branches nor padding. -/
def Plain (length : Nat) (o : JOpcode) : Prop :=
  length = opcodeLength o ∧ targets o = [] ∧ switchOperands o = none

theorem plain_emits (this : CodeBuilder) {o : JOpcode} {length : Nat}
    (expect push : List JSignature) (plain : Plain length o) :
    Emits this (this.op o length expect push) [] := by
  rw [← plain.2.1]
  apply op_emits this expect push plain.1
  intro start starts
  rw [plain.2.2] at starts
  cases starts

theorem slotOp_emits (this : CodeBuilder) {op0 op1 op2 op3 op : JOpcode} {opw : OpWide} (i : Int)
    (tl tr : List JSignature) (zero : Plain 1 op0) (one : Plain 1 op1) (two : Plain 1 op2)
    (three : Plain 1 op3) (narrow : Plain 2 op) (wide : Plain 4 (.opWide opw)) :
    Emits this (this.slotOp op0 op1 op2 op3 op opw i tl tr) [] := by
  unfold slotOp opMaybeWide
  split_ifs
  · exact plain_emits this tl tr zero
  · exact plain_emits this tl tr one
  · exact plain_emits this tl tr two
  · exact plain_emits this tl tr three
  · split
    · exact plain_emits this tl tr narrow
    · exact plain_emits this tl tr wide
    · exact .raised rfl

theorem withTop_emits (this : CodeBuilder) {f : JSignature → CodeBuilder}
    (emits : ∀ top, Emits this (f top) []) : Emits this (this.withTop f) [] := by
  unfold withTop
  cases this.stack.stack.head? with
  | none => exact .raised rfl
  | some top => exact emits top

theorem withItems_emits (this : CodeBuilder) {i : Nat} {f : List JSignature → CodeBuilder}
    (emits : ∀ tl, Emits this (f tl) []) : Emits this (this.withItems i f) [] := by
  unfold withItems
  cases this.stack.getStackItems i with
  | none => exact .raised rfl
  | some tl => exact emits tl

theorem iinc_emits (this : CodeBuilder) (index i : Int) : Emits this (this.iinc index i) [] := by
  unfold iinc
  split
  · exact plain_emits this [] [] ⟨rfl, rfl, rfl⟩
  · exact .raised rfl
  · exact .raised rfl
  · exact plain_emits this [] [] ⟨rfl, rfl, rfl⟩

theorem ldc_emits (this : CodeBuilder) (offset : Int) (vt : JSignature) :
    Emits this (this.ldc offset vt) [] := by
  unfold ldc
  split_ifs
  · exact plain_emits this [] [vt] ⟨rfl, rfl, rfl⟩
  · exact plain_emits this [] [vt] ⟨rfl, rfl, rfl⟩

theorem dupX1_emits (this : CodeBuilder) : Emits this this.dupX1 [] := by
  unfold dupX1
  apply withItems_emits
  intro tl
  dsimp only
  split <;> exact plain_emits this _ _ ⟨rfl, rfl, rfl⟩

theorem dupX2_emits (this : CodeBuilder) : Emits this this.dupX2 [] := by
  unfold dupX2
  apply withItems_emits
  intro tl
  split
  · exact plain_emits this _ _ ⟨rfl, rfl, rfl⟩
  · exact plain_emits this _ _ ⟨rfl, rfl, rfl⟩
  · exact plain_emits this _ _ ⟨rfl, rfl, rfl⟩
  · exact plain_emits this _ _ ⟨rfl, rfl, rfl⟩
  · exact .raised rfl

theorem iconstOp_plain (pool : CodePool) (i : Int) :
    Plain (iconstOp pool i).2 (iconstOp pool i).1 := by
  unfold iconstOp
  iterate 7 (split; · exact ⟨rfl, rfl, rfl⟩)
  split
  · exact ⟨rfl, rfl, rfl⟩
  · exact ⟨rfl, rfl, rfl⟩
  · split <;> exact ⟨rfl, rfl, rfl⟩

theorem dconstOp_plain (pool : CodePool) (f : Float) :
    Plain (dconstOp pool f).2 (dconstOp pool f).1 := by
  unfold dconstOp
  split_ifs <;> exact ⟨rfl, rfl, rfl⟩

theorem lconstOp_plain (pool : CodePool) (d : Int) :
    Plain (lconstOp pool d).2 (lconstOp pool d).1 := by
  unfold lconstOp
  split_ifs <;> exact ⟨rfl, rfl, rfl⟩

theorem fconstOp_plain (pool : CodePool) (f : Float) :
    Plain (fconstOp pool f).2 (fconstOp pool f).1 := by
  unfold fconstOp
  split_ifs <;> exact ⟨rfl, rfl, rfl⟩

theorem returnOp_plain (t : JSignature) : Plain 1 (returnOp t) := by
  unfold returnOp
  split <;> exact ⟨rfl, rfl, rfl⟩

theorem pad_aligned (fp : Nat) : 4 ∣ fp + (1 + pad fp) := by
  unfold pad
  dsimp only
  split_ifs <;> omega

theorem lookupswitch_emits (pool : CodePool) (this : CodeBuilder) (offsetDef : Nat)
    (offsets : List (Int × Nat)) :
    Emits this (this.call pool (.lookupswitch offsetDef offsets))
      (Method.lookupswitch offsetDef offsets).targets := by
  have same : targets (.opLookupswitch (pad this.fp) offsetDef offsets) =
      (Method.lookupswitch offsetDef offsets).targets :=
    congrArg (List.cons (offsetDef, 4)) (map_mapIdx (by intros; rfl) offsets)
  rw [← same]
  apply op_emits this [.tInt] [] (opcodeLength_lookupswitch _ _ _).symm
  intro start starts
  cases starts
  exact pad_aligned this.fp

theorem tableswitch_emits (pool : CodePool) (this : CodeBuilder) (offsetDef : Nat)
    (low high : Int) (offsets : List Nat) :
    Emits this (this.call pool (.tableswitch offsetDef low high offsets))
      (Method.tableswitch offsetDef low high offsets).targets := by
  have same : targets (.opTableswitch (pad this.fp) offsetDef low high offsets) =
      (Method.tableswitch offsetDef low high offsets).targets :=
    congrArg (List.cons (offsetDef, 4)) (map_mapIdx (by intros; rfl) offsets)
  rw [← same]
  apply op_emits this [.tInt] [] (opcodeLength_tableswitch _ _ _ _ _).symm
  intro start starts
  cases starts
  exact pad_aligned this.fp

/-- A method emits an opcode with the references that it is given. -/
theorem call_emits (pool : CodePool) (this : CodeBuilder) (m : Method) :
    Emits this (this.call pool m) m.targets := by
  cases m with
  | iload _ i | lload i | fload i | dload i | aload _ i | istore i | lstore i | fstore i
  | dstore i | astore _ i =>
    exact slotOp_emits this i _ _ ⟨rfl, rfl, rfl⟩ ⟨rfl, rfl, rfl⟩ ⟨rfl, rfl, rfl⟩
      ⟨rfl, rfl, rfl⟩ ⟨rfl, rfl, rfl⟩ ⟨rfl, rfl, rfl⟩
  | iinc index i => exact iinc_emits this index i
  | if_ | ifIcmp | ifAcmpEq | ifAcmpNe | ifNull | ifNonnull | goto =>
    exact op_emits this _ _ rfl (fun start starts => by cases starts)
  | lookupswitch offsetDef offsets => exact lookupswitch_emits pool this offsetDef offsets
  | tableswitch offsetDef low high offsets =>
    exact tableswitch_emits pool this offsetDef low high offsets
  | returnValue t => exact plain_emits this _ _ (returnOp_plain t)
  | athrow | monitorenter | monitorexit | checkcastSig | checkcast | instanceof =>
    exact withTop_emits this fun top => plain_emits this _ _ ⟨rfl, rfl, rfl⟩
  | pop | dup =>
    apply withTop_emits
    intro top
    split_ifs <;> exact plain_emits this _ _ ⟨rfl, rfl, rfl⟩
  | dupX1 => exact dupX1_emits this
  | dupX2 => exact dupX2_emits this
  | swap => exact withItems_emits this fun tl => plain_emits this _ _ ⟨rfl, rfl, rfl⟩
  | ldc offset vt => exact ldc_emits this offset vt
  | sconst t offset => exact ldc_emits this offset t
  | bconst b => cases b <;> exact plain_emits this _ _ ⟨rfl, rfl, rfl⟩
  | iconst i => exact plain_emits this _ _ (iconstOp_plain pool i)
  | dconst f => exact plain_emits this _ _ (dconstOp_plain pool f)
  | lconst d => exact plain_emits this _ _ (lconstOp_plain pool d)
  | fconst f => exact plain_emits this _ _ (fconstOp_plain pool f)
  | _ => exact plain_emits this _ _ ⟨rfl, rfl, rfl⟩

end CodeBuilder

end Haxe.Source.Jvm

/-!
## Labels of the JVM generator

`label` of `jvmMethod.ml` over the opcode builder. The references of the branches and the labels
are numbered in the order in which they are made. The stack frame that `at` records is not looked
at here.
-/

namespace Haxe.Source.Jvm

/-- A `jbranchoffset ref`. No function reads `madeBy`: the label whose `mk_offset` made it, with
the position at that time. -/
structure BranchOffset where
  value : Int
  madeBy : Option (Nat × Nat)
  deriving DecidableEq, Repr

/-- The references in `LabelNotSet` come latest first. -/
inductive LabelState where
  | labelNotSet (l : List Nat)
  | labelSet (fp : Int)
  deriving DecidableEq, Repr

structure Label where
  state : LabelState
  wasJumpedTo : Bool
  deriving DecidableEq, Repr

/-- The code of a method with its references and labels. -/
structure MethodCode where
  code : CodeBuilder
  refs : List BranchOffset
  labels : List Label

namespace MethodCode

def start : MethodCode := ⟨.create, [], []⟩

/-- `!r` -/
def valueOf (this : MethodCode) (r : Nat) : Int :=
  ((this.refs[r]?).map BranchOffset.value).getD 0

def stateOf (this : MethodCode) (label : Nat) : Option LabelState :=
  (this.labels[label]?).map Label.state

def exported (this : MethodCode) : List Nat := this.code.exportCode this.valueOf

/-- `mk_offset`, whose result has the next number. -/
def mkOffset (this : MethodCode) (label : Nat) : MethodCode :=
  let make (value : Int) (state : LabelState) : MethodCode :=
    { this with
      refs := this.refs ++ [⟨value, some (label, this.code.fp)⟩]
      labels := this.labels.set label ⟨state, true⟩ }
  match this.stateOf label with
  | some (.labelNotSet l) => make this.code.fp (.labelNotSet (this.refs.length :: l))
  | some (.labelSet fp') => make (fp' - this.code.fp) (.labelSet fp')
  | none => this

/-- `r := fp - !r` -/
def patch (fp : Int) (refs : List BranchOffset) (r : Nat) : List BranchOffset :=
  refs.modify r fun b => { b with value := fp - b.value }

/-- `at`, which fails if the label is set to another position. -/
def at_ (this : MethodCode) (label : Nat) (fp : Int) : MethodCode :=
  match this.labels[label]? with
  | some ⟨.labelNotSet l, wasJumpedTo⟩ =>
    { this with
      refs := l.foldl (patch fp) this.refs
      labels := this.labels.set label ⟨.labelSet fp, wasJumpedTo⟩ }
  | _ => this

def here (this : MethodCode) (label : Nat) : MethodCode := this.at_ label this.code.fp

/-- A method of the builder is only given references that exist. -/
def call (pool : CodePool) (this : MethodCode) (m : Method) : MethodCode :=
  if ∀ target ∈ m.targets, target.1 < this.refs.length then
    { this with code := this.code.call pool m }
  else this

def apply (pool : CodePool) (this : MethodCode) (label : Nat) (f : Nat → Method) : MethodCode :=
  (this.mkOffset label).call pool (f this.refs.length)

end MethodCode

/-- The operations of the builder and of the labels. `ref` makes a reference without a label. -/
inductive CodeOperation where
  | setLine (line : Int)
  | setTerminated (b : Bool)
  | restore (saved : List JSignature × Int)
  | call (m : Method)
  | ref (value : Int)
  | spawnLabel
  | mkOffset (label : Nat)
  | apply (label : Nat) (f : Nat → Method)
  | if_ (label : Nat) (cmp : JCmp)
  | ifNull (label : Nat) (jsig : JSignature)
  | ifNonnull (label : Nat) (jsig : JSignature)
  | goto (label : Nat)
  | at_ (label : Nat) (fp : Int)
  | here (label : Nat)

namespace MethodCode

variable (pool : CodePool)

def step (this : MethodCode) : CodeOperation → MethodCode
  | .setLine line => { this with code := { this.code with currentLine := line } }
  | .setTerminated b => { this with code := { this.code with terminated := b } }
  | .restore saved => { this with code := { this.code with stack := this.code.stack.restore saved } }
  | .call m => this.call pool m
  | .ref value => { this with refs := this.refs ++ [⟨value, none⟩] }
  | .spawnLabel => { this with labels := this.labels ++ [⟨.labelNotSet [], false⟩] }
  | .mkOffset label => this.mkOffset label
  | .apply label f => this.apply pool label f
  | .if_ label cmp => this.apply pool label (.if_ cmp)
  | .ifNull label jsig => this.apply pool label (.ifNull jsig)
  | .ifNonnull label jsig => this.apply pool label (.ifNonnull jsig)
  | .goto label => this.apply pool label .goto
  | .at_ label fp => this.at_ label fp
  | .here label => this.here label

def run (operations : List CodeOperation) : MethodCode := operations.foldl (step pool) start

end MethodCode

end Haxe.Source.Jvm
