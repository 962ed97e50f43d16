import Haxe.Source.Generators.CodeRuns
import Haxe.Source.Generators.StackMoves
import Haxe.Source.Generators.StringSwitch
import Haxe.Source.Generators.IntSwitch

/-!
# Exact offsets in JVM code

`fp` always counts the bytes that are written, and the operands of every switch are aligned. A
branch is written with sixteen bits whatever its offset is, so that it lands at its label only as
far as that is enough.
-/

namespace Haxe.Guarantees.CodeOffsets

open Theory.CodeLayout Source.Jvm Source.Jvm.MethodCode

variable (pool : CodePool)

/-- An opcode of the code, behind the bytes of the opcodes in front of it. -/
def Emitted (this : MethodCode) (address : Nat) (o : JOpcode) : Prop :=
  Stands (fun o => (writeOpcode this.valueOf o).length) this.code.ops address o

/-- The reference was made through a label that is placed at `fp`. -/
def LabelPlaced (this : MethodCode) (r : Nat) (fp : Int) : Prop := ∃ origin, this.Led r origin fp

structure Exact (this : MethodCode) : Prop where
  counted : this.code.fp = this.exported.length
  aligned : ∀ address o start, Emitted this address o → switchOperands o = some start →
    4 ∣ address + start
  landed : ∀ address o, Emitted this address o → ∀ b ∈ branches o, ∀ fp,
    LabelPlaced this b.ref fp →
      readSigned this.exported (address + b.position) b.width + address = fp

theorem emitted_iff (this : MethodCode) (address : Nat) (o : JOpcode) :
    Emitted this address o ↔ this.Holds address o := by
  unfold Emitted Holds
  rw [funext (length_writeOpcode this.valueOf)]

theorem exact_iff {this : MethodCode} (recorded : this.Recorded) (short : this.code.fp ≤ 65535) :
    Exact this ↔ this.WithinReach := by
  constructor
  · intro exact_ address o holds target member origin fp led
    obtain ⟨b, among, rfl⟩ := List.mem_map.mp member
    exact (lands_iff_reached recorded short holds among led).mp
      (exact_.landed address o ((emitted_iff this address o).mpr holds) b among fp ⟨origin, led⟩)
  · intro within
    refine ⟨(length_exported recorded).symm, ?_, ?_⟩
    · intro address o start emitted starts
      exact recorded.aligned address o start ((emitted_iff this address o).mp emitted) starts
    · rintro address o emitted b member fp ⟨origin, led⟩
      have holds := (emitted_iff this address o).mp emitted
      exact (lands_iff_reached recorded short holds member led).mpr
        (within address o holds _ (List.mem_map_of_mem member) origin fp led)

/-- The offsets are exact after each operation if and only if no operation passes a reference of
a label to an instruction at another address than that of its `mk_offset`, or brings a branch and
its label farther apart than the width of the offset allows. -/
theorem code_offsets_iff (operations : List CodeOperation)
    (short : (run pool operations).exported.length ≤ 65535) :
    (∀ earlier later, operations = earlier ++ later → Exact (run pool earlier)) ↔
      ∀ earlier operation later, operations = earlier ++ operation :: later →
        (run pool earlier).Reaches operation := by
  have bound : (run pool operations).code.fp ≤ 65535 := by
    rw [← length_exported (run_recorded pool operations)]
    exact short
  rw [← run_reach pool operations]
  constructor
  · intro every
    exact (exact_iff (run_recorded pool operations) bound).mp
      (every operations [] (List.append_nil _).symm)
  · rintro within earlier later rfl
    have near := (fp_le_run pool earlier later).trans bound
    apply (exact_iff (run_recorded pool earlier) near).mpr
    apply (run_reach pool earlier).mpr
    rintro before operation after rfl
    exact (run_reach pool _).mp within before operation (after ++ later) (by simp)

/-- A constant pool with one constant. -/
def singlePool : CodePool where
  addPath := fun _ => 1
  generateSignature := fun _ => ""
  addType := fun _ => 1
  addInt := fun _ => 1
  addLong := fun _ => 1
  addFloat := fun _ => 1
  addDouble := fun _ => 1

theorem short_jump_exact : Exact (run singlePool [.spawnLabel, .goto 0, .here 0]) := by
  apply (code_offsets_iff singlePool [.spawnLabel, .goto 0, .here 0] (by decide)).mpr _ _ []
    (List.append_nil _).symm
  rintro (_ | ⟨_, _ | ⟨_, _ | ⟨_, _ | _⟩⟩⟩) operation later split <;> cases split
  · trivial
  · rintro - target member origin fp ⟨label, value, made, state⟩
    obtain rfl := List.mem_singleton.mp member
    cases made
    cases state
  · intro l found address o holds target member origin value made
    rcases stands_concat.mp (show Stands opcodeLength ([] ++ [.opGoto 0]) address o from holds) with
      none | ⟨rfl, rfl⟩
    · exact absurd none (not_stands_nil _ _)
    · obtain rfl := List.mem_singleton.mp member
      cases made
      exact ⟨rfl, by decide⟩

/-- A jump over as many increments. -/
def longJump (n : Nat) : List CodeOperation :=
  [.spawnLabel, .goto 0] ++ List.replicate n (.call (.iinc 1 1)) ++ [.here 0]

theorem increments_run (n : Nat) :
    ∃ code, run pool ([.spawnLabel, .goto 0] ++ List.replicate n (.call (.iinc 1 1))) =
        ⟨code, [⟨0, some (0, 0)⟩], [⟨.labelNotSet [0], true⟩]⟩ ∧
      code.fp = 3 + 3 * n ∧ ∃ later, code.ops = .opGoto 0 :: later := by
  induction n with
  | zero => exact ⟨_, rfl, rfl, [], rfl⟩
  | succ n ih =>
    obtain ⟨code, state, fp, later, ops⟩ := ih
    refine ⟨code.call pool (.iinc 1 1), ?_, ?_, later ++ [.opIinc 1 1], ?_⟩
    · rw [List.replicate_succ', ← List.append_assoc, run_concat, state]
      rfl
    · change code.fp + 3 = _
      omega
    · change code.ops ++ [.opIinc 1 1] = _
      rw [ops]
      rfl

theorem long_jump_misses :
    (run singlePool (longJump 10922)).exported.length ≤ 65535 ∧
      ¬Exact (run singlePool (longJump 10922)) := by
  obtain ⟨code, state, fp, later, ops⟩ := increments_run singlePool 10922
  have placed : run singlePool (longJump 10922) =
      ⟨code, [⟨code.fp - 0, some (0, 0)⟩], [⟨.labelSet code.fp, true⟩]⟩ := by
    unfold longJump
    rw [run_concat, state]
    rfl
  have recorded := run_recorded singlePool (longJump 10922)
  have bound : (run singlePool (longJump 10922)).code.fp ≤ 65535 := by
    rw [placed]
    exact fp.trans_le (by decide)
  rw [length_exported recorded, exact_iff recorded bound]
  refine ⟨bound, ?_⟩
  rw [placed]
  intro within
  have reached := within 0 (.opGoto 0) ⟨[], later, ops, rfl⟩ (0, 2) List.mem_cons_self 0 code.fp
    ⟨0, _, rfl, rfl⟩
  have fits := reached.2.2
  rw [fp] at fits
  exact absurd fits (by decide)

end Haxe.Guarantees.CodeOffsets

/-!
## Stack manipulation of the JVM generator

`dup_x1` and `swap` move whole values only if these take one slot each; the other methods always
do. The size of the stack is the number of its slots in every run.
-/

namespace Haxe.Guarantees

open Source.Jvm Theory.OperandStack CodeOffsets

/-- Wherever a method emits an opcode, this moves whole values exactly if the value that `dup_x1`
looks past, or both of those that `swap` exchanges, take one slot. In every run the size of the
stack is the number of the slots of any values on it, and `max_stack` is no less. -/
theorem stack_manipulation_iff (pool : CodePool) :
    (∀ (this : CodeBuilder) (m : StackMethod), Succeeds pool this m →
      (MatchesTypes pool this m ↔ m.KeepsWhole this.stack.stack)) ∧
    ∀ (uses more : List StackUse) (values : List StackValue),
      values.map Value.type = (StackRun.run pool uses).code.stack.stack →
        (StackRun.run pool uses).code.stack.stackSize = (slotsOf values).length ∧
          (slotsOf values).length ≤
            (StackRun.run pool (uses ++ more)).code.stack.maxStackSize := by
  refine ⟨fun this m succeeds => matchesTypes_iff succeeds, fun uses more values typed => ?_⟩
  have reached := (StackRun.steps_counted pool uses StackRun.start_counted).1
  have later := (StackRun.steps_counted pool more reached).2
  have size : (StackRun.run pool uses).code.stack.stackSize = (slotsOf values).length := by
    rw [length_slotsOf, typed]
    exact reached.stack.counted
  refine ⟨size, ?_⟩
  have bounded : (StackRun.run pool uses).code.stack.stackSize ≤
      (StackRun.run pool uses).code.stack.maxStackSize := reached.stack.bounded
  have joined : StackRun.run pool (uses ++ more) =
      more.foldl (StackRun.step pool) (StackRun.run pool uses) := List.foldl_append
  rw [← size, joined]
  exact Int.le_trans bounded later

/-- A builder with some types on its stack. -/
def builderWith (stack : List JSignature) : CodeBuilder :=
  { CodeBuilder.create with
    stack := ⟨stack, totalSlots signatureSize stack, totalSlots signatureSize stack⟩ }

/-- A `long` above an `int`, and a run that pushes both. -/
theorem dup_long_over_int :
    MatchesTypes singlePool (builderWith [.tLong, .tInt]) .dupX1 ∧
      (StackRun.run singlePool [.call (.iconst 7), .call (.lconst 1)]).code.stack.stackSize = 3 := by
  constructor
  · exact ((stack_manipulation_iff singlePool).1 (builderWith [.tLong, .tInt]) .dupX1
      ⟨.opDup2X1, rfl⟩).mpr rfl
  · exact ((stack_manipulation_iff singlePool).2
      [.call (.iconst 7), .call (.lconst 1)] []
        [sample signatureSize 0 .tLong, sample signatureSize 2 .tInt] rfl).1

/-- `dup_x1` with an `int` above a `long`, and `swap` of the same. -/
theorem dup_int_over_long :
    Succeeds singlePool (builderWith [.tInt, .tLong]) .dupX1 ∧
      ¬ MatchesTypes singlePool (builderWith [.tInt, .tLong]) .dupX1 ∧
      Succeeds singlePool (builderWith [.tInt, .tLong]) .swap ∧
      ¬ MatchesTypes singlePool (builderWith [.tInt, .tLong]) .swap := by
  have duplicates : Succeeds singlePool (builderWith [.tInt, .tLong]) .dupX1 := ⟨.opDupX1, rfl⟩
  have swaps : Succeeds singlePool (builderWith [.tInt, .tLong]) .swap := ⟨.opSwap, rfl⟩
  refine ⟨duplicates, fun moved => ?_, swaps, fun moved => ?_⟩
  · exact absurd ((matchesTypes_iff duplicates).mp moved) (show ¬ 2 = 1 by decide)
  · exact absurd ((matchesTypes_iff swaps).mp moved).2 (show ¬ 2 = 1 by decide)

end Haxe.Guarantees

/-!
## Switches of the JVM generator

A switch over strings dispatches a subject wherever the hash of its label is the one of Java, as it
is for every string of the basic plane. A switch over integers dispatches every subject unless its
table is too wide.
-/

namespace Haxe.Guarantees

open Theory Theory.LabelledCode Source.Jvm.Switch

/-- The code of `string_switch` executes the body of the case with the subject, or the default. -/
def StringDispatched (needVal : Bool) (cases : List (SwitchCase (List Char)))
    (byDefault : Option Bool) (subject : Option (List Nat)) : Prop :=
  ∃ r, Executes subject (stringSwitch cases needVal byDefault) [] r ∧
    Dispatched needVal cases byDefault
      (fun labels => ∃ s ∈ labels, subject = some (Utf16.encode s)) r

/-- The code of `int_switch` is made, and executes the body of the case with the subject, or the
default. -/
def IntDispatched (needVal : Bool) (cases : List (SwitchCase (BitVec 32)))
    (byDefault : Option Bool) (subject : BitVec 32) : Prop :=
  ∃ code r, intSwitch cases needVal byDefault = some code ∧
    Executes none code [.int subject] r ∧
      Dispatched needVal cases byDefault (fun labels => subject ∈ labels) r

section Strings

variable {needVal : Bool} {cases : List (SwitchCase (List Char))} {byDefault : Option Bool}

/-- Two blocks are told apart by their results. -/
theorem case_ne_default {index : Nat} {terminates : Bool} :
    ofBlock (some (.case_ index, terminates)) ≠ ofBlock (defaultBlock needVal byDefault) := by
  intro same
  have executed := congrArg Result.executed same
  cases byDefault with
  | some terminates' => cases executed
  | none => cases needVal <;> cases executed

/-- A distinct label belongs to one case. -/
theorem case_of_label (distinct : (cases.flatMap SwitchCase.labels).Nodup) {s : List Char}
    {index index' : Nat} {case_ case' : SwitchCase (List Char)} (found : cases[index]? = some case_)
    (label : s ∈ case_.labels) (found' : cases[index']? = some case')
    (label' : s ∈ case'.labels) : index = index' := by
  have entry : (javaHash s, s, index) ∈ entries cases := mem_entries.mpr ⟨case_, found, label, rfl⟩
  have entry' : (javaHash s, s, index') ∈ entries cases :=
    mem_entries.mpr ⟨case', found', label', rfl⟩
  rw [← entries_strings] at distinct
  have same := List.inj_on_of_nodup_map distinct entry entry' rfl
  exact congrArg (fun entry => entry.2.2) same

/-- A switch over distinct strings dispatches a subject exactly if the subject is no label, or the
hash of its label is the one of Java. -/
theorem string_dispatched_iff (distinct : (cases.flatMap SwitchCase.labels).Nodup)
    (subject : Option (List Nat)) :
    StringDispatched needVal cases byDefault subject ↔
      ∀ s ∈ cases.flatMap SwitchCase.labels, subject = some (Utf16.encode s) →
        javaHash s = hashCode (Utf16.encode s) := by
  cases subject with
  | none =>
    constructor
    · intro _ s _ same
      cases same
    · intro _
      refine ⟨_, null_leads distinct, .inr ⟨?_, rfl⟩⟩
      rintro case_ _ ⟨s, _, same⟩
      cases same
  | some u =>
    by_cases label : ∃ s ∈ cases.flatMap SwitchCase.labels, Utf16.encode s = u
    · obtain ⟨s, member, rfl⟩ := label
      obtain ⟨case_, present, label⟩ := List.mem_flatMap.mp member
      obtain ⟨index, found⟩ := List.mem_iff_getElem?.mp present
      constructor
      · rintro ⟨r, executes, dispatched⟩ s' member' same
        obtain rfl := Utf16.encode_injective (Option.some.inj same)
        by_contra differs
        -- no entry of the hash in Java is the label
        have missed : Executes (some (Utf16.encode s)) (stringSwitch cases needVal byDefault) []
            (ofBlock (defaultBlock needVal byDefault)) := by
          refine string_leads distinct (fun e entry hit => ?_) fun _ => rfl
          obtain ⟨_, _, _, hash⟩ := mem_entries.mp entry
          rw [Utf16.encode_injective hit] at hash
          exact absurd hash.symm differs
        obtain rfl := executes.unique missed
        obtain ⟨_, _, _, _, same⟩ | ⟨absent, _⟩ := dispatched
        · exact case_ne_default same.symm
        · exact absent case_ present ⟨s, label, rfl⟩
      · intro agrees
        have hash := agrees s member rfl
        refine ⟨ofBlock (some (.case_ index, case_.terminates)), ?_,
          .inl ⟨index, case_, found, ⟨s, label, rfl⟩, rfl⟩⟩
        refine string_leads distinct (fun e entry hit case' found' => ?_) fun others => ?_
        · obtain ⟨case'', indexed, label', _⟩ := mem_entries.mp entry
          rw [Utf16.encode_injective hit] at label'
          obtain rfl := case_of_label distinct found label indexed label'
          rw [found] at found'
          obtain rfl := Option.some.inj found'
          rfl
        · have entry : (hashCode (Utf16.encode s), s, index) ∈ entries cases :=
            mem_entries.mpr ⟨case_, found, label, hash.symm⟩
          exact absurd rfl (others _ entry)
    · refine ⟨fun _ s member same => absurd ⟨s, member, (Option.some.inj same).symm⟩ label,
        fun _ => ⟨_, string_leads distinct (fun e entry hit => ?_) fun _ => rfl, .inr ⟨?_, rfl⟩⟩⟩
      · obtain ⟨case_, indexed, member, _⟩ := mem_entries.mp entry
        exact absurd ⟨e.1, List.mem_flatMap.mpr ⟨case_, List.mem_of_getElem? indexed, member⟩, hit⟩
          label
      · rintro case_ present ⟨s, member, same⟩
        exact label ⟨s, List.mem_flatMap.mpr ⟨case_, present, member⟩, (Option.some.inj same).symm⟩

end Strings

section Integers

variable {needVal : Bool} {cases : List (SwitchCase (BitVec 32))} {byDefault : Option Bool}

/-- A switch over distinct integers dispatches a subject exactly if its table is not too wide. -/
theorem int_dispatched_iff (distinct : (cases.flatMap SwitchCase.labels).Nodup)
    (subject : BitVec 32) : IntDispatched needVal cases byDefault subject ↔ ¬ TooWide cases := by
  obtain ⟨fits, switch, made, jumps⟩ | ⟨wide, stuck⟩ := jumps_or_stuck distinct subject
  · refine ⟨fun _ => fits, fun _ => ⟨ended (defaultBlock needVal byDefault)
      (intCode switch cases (defaultBlock needVal byDefault)), ?_⟩⟩
    have code : intSwitch cases needVal byDefault = some (ended (defaultBlock needVal byDefault)
        (intCode switch cases (defaultBlock needVal byDefault))) := by
      rw [intSwitch, made]
      rfl
    by_cases label : subject ∈ flatCases cases
    · rw [target_eq, if_pos label] at jumps
      obtain ⟨case_, present, member⟩ := List.mem_flatMap.mp label
      obtain ⟨index, found⟩ := List.mem_iff_getElem?.mp present
      exact ⟨_, code, case_leads distinct found member jumps,
        .inl ⟨index, case_, found, member, rfl⟩⟩
    · rw [target_eq, if_neg label] at jumps
      refine ⟨_, code, int_default_leads distinct jumps, .inr ⟨fun case_ present member => ?_, rfl⟩⟩
      exact label (List.mem_flatMap.mpr ⟨case_, present, member⟩)
  · refine ⟨?_, fun fits => absurd wide fits⟩
    rintro ⟨code, r, made, executes, _⟩
    obtain ⟨switch, chosen, made⟩ := Option.bind_eq_some_iff.mp made
    obtain rfl := Option.some.inj made
    exact absurd executes (Leads.not_of_stuck (stuck switch chosen))

end Integers

end Haxe.Guarantees
