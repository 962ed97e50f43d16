import Haxe.Source.Generators.CodeRecords

/-!
# Runs of the opcode builder and its labels

What every operation keeps, and that a branch within reach is the one that the exported bytes
make.
-/

namespace Haxe.Source.Jvm

open Theory.CodeLayout

namespace MethodCode

section Steps

variable {this : MethodCode} (pool : CodePool)

/-- Neither a new label nor a reference without a label concerns what is made already. -/
theorem spawned_led {r origin : Nat} {fp : Int} :
    Led ⟨this.code, this.refs, this.labels ++ [⟨.labelNotSet [], false⟩]⟩ r origin fp ↔
      this.Led r origin fp := by
  apply exists_congr
  intro label
  apply exists_congr
  intro value
  apply and_congr Iff.rfl
  unfold stateOf
  dsimp only
  rw [List.getElem?_append]
  split
  · rfl
  · next long =>
    rw [List.getElem?_eq_none (Nat.le_of_not_lt long)]
    cases label - this.labels.length <;> simp

theorem spawned_recorded (recorded : this.Recorded) :
    (⟨this.code, this.refs, this.labels ++ [⟨.labelNotSet [], false⟩]⟩ : MethodCode).Recorded := by
  refine ⟨recorded.counted, recorded.aligned, recorded.existing, ?_, ?_⟩
  · intro r label origin value made
    obtain ⟨near, state, found, gives⟩ := recorded.made r label origin value made
    refine ⟨near, state, ?_, gives⟩
    have present := lt_of_stateOf found
    unfold stateOf
    dsimp only
    rw [List.getElem?_append_left present]
    exact found
  · intro label l found
    unfold stateOf at found
    dsimp only at found
    rw [List.getElem?_append] at found
    split at found
    · exact recorded.listed label l found
    · obtain ⟨last, member, same⟩ := Option.map_eq_some_iff.mp found
      obtain rfl := List.mem_singleton.mp (List.mem_of_getElem? member)
      cases same
      exact ⟨List.nodup_nil, fun r member => absurd member List.not_mem_nil⟩

theorem ref_made {value value' : Int} {r label origin : Nat} :
    Made ⟨this.code, this.refs ++ [⟨value, none⟩], this.labels⟩ r label origin value' ↔
      this.Made r label origin value' := by
  rw [made_concat]
  simp [Made]

theorem ref_recorded (recorded : this.Recorded) (value : Int) :
    (⟨this.code, this.refs ++ [⟨value, none⟩], this.labels⟩ : MethodCode).Recorded := by
  refine ⟨recorded.counted, recorded.aligned, ?_, ?_, ?_⟩
  · intro address o holds target member
    have existing := recorded.existing address o holds target member
    simp only [List.length_append, List.length_singleton]
    omega
  · intro r label origin value' made
    exact recorded.made r label origin value' (ref_made.mp made)
  · intro label l found
    obtain ⟨distinct, listed⟩ := recorded.listed label l found
    refine ⟨distinct, ?_⟩
    intro r member
    obtain ⟨origin, value', made⟩ := listed r member
    exact ⟨origin, value', ref_made.mpr made⟩

theorem ref_led {value : Int} {r origin : Nat} {fp : Int} :
    Led ⟨this.code, this.refs ++ [⟨value, none⟩], this.labels⟩ r origin fp ↔
      this.Led r origin fp := by
  unfold Led
  simp only [ref_made]
  rfl

theorem apply_recorded (recorded : this.Recorded) (label : Nat) (f : Nat → Method) :
    (this.apply pool label f).Recorded :=
  call_recorded pool (mkOffset_recorded recorded label) (f this.refs.length)

theorem apply_reach (recorded : this.Recorded) (label : Nat) (f : Nat → Method) :
    (this.apply pool label f).WithinReach ↔
      this.WithinReach ∧ (this.mkOffset label).CallReaches (f this.refs.length) := by
  unfold apply
  rw [call_reach pool (mkOffset_recorded recorded label), mkOffset_reach recorded]

theorem step_recorded (recorded : this.Recorded) (operation : CodeOperation) :
    (this.step pool operation).Recorded := by
  cases operation with
  | setLine | setTerminated | restore =>
    exact ⟨recorded.counted, recorded.aligned, recorded.existing, recorded.made, recorded.listed⟩
  | call m => exact call_recorded pool recorded m
  | ref value => exact ref_recorded recorded value
  | spawnLabel => exact spawned_recorded recorded
  | mkOffset label => exact mkOffset_recorded recorded label
  | apply label f => exact apply_recorded pool recorded label f
  | if_ label cmp => exact apply_recorded pool recorded label (.if_ cmp)
  | ifNull label jsig => exact apply_recorded pool recorded label (.ifNull jsig)
  | ifNonnull label jsig => exact apply_recorded pool recorded label (.ifNonnull jsig)
  | goto label => exact apply_recorded pool recorded label .goto
  | at_ label fp => exact at_recorded recorded label fp
  | here label => exact at_recorded recorded label this.code.fp

theorem withinReach_congr {code : CodeBuilder} {refs : List BranchOffset} {labels : List Label}
    (ops : code.ops = this.code.ops)
    (led : ∀ r origin fp, Led ⟨code, refs, labels⟩ r origin fp ↔ this.Led r origin fp) :
    WithinReach ⟨code, refs, labels⟩ ↔ this.WithinReach := by
  unfold WithinReach Holds
  simp only [led, ops]

/-- The branches stay within reach if and only if the operation keeps them there. -/
theorem step_reach (recorded : this.Recorded) (operation : CodeOperation) :
    (this.step pool operation).WithinReach ↔ this.WithinReach ∧ this.Reaches operation := by
  cases operation with
  | setLine | setTerminated | restore =>
    exact (withinReach_congr rfl fun _ _ _ => Iff.rfl).trans (iff_of_eq (and_true _)).symm
  | call m => exact call_reach pool recorded m
  | ref value =>
    exact (withinReach_congr rfl fun _ _ _ => ref_led).trans (iff_of_eq (and_true _)).symm
  | spawnLabel =>
    exact (withinReach_congr rfl fun _ _ _ => spawned_led).trans (iff_of_eq (and_true _)).symm
  | mkOffset label => exact (mkOffset_reach recorded label).trans (iff_of_eq (and_true _)).symm
  | apply label f => exact apply_reach pool recorded label f
  | if_ label cmp => exact apply_reach pool recorded label (.if_ cmp)
  | ifNull label jsig => exact apply_reach pool recorded label (.ifNull jsig)
  | ifNonnull label jsig => exact apply_reach pool recorded label (.ifNonnull jsig)
  | goto label => exact apply_reach pool recorded label .goto
  | at_ label fp => exact at_reach recorded label fp
  | here label => exact at_reach recorded label this.code.fp

theorem run_concat (operations : List CodeOperation) (operation : CodeOperation) :
    run pool (operations ++ [operation]) = (run pool operations).step pool operation := by
  unfold run
  rw [List.foldl_append]
  rfl

theorem run_recorded (operations : List CodeOperation) : (run pool operations).Recorded := by
  induction operations using List.reverseRecOn with
  | nil => exact start_recorded
  | append_singleton operations operation ih =>
    rw [run_concat]
    exact step_recorded pool ih operation

/-- The branches are within reach if and only if every operation has kept them there. -/
theorem run_reach (operations : List CodeOperation) :
    (run pool operations).WithinReach ↔
      ∀ earlier operation later, operations = earlier ++ operation :: later →
        (run pool earlier).Reaches operation := by
  induction operations using List.reverseRecOn with
  | nil => exact iff_of_true start_withinReach (by simp)
  | append_singleton operations operation ih =>
    rw [run_concat, step_reach pool (run_recorded pool operations), ih]
    constructor
    · rintro ⟨before, last⟩ earlier operation' later split
      rcases List.eq_nil_or_concat later with rfl | ⟨others, final, rfl⟩
      · obtain ⟨rfl, same⟩ := List.append_inj' split rfl
        cases same
        exact last
      · rw [List.concat_eq_append, ← List.cons_append, ← List.append_assoc] at split
        exact before earlier operation' others (List.append_inj' split rfl).1
    · intro every
      constructor
      · rintro earlier operation' later rfl
        exact every earlier operation' (later ++ [operation]) (by simp)
      · exact every operations operation [] rfl

theorem mkOffset_code (this : MethodCode) (label : Nat) :
    (this.mkOffset label).code = this.code := by
  rcases mkOffset_cases this label with ⟨-, same⟩ | ⟨_, _, _, -, made, -⟩
  · rw [same]
  · rw [made]

theorem at_code (this : MethodCode) (label : Nat) (fp : Int) :
    (this.at_ label fp).code = this.code := by
  rcases at_cases this label fp with ⟨-, same⟩ | ⟨_, _, -, placed⟩
  · rw [same]
  · rw [placed]

theorem fp_le_call (this : MethodCode) (m : Method) :
    this.code.fp ≤ (this.call pool m).code.fp := by
  unfold call
  split
  · exact (CodeBuilder.call_emits pool this.code m).fp_le
  · exact le_rfl

theorem fp_le_apply (this : MethodCode) (label : Nat) (f : Nat → Method) :
    this.code.fp ≤ (this.apply pool label f).code.fp := by
  unfold apply
  rw [← mkOffset_code this label]
  exact fp_le_call pool _ _

theorem fp_le_step (this : MethodCode) (operation : CodeOperation) :
    this.code.fp ≤ (this.step pool operation).code.fp := by
  cases operation with
  | setLine | setTerminated | restore | ref | spawnLabel => exact le_rfl
  | call m => exact fp_le_call pool this m
  | mkOffset label => exact (congrArg CodeBuilder.fp (mkOffset_code this label)).ge
  | apply label f => exact fp_le_apply pool this label f
  | if_ label cmp => exact fp_le_apply pool this label _
  | ifNull label jsig => exact fp_le_apply pool this label _
  | ifNonnull label jsig => exact fp_le_apply pool this label _
  | goto label => exact fp_le_apply pool this label _
  | at_ label fp => exact (congrArg CodeBuilder.fp (at_code this label fp)).ge
  | here label => exact (congrArg CodeBuilder.fp (at_code this label _)).ge

theorem fp_le_run (earlier later : List CodeOperation) :
    (run pool earlier).code.fp ≤ (run pool (earlier ++ later)).code.fp := by
  induction later using List.reverseRecOn with
  | nil => rw [List.append_nil]
  | append_singleton later operation ih =>
    rw [← List.append_assoc, run_concat]
    exact ih.trans (fp_le_step pool _ operation)

end Steps

section Exported

variable {this : MethodCode}

theorem length_exported (recorded : this.Recorded) : this.exported.length = this.code.fp := by
  rw [recorded.counted]
  exact length_emitted (length_writeOpcode _) _

/-- What is read back for a branch that was made through a label that is placed. -/
theorem branch_read {address origin : Nat} {o : JOpcode} {b : Branch} {fp : Int}
    (recorded : this.Recorded) (holds : this.Holds address o) (member : b ∈ branches o)
    (led : this.Led b.ref origin fp) :
    readSigned this.exported (address + b.position) b.width =
      signed (bytes b.width (fp - origin)) := by
  obtain ⟨front, back, written, position⟩ := branch_written this.valueOf member
  obtain ⟨label, value, made, state⟩ := led
  obtain ⟨-, state', found, gives⟩ := recorded.made _ _ _ _ made
  obtain rfl := Option.some.inj (state.symm.trans found)
  have value' : this.valueOf b.ref = fp - origin := by
    unfold valueOf
    rw [made]
    exact gives
  rw [← position, ← value']
  exact holds.read (length_writeOpcode _) written

/-- The positions of the branches are small, so that an offset is told apart from another one by
its bytes. -/
theorem lands_iff_reached {address origin : Nat} {o : JOpcode} {b : Branch} {fp : Int}
    (recorded : this.Recorded) (short : this.code.fp ≤ 65535) (holds : this.Holds address o)
    (member : b ∈ branches o) (led : this.Led b.ref origin fp) :
    readSigned this.exported (address + b.position) b.width + address = fp ↔
      Reached address b.width origin fp := by
  have near : address ≤ 65535 := by
    have := holds.le
    rw [← recorded.counted] at this
    omega
  have originNear : origin ≤ 65535 := by
    obtain ⟨label, value, made, -⟩ := led
    exact (recorded.made _ _ _ _ made).1.trans short
  rw [branch_read recorded holds member led]
  rcases branch_width member with width | width
  · rw [width]
    exact lands_iff (by decide) (by omega) (by omega)
  · rw [width]
    exact lands_iff (by decide) (by omega) (by omega)

end Exported

end MethodCode

end Haxe.Source.Jvm
