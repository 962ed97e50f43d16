import Haxe.Source.Generators.CodeOperands

/-!
# References and labels of emitted code

What holds of the references, the labels and the opcodes whatever the order of the operations is,
and when a placed label is reached.
-/

namespace Haxe.Source.Jvm

open Theory.CodeLayout

/-- The value of a reference that a label made at `origin`. -/
def LabelState.Gives (r origin : Nat) (value : Int) : LabelState → Prop
  | .labelNotSet l => r ∈ l ∧ value = origin
  | .labelSet fp => value = fp - origin

namespace MethodCode

/-- The reference was made through a label. -/
def Made (this : MethodCode) (r label origin : Nat) (value : Int) : Prop :=
  this.refs[r]? = some ⟨value, some (label, origin)⟩

/-- The reference was made through a label that is placed. -/
def Led (this : MethodCode) (r origin : Nat) (fp : Int) : Prop :=
  ∃ label value, this.Made r label origin value ∧
    this.stateOf label = some (.labelSet fp)

/-- An opcode of the code with its address. -/
def Holds (this : MethodCode) (address : Nat) (o : JOpcode) : Prop :=
  Stands opcodeLength this.code.ops address o

structure Recorded (this : MethodCode) : Prop where
  counted : this.code.fp = (this.code.ops.map opcodeLength).sum
  aligned : ∀ address o start, this.Holds address o → switchOperands o = some start →
    4 ∣ address + start
  existing : ∀ address o, this.Holds address o → ∀ target ∈ targets o,
    target.1 < this.refs.length
  made : ∀ r label origin value, this.Made r label origin value → origin ≤ this.code.fp ∧
    ∃ state, this.stateOf label = some state ∧ state.Gives r origin value
  listed : ∀ label l, this.stateOf label = some (.labelNotSet l) →
    l.Nodup ∧ ∀ r ∈ l, ∃ origin value, this.Made r label origin value

/-- The branch at `address` reaches the position from where its offset counts. -/
def Reached (address width origin : Nat) (fp : Int) : Prop :=
  origin = address ∧ Fits width (fp - address)

/-- Every branch reaches its label, if that is placed. -/
def WithinReach (this : MethodCode) : Prop :=
  ∀ address o, this.Holds address o → ∀ target ∈ targets o, ∀ origin fp,
    this.Led target.1 origin fp → Reached address target.2 origin fp

/-- What a method needs of the labels that are placed already. -/
def CallReaches (this : MethodCode) (m : Method) : Prop :=
  (∀ target ∈ m.targets, target.1 < this.refs.length) → ∀ target ∈ m.targets, ∀ origin fp,
    this.Led target.1 origin fp → Reached this.code.fp target.2 origin fp

/-- What a label needs of the branches to it that are emitted already, where it is not placed. -/
def AtReaches (this : MethodCode) (label : Nat) (fp : Int) : Prop :=
  ∀ l, this.stateOf label = some (.labelNotSet l) →
    ∀ address o, this.Holds address o → ∀ target ∈ targets o, ∀ origin value,
      this.Made target.1 label origin value → Reached address target.2 origin fp

/-- What an operation needs of the state in front of it. -/
def Reaches (this : MethodCode) : CodeOperation → Prop
  | .call m => this.CallReaches m
  | .apply label f => (this.mkOffset label).CallReaches (f this.refs.length)
  | .if_ label cmp => (this.mkOffset label).CallReaches (.if_ cmp this.refs.length)
  | .ifNull label jsig => (this.mkOffset label).CallReaches (.ifNull jsig this.refs.length)
  | .ifNonnull label jsig => (this.mkOffset label).CallReaches (.ifNonnull jsig this.refs.length)
  | .goto label => (this.mkOffset label).CallReaches (.goto this.refs.length)
  | .at_ label fp => this.AtReaches label fp
  | .here label => this.AtReaches label this.code.fp
  | _ => True

theorem start_recorded : start.Recorded where
  counted := rfl
  aligned := fun _ _ _ holds => absurd holds (not_stands_nil _ _)
  existing := fun _ _ holds => absurd holds (not_stands_nil _ _)
  made := by
    intro r label origin value made
    cases made
  listed := by
    intro label l listed
    cases listed

theorem start_withinReach : start.WithinReach :=
  fun _ _ holds => absurd holds (not_stands_nil _ _)

section Calls

variable {this : MethodCode} {code : CodeBuilder} {ts : List (Nat × Nat)}

/-- The opcodes of a code that a method has added to. -/
theorem Holds.of_emits (recorded : this.Recorded) {o : JOpcode} {address : Nat}
    (ops : code.ops = this.code.ops ++ [o]) (o' : JOpcode) :
    { this with code := code }.Holds address o' ↔
      this.Holds address o' ∨ (o' = o ∧ address = this.code.fp) := by
  unfold Holds
  rw [recorded.counted, ops]
  exact stands_concat

theorem emits_recorded (recorded : this.Recorded) (emits : Emits this.code code ts)
    (known : ∀ target ∈ ts, target.1 < this.refs.length) :
    { this with code := code }.Recorded := by
  cases emits with
  | raised unchanged =>
    subst unchanged
    exact recorded
  | emitted o ops fp aligned =>
    refine ⟨?_, ?_, ?_, ?_, recorded.listed⟩
    · change code.fp = (code.ops.map opcodeLength).sum
      rw [fp, ops, recorded.counted]
      simp
    · intro address o' start holds starts
      rcases (Holds.of_emits recorded ops o').mp holds with earlier | ⟨rfl, rfl⟩
      · exact recorded.aligned address o' start earlier starts
      · exact aligned start starts
    · intro address o' holds target member
      rcases (Holds.of_emits recorded ops o').mp holds with earlier | ⟨rfl, rfl⟩
      · exact recorded.existing address o' earlier target member
      · exact known target member
    · intro r label origin value made
      obtain ⟨near, gives⟩ := recorded.made r label origin value made
      have grows : this.code.fp ≤ code.fp := by omega
      exact ⟨near.trans grows, gives⟩

theorem emits_reach (recorded : this.Recorded) (emits : Emits this.code code ts) :
    { this with code := code }.WithinReach ↔ this.WithinReach ∧
      ∀ target ∈ ts, ∀ origin fp, this.Led target.1 origin fp →
        Reached this.code.fp target.2 origin fp := by
  cases emits with
  | raised unchanged =>
    subst unchanged
    simp
  | emitted o ops fp aligned =>
    constructor
    · intro within
      constructor
      · intro address o' holds
        exact within address o' ((Holds.of_emits recorded ops o').mpr (.inl holds))
      · exact within this.code.fp o ((Holds.of_emits recorded ops o).mpr (.inr ⟨rfl, rfl⟩))
    · rintro ⟨within, reaches⟩ address o' holds
      rcases (Holds.of_emits recorded ops o').mp holds with earlier | ⟨rfl, rfl⟩
      · exact within address o' earlier
      · exact reaches

theorem call_recorded (pool : CodePool) (recorded : this.Recorded) (m : Method) :
    (this.call pool m).Recorded := by
  unfold call
  split
  · next known => exact emits_recorded recorded (CodeBuilder.call_emits pool this.code m) known
  · exact recorded

theorem call_reach (pool : CodePool) (recorded : this.Recorded) (m : Method) :
    (this.call pool m).WithinReach ↔ this.WithinReach ∧ this.CallReaches m := by
  unfold call CallReaches
  split
  · next known =>
    rw [emits_reach recorded (CodeBuilder.call_emits pool this.code m)]
    exact and_congr_right fun _ => ⟨fun reaches _ => reaches, fun reaches => reaches known⟩
  · next unknown =>
    exact ⟨fun within => ⟨within, fun known => absurd known unknown⟩, And.left⟩

end Calls

section Labels

variable {this : MethodCode}

theorem stateOf_set {labels : List Label} {code : CodeBuilder} {refs : List BranchOffset}
    {label : Nat} {l : Label} (exists_ : label < labels.length) (other : Nat) :
    stateOf ⟨code, refs, labels.set label l⟩ other =
      if other = label then some l.state else stateOf ⟨code, refs, labels⟩ other := by
  unfold stateOf
  rw [List.getElem?_set]
  by_cases same : label = other
  · subst same
    simp [exists_]
  · simp [same, Ne.symm same]

theorem lt_of_stateOf {label : Nat} {state : LabelState}
    (found : this.stateOf label = some state) : label < this.labels.length := by
  unfold stateOf at found
  obtain ⟨l, present, -⟩ := Option.map_eq_some_iff.mp found
  exact (List.getElem?_eq_some_iff.mp present).1

/-- What `mk_offset` makes: a reference that the label gives, and remembers until it is placed. -/
theorem mkOffset_cases (this : MethodCode) (label : Nat) :
    (this.stateOf label = none ∧ this.mkOffset label = this) ∨
    ∃ (state state' : LabelState) (value : Int), this.stateOf label = some state ∧
      this.mkOffset label = ⟨this.code, this.refs ++ [⟨value, some (label, this.code.fp)⟩],
        this.labels.set label ⟨state', true⟩⟩ ∧
      ((∃ l, state = .labelNotSet l ∧ state' = .labelNotSet (this.refs.length :: l) ∧
          value = this.code.fp) ∨
        ∃ fp, state = .labelSet fp ∧ state' = .labelSet fp ∧ value = fp - this.code.fp) := by
  unfold mkOffset
  dsimp only
  split
  · next l found =>
    exact .inr ⟨.labelNotSet l, _, this.code.fp, found, rfl, .inl ⟨l, rfl, rfl, rfl⟩⟩
  · next fp found =>
    exact .inr ⟨.labelSet fp, _, fp - this.code.fp, found, rfl, .inr ⟨fp, rfl, rfl, rfl⟩⟩
  · next missing => exact .inl ⟨missing, rfl⟩

/-- A reference behind all the others. -/
theorem made_concat {refs : List BranchOffset} {b : BranchOffset} {code : CodeBuilder}
    {labels : List Label} {r label origin : Nat} {value : Int} :
    Made ⟨code, refs ++ [b], labels⟩ r label origin value ↔
      refs[r]? = some ⟨value, some (label, origin)⟩ ∨
        (r = refs.length ∧ b = ⟨value, some (label, origin)⟩) := by
  unfold Made
  dsimp only
  rw [List.getElem?_append]
  split
  · next short => simp [short.ne]
  · next long =>
    rw [List.getElem?_eq_none (Nat.le_of_not_lt long)]
    simp only [reduceCtorEq, false_or]
    constructor
    · intro found
      obtain ⟨short, same⟩ := List.getElem?_eq_some_iff.mp found
      simp only [List.length_singleton] at short
      have last : r = refs.length := by omega
      subst last
      simpa using found
    · rintro ⟨rfl, rfl⟩
      simp

theorem mkOffset_recorded (recorded : this.Recorded) (label : Nat) :
    (this.mkOffset label).Recorded := by
  rcases mkOffset_cases this label with ⟨-, same⟩ | ⟨state, state', value, found, made, change⟩
  · rw [same]
    exact recorded
  rw [made]
  have present := lt_of_stateOf found
  refine ⟨recorded.counted, recorded.aligned, ?_, ?_, ?_⟩
  · intro address o holds target member
    have existing := recorded.existing address o holds target member
    simp only [List.length_append, List.length_singleton]
    omega
  · intro r label' origin value' made'
    rw [stateOf_set present]
    rcases made_concat.mp made' with earlier | ⟨rfl, same⟩
    · obtain ⟨near, before, found', gives⟩ := recorded.made r label' origin value' earlier
      refine ⟨near, ?_⟩
      split
      · next same =>
        subst same
        obtain rfl := Option.some.inj (found.symm.trans found')
        rcases change with ⟨l, rfl, rfl, -⟩ | ⟨fp, rfl, rfl, -⟩
        · exact ⟨_, rfl, List.mem_cons_of_mem _ gives.1, gives.2⟩
        · exact ⟨_, rfl, gives⟩
      · exact ⟨before, found', gives⟩
    · cases same
      refine ⟨le_rfl, state', if_pos rfl, ?_⟩
      rcases change with ⟨l, rfl, rfl, rfl⟩ | ⟨fp, rfl, rfl, rfl⟩
      · exact ⟨List.mem_cons_self, rfl⟩
      · rfl
  · intro label' l' found'
    rw [stateOf_set present] at found'
    split at found'
    · next same =>
      subst same
      rcases change with ⟨l, rfl, rfl, rfl⟩ | ⟨fp, rfl, rfl, rfl⟩
      · cases found'
        obtain ⟨distinct, listed⟩ := recorded.listed label' l found
        constructor
        · apply List.nodup_cons.mpr ⟨?_, distinct⟩
          intro member
          obtain ⟨origin, value', earlier⟩ := listed _ member
          exact absurd (List.getElem?_eq_some_iff.mp earlier).1 (lt_irrefl _)
        · intro r member
          rcases List.mem_cons.mp member with rfl | earlier
          · exact ⟨this.code.fp, this.code.fp, made_concat.mpr (.inr ⟨rfl, rfl⟩)⟩
          · obtain ⟨origin, value', earlier⟩ := listed r earlier
            exact ⟨origin, value', made_concat.mpr (.inl earlier)⟩
      · cases found'
    · obtain ⟨distinct, listed⟩ := recorded.listed label' l' found'
      refine ⟨distinct, ?_⟩
      intro r member
      obtain ⟨origin, value', earlier⟩ := listed r member
      exact ⟨origin, value', made_concat.mpr (.inl earlier)⟩

/-- A reference that exists leads where it has led. -/
theorem mkOffset_led (label : Nat) {r origin : Nat} {fp : Int} (known : r < this.refs.length) :
    (this.mkOffset label).Led r origin fp ↔ this.Led r origin fp := by
  rcases mkOffset_cases this label with ⟨-, same⟩ | ⟨state, state', value, found, made, change⟩
  · rw [same]
  rw [made]
  have present := lt_of_stateOf found
  apply exists_congr
  intro label'
  apply exists_congr
  intro value'
  rw [made_concat, stateOf_set present]
  apply and_congr
  · simp [known.ne, Made]
  · split
    · next same =>
      subst same
      change some state' = _ ↔ this.stateOf label' = _
      rw [found]
      rcases change with ⟨l, rfl, rfl, rfl⟩ | ⟨fp', rfl, rfl, rfl⟩ <;> simp
    · rfl

theorem mkOffset_holds (label address : Nat) (o : JOpcode) :
    (this.mkOffset label).Holds address o ↔ this.Holds address o := by
  rcases mkOffset_cases this label with ⟨-, same⟩ | ⟨state, state', value, found, made, change⟩
  · rw [same]
  · rw [made]
    rfl

theorem mkOffset_reach (recorded : this.Recorded) (label : Nat) :
    (this.mkOffset label).WithinReach ↔ this.WithinReach := by
  apply forall_congr'
  intro address
  apply forall_congr'
  intro o
  rw [mkOffset_holds]
  apply forall_congr'
  intro holds
  apply forall₂_congr
  intro target member
  apply forall₂_congr
  intro origin fp
  rw [mkOffset_led label (recorded.existing address o holds target member)]

/-- Every reference of a label is patched once. -/
theorem patched (fp : Int) {l : List Nat} (distinct : l.Nodup) (refs : List BranchOffset)
    (r : Nat) :
    (l.foldl (patch fp) refs)[r]? =
      if r ∈ l then (refs[r]?).map fun b => { b with value := fp - b.value } else refs[r]? := by
  induction l generalizing refs with
  | nil => simp
  | cons first l ih =>
    obtain ⟨fresh, distinct⟩ := List.nodup_cons.mp distinct
    rw [List.foldl_cons, ih distinct]
    unfold patch
    rw [List.getElem?_modify]
    by_cases same : first = r
    · subst same
      simp [fresh]
    · simp [same, Ne.symm same]

theorem length_patched (fp : Int) (l : List Nat) (refs : List BranchOffset) :
    (l.foldl (patch fp) refs).length = refs.length := by
  induction l generalizing refs with
  | nil => rfl
  | cons first l ih =>
    rw [List.foldl_cons, ih]
    exact List.length_modify _ _ _

/-- A label is placed, with all the references to it. -/
theorem at_cases (this : MethodCode) (label : Nat) (fp : Int) :
    ((∀ l, this.stateOf label ≠ some (.labelNotSet l)) ∧ this.at_ label fp = this) ∨
    ∃ l wasJumpedTo, this.stateOf label = some (.labelNotSet l) ∧
      this.at_ label fp = ⟨this.code, l.foldl (patch fp) this.refs,
        this.labels.set label ⟨.labelSet fp, wasJumpedTo⟩⟩ := by
  unfold at_
  split
  · next l wasJumpedTo found => exact .inr ⟨l, wasJumpedTo, by simp [stateOf, found], rfl⟩
  · next other =>
    refine .inl ⟨?_, rfl⟩
    intro l found
    obtain ⟨⟨state, wasJumpedTo⟩, present, same⟩ := Option.map_eq_some_iff.mp found
    subst same
    exact other l wasJumpedTo present

theorem at_made (recorded : this.Recorded) {label : Nat} {l : List Nat} (fp : Int)
    (found : this.stateOf label = some (.labelNotSet l)) {labels : List Label}
    {r label' origin : Nat} {value : Int} :
    Made ⟨this.code, l.foldl (patch fp) this.refs, labels⟩ r label' origin value ↔
      ∃ before, this.Made r label' origin before ∧
        value = if label' = label then fp - before else before := by
  have member : ∀ {origin' : Nat} {before : Int}, this.Made r label' origin' before →
      (r ∈ l ↔ label' = label) := by
    intro origin' before made
    constructor
    · intro listed
      obtain ⟨_, _, made'⟩ := (recorded.listed label l found).2 r listed
      unfold Made at made made'
      rw [made] at made'
      simp only [Option.some.injEq, BranchOffset.mk.injEq, Prod.mk.injEq] at made'
      exact made'.2.1
    · rintro rfl
      obtain ⟨-, state, found', gives⟩ := recorded.made r label' origin' before made
      obtain rfl := Option.some.inj (found.symm.trans found')
      exact gives.1
  unfold Made
  dsimp only
  rw [patched fp (recorded.listed label l found).1]
  constructor
  · intro made
    split at made
    · next listed =>
      obtain ⟨⟨before, by_⟩, present, same⟩ := Option.map_eq_some_iff.mp made
      simp only [BranchOffset.mk.injEq] at same
      obtain ⟨rfl, rfl⟩ := same
      refine ⟨before, present, ?_⟩
      rw [if_pos ((member present).mp listed)]
    · next unlisted =>
      refine ⟨value, made, ?_⟩
      rw [if_neg (fun same => unlisted ((member made).mpr same))]
  · rintro ⟨before, made, rfl⟩
    split
    · next listed =>
      rw [if_pos ((member made).mp listed), made]
      rfl
    · next unlisted => rw [if_neg (fun same => unlisted ((member made).mpr same)), made]

theorem at_recorded (recorded : this.Recorded) (label : Nat) (fp : Int) :
    (this.at_ label fp).Recorded := by
  rcases at_cases this label fp with ⟨-, same⟩ | ⟨l, wasJumpedTo, found, placed⟩
  · rw [same]
    exact recorded
  rw [placed]
  have present := lt_of_stateOf found
  refine ⟨recorded.counted, recorded.aligned, ?_, ?_, ?_⟩
  · intro address o holds target member
    rw [length_patched]
    exact recorded.existing address o holds target member
  · intro r label' origin value made
    obtain ⟨before, earlier, rfl⟩ := (at_made recorded fp found).mp made
    obtain ⟨near, state, found', gives⟩ := recorded.made r label' origin before earlier
    refine ⟨near, ?_⟩
    rw [stateOf_set present]
    split
    · next same =>
      subst same
      obtain rfl := Option.some.inj (found.symm.trans found')
      refine ⟨.labelSet fp, rfl, ?_⟩
      rw [gives.2]
      rfl
    · exact ⟨state, found', gives⟩
  · intro label' l' found'
    rw [stateOf_set present] at found'
    split at found'
    · cases found'
    · obtain ⟨distinct, listed⟩ := recorded.listed label' l' found'
      refine ⟨distinct, ?_⟩
      intro r member
      obtain ⟨origin, value, earlier⟩ := listed r member
      exact ⟨origin, _, (at_made recorded fp found).mpr ⟨value, earlier, rfl⟩⟩

theorem at_led (recorded : this.Recorded) {label : Nat} {l : List Nat} {fp : Int}
    (found : this.stateOf label = some (.labelNotSet l)) {wasJumpedTo : Bool} {r origin : Nat}
    {fp' : Int} :
    Led ⟨this.code, l.foldl (patch fp) this.refs,
        this.labels.set label ⟨.labelSet fp, wasJumpedTo⟩⟩ r origin fp' ↔
      this.Led r origin fp' ∨ (∃ value, this.Made r label origin value) ∧ fp' = fp := by
  have present := lt_of_stateOf found
  constructor
  · rintro ⟨label', value, made, state⟩
    obtain ⟨before, earlier, -⟩ := (at_made recorded fp found).mp made
    rw [stateOf_set present] at state
    split at state
    · next same =>
      subst same
      cases state
      exact .inr ⟨⟨before, earlier⟩, rfl⟩
    · exact .inl ⟨label', before, earlier, state⟩
  · rintro (⟨label', before, earlier, state⟩ | ⟨⟨before, earlier⟩, rfl⟩)
    · refine ⟨label', _, (at_made recorded fp found).mpr ⟨before, earlier, rfl⟩, ?_⟩
      rw [stateOf_set present]
      split
      · next same =>
        subst same
        rw [found] at state
        cases state
      · exact state
    · refine ⟨label, _, (at_made recorded fp' found).mpr ⟨before, earlier, rfl⟩, ?_⟩
      rw [stateOf_set present, if_pos rfl]

theorem at_reach (recorded : this.Recorded) (label : Nat) (fp : Int) :
    (this.at_ label fp).WithinReach ↔ this.WithinReach ∧ this.AtReaches label fp := by
  rcases at_cases this label fp with ⟨unplaced, same⟩ | ⟨l, wasJumpedTo, found, placed⟩
  · rw [same]
    exact ⟨fun within => ⟨within, fun l found => absurd found (unplaced l)⟩, And.left⟩
  rw [placed]
  constructor
  · intro within
    constructor
    · intro address o holds target member origin fp' led
      exact within address o holds target member origin fp'
        ((at_led recorded found).mpr (.inl led))
    · intro l' found' address o holds target member origin value made
      exact within address o holds target member origin fp
        ((at_led recorded found).mpr (.inr ⟨⟨value, made⟩, rfl⟩))
  · rintro ⟨within, reaches⟩ address o holds target member origin fp' led
    rcases (at_led recorded found).mp led with earlier | ⟨⟨value, made⟩, rfl⟩
    · exact within address o holds target member origin fp' earlier
    · exact reaches l found address o holds target member origin value made

end Labels

end MethodCode

end Haxe.Source.Jvm
