import Haxe.Source.Generators.ConstantPoolBytes

/-!
# Runs of the constant pool

What the pool holds after any requests: the constants in the order of their indices, each of them
once up to the equality of a `Hashtbl`, and every answer goes back to one of them.
-/

namespace Haxe.Source.JvmConstantPool

open Jvm (JOpcode writeOpcode)
open Theory StackMapFormat ConstantPoolFormat

theorem JvmConstant.width_positive (c : JvmConstant) : 0 < c.width := by
  cases c <;> simp [width]

namespace ConstantPool

/-- The constants of a pool with their indices. -/
def entries (this : ConstantPool) : List (Nat × JvmConstant) :=
  numbered JvmConstant.width 1 this.pool

structure Consistent (this : ConstantPool) : Prop where
  lut : ∀ c i, (c, i) ∈ this.lut ↔ (i, c) ∈ this.entries
  luti : ∀ i c, (i, c) ∈ this.entries → this.get i = some c
  keys : (this.pool.map JvmConstant.key).Nodup
  next : this.nextIndex = 1 + slots JvmConstant.width this.pool
  opened : this.closed = false

/-- An index is one of a constant that equals the given one. -/
def Found (this : ConstantPool) (i : Nat) (c : JvmConstant) : Prop :=
  ∃ c', (i, c') ∈ this.entries ∧ c'.key = c.key

theorem create_consistent : create.Consistent where
  lut _ _ := iff_of_false List.not_mem_nil List.not_mem_nil
  luti _ _ member := absurd member List.not_mem_nil
  keys := List.nodup_nil
  next := rfl
  opened := rfl

variable {this later : ConstantPool} {c : JvmConstant} {i : Nat}

theorem entries_append (this : ConstantPool) (c : JvmConstant) (consistent : this.Consistent) :
    (this.append c).entries = this.entries ++ [(this.nextIndex, c)] := by
  rw [consistent.next]
  exact numbered_append 1 this.pool [c]

theorem found_of_find (consistent : this.Consistent) (found : this.find c = some i) :
    this.Found i c := by
  obtain ⟨entry, first, rfl⟩ := Option.map_eq_some_iff.mp found
  have equal : entry.1.key = c.key := of_decide_eq_true (List.find?_some first :)
  exact ⟨entry.1, (consistent.lut entry.1 entry.2).mp (List.mem_of_find?_eq_some first), equal⟩

theorem key_fresh (consistent : this.Consistent) (missing : this.find c = none) :
    c.key ∉ this.pool.map JvmConstant.key := by
  intro member
  obtain ⟨c', inside, equal⟩ := List.mem_map.mp member
  obtain ⟨i, numbered⟩ := @exists_numbered _ JvmConstant.width _ _ 1 inside
  have none_equal := List.find?_eq_none.mp (Option.map_eq_none_iff.mp missing) (c', i)
    ((consistent.lut c' i).mpr numbered)
  exact none_equal (decide_eq_true equal)

theorem get_append (consistent : this.Consistent) {i : Nat} {c' : JvmConstant}
    (member : (i, c') ∈ (this.append c).entries) : (this.append c).get i = some c' := by
  rw [entries_append this c consistent] at member
  unfold get append
  dsimp only
  rcases List.mem_append.mp member with old | new
  · have below := index_bounds JvmConstant.width_positive old
    have apart : (i == this.nextIndex) = false := by
      rw [consistent.next]
      exact beq_false_of_ne (by omega)
    obtain ⟨k, position, there⟩ := Option.bind_eq_some_iff.mp (consistent.luti i c' old)
    rw [List.lookup_cons, apart, position]
    obtain ⟨inside, _⟩ := List.getElem?_eq_some_iff.mp there
    exact (List.getElem?_append_left inside).trans there
  · obtain ⟨rfl, rfl⟩ := Prod.mk.inj (List.mem_singleton.mp new)
    rw [List.lookup_cons_self]
    exact List.getElem?_concat_length

theorem append_consistent (consistent : this.Consistent) (missing : this.find c = none) :
    (this.append c).Consistent where
  lut c' i := by
    rw [entries_append this c consistent, List.mem_append, List.mem_singleton, Prod.mk.injEq,
      ← consistent.lut c' i]
    show (c', i) ∈ (c, this.nextIndex) :: this.lut ↔ _
    rw [List.mem_cons, Prod.mk.injEq, and_comm, or_comm]
  luti _ _ member := get_append consistent member
  keys := by
    show ((this.pool ++ [c]).map JvmConstant.key).Nodup
    rw [List.map_append, List.nodup_append]
    refine ⟨consistent.keys, List.nodup_cons.mpr ⟨List.not_mem_nil, List.nodup_nil⟩, ?_⟩
    intro k old k' new equal
    rw [equal, List.mem_singleton.mp new] at old
    exact key_fresh consistent missing old
  next := by
    show this.nextIndex + c.width = 1 + slots JvmConstant.width (this.pool ++ [c])
    rw [consistent.next, slots_append, Nat.add_assoc]
    rfl
  opened := consistent.opened

/-- What `add` leaves: the constants there were, and perhaps the given one behind them. -/
structure Grown (this later : ConstantPool) (added : List JvmConstant) : Prop where
  consistent : later.Consistent
  kept : ∀ entry ∈ this.entries, entry ∈ later.entries
  new : ∀ c ∈ later.pool, c ∈ this.pool ∨ c ∈ added

theorem Grown.refl (consistent : this.Consistent) (added : List JvmConstant) :
    Grown this this added :=
  ⟨consistent, fun _ => id, fun _ => .inl⟩

theorem Found.grown {added : List JvmConstant} (found : this.Found i c)
    (grown : Grown this later added) : later.Found i c := by
  obtain ⟨c', member, equal⟩ := found
  exact ⟨c', grown.kept _ member, equal⟩

/-- `add` never fails while the pool is open. -/
theorem add_total (consistent : this.Consistent) (c : JvmConstant) :
    ∃ i later, this.add c = some (i, later) := by
  unfold add
  split
  · exact ⟨_, _, rfl⟩
  · rw [consistent.opened]
    exact ⟨_, _, rfl⟩

theorem add_grown (consistent : this.Consistent) (added : this.add c = some (i, later)) :
    Grown this later [c] ∧ later.Found i c := by
  unfold add at added
  split at added
  · rename_i found
    obtain ⟨rfl, rfl⟩ := Prod.mk.inj (Option.some.inj added)
    exact ⟨Grown.refl consistent _, found_of_find consistent found⟩
  · rename_i missing
    rw [consistent.opened] at added
    obtain ⟨rfl, rfl⟩ := Prod.mk.inj (Option.some.inj added)
    have entries_eq := entries_append this c consistent
    refine ⟨⟨append_consistent consistent missing, fun entry member => ?_, fun c' member => ?_⟩,
      c, ?_, rfl⟩
    · rw [entries_eq]
      exact List.mem_append_left _ member
    · exact List.mem_append.mp member
    · rw [entries_eq]
      exact List.mem_append_right _ (List.mem_singleton_self _)

end ConstantPool

/-- An instruction pushes a value whatever the constants are. -/
def Direct (op : JOpcode) (value : Value) : Prop :=
  ∀ entries refs, pushed entries (writeOpcode refs op) = some value

/-- An instruction loads the constant at an index. -/
def Loads (op : JOpcode) (offset : Nat) : Prop :=
  op = .opLdc offset ∧ offset < 0xFF ∨ op = .opLdcW offset

/-- An instruction of two words. -/
def Loads2 (op : JOpcode) (offset : Nat) : Prop := op = .opLdc2W offset

theorem pushed_bipush {i32 : BitVec 32} (small : -128 ≤ i32.toInt ∧ i32.toInt ≤ 127) :
    Direct (.opBipush i32.toInt) (.int i32) := by
  intro entries refs
  show some (Value.int (signed 8 (i32.toInt % 256).toNat)) = _
  have value : signed 8 (i32.toInt % 256).toNat = i32 := by
    apply BitVec.eq_of_toInt_eq
    rw [signed, BitVec.toInt_signExtend_of_le (by omega), BitVec.toInt_eq_toNat_cond,
      BitVec.toNat_ofNat]
    split <;> omega
  rw [value]

theorem pushed_sipush {i32 : BitVec 32} (small : -32768 ≤ i32.toInt ∧ i32.toInt ≤ 32767) :
    Direct (.opSipush i32.toInt) (.int i32) := by
  intro entries refs
  show some (Value.int (signed 16
    ((i32.toInt / 0x100 % 256).toNat * 256 + (i32.toInt % 256).toNat))) = _
  have value :
      signed 16 ((i32.toInt / 0x100 % 256).toNat * 256 + (i32.toInt % 256).toNat) = i32 := by
    apply BitVec.eq_of_toInt_eq
    rw [signed, BitVec.toInt_signExtend_of_le (by omega), BitVec.toInt_eq_toNat_cond,
      BitVec.toNat_ofNat]
    split <;> omega
  rw [value]

section Pushed

variable {entries : List (Nat × Info)} {offset : Nat} {info : Info} {op : JOpcode}

theorem pushed_loads (found : entries.lookup offset = some info) (fits : offset ≤ 0xffff)
    (loads : Loads op offset) (refs : Nat → Int) :
    pushed entries (writeOpcode refs op) = loaded info := by
  rcases loads with ⟨rfl, small⟩ | rfl
  · show (entries.lookup ((offset : Int) % 256).toNat).bind loaded = _
    have same : ((offset : Int) % 256).toNat = offset := by omega
    rw [same, found]
    rfl
  · show (entries.lookup
      (((offset : Int) / 0x100 % 256).toNat * 256 + ((offset : Int) % 256).toNat)).bind loaded = _
    have same : ((offset : Int) / 0x100 % 256).toNat * 256 + ((offset : Int) % 256).toNat =
        offset := by omega
    rw [same, found]
    rfl

theorem pushed_loads2 (found : entries.lookup offset = some info) (fits : offset ≤ 0xffff)
    (loads : Loads2 op offset) (refs : Nat → Int) :
    pushed entries (writeOpcode refs op) = loaded2 info := by
  obtain rfl := loads
  show (entries.lookup
    (((offset : Int) / 0x100 % 256).toNat * 256 + ((offset : Int) % 256).toNat)).bind loaded2 = _
  have same : ((offset : Int) / 0x100 % 256).toNat * 256 + ((offset : Int) % 256).toNat =
      offset := by omega
  rw [same, found]
  rfl

end Pushed

namespace ConstantPool

variable {this later : ConstantPool} {op : JOpcode × Nat}

/-- A short instruction, or one that loads a constant of the pool. -/
def Chosen (this later : ConstantPool) (op : JOpcode) (value : Value) (c : JvmConstant)
    (loads : JOpcode → Nat → Prop) : Prop :=
  later = this ∧ Direct op value ∨
    ∃ offset, this.add c = some (offset, later) ∧ loads op offset

theorem iconst_chosen {i32 : BitVec 32} (chosen : this.iconst i32 = some (op, later)) :
    Chosen this later op.1 (.int i32) (.constInt i32) Loads := by
  have direct {code : JOpcode} {length : Nat} (pushes : Direct code (.int i32))
      (chosen : some ((code, length), this) = some (op, later)) :
      Chosen this later op.1 (.int i32) (.constInt i32) Loads := by
    obtain ⟨rfl, rfl⟩ := Prod.mk.inj (Option.some.inj chosen)
    exact .inl ⟨rfl, pushes⟩
  have short {code : JOpcode} (number : BitVec 32) (pushes : Direct code (.int number))
      (equal : i32.toInt = number.toInt) : Direct code (.int i32) := by
    rw [BitVec.eq_of_toInt_eq equal]
    exact pushes
  unfold iconst at chosen
  dsimp only at chosen
  split at chosen
  · exact direct (short (-1) (fun _ _ => rfl) ‹_›) chosen
  split at chosen
  · exact direct (short 0 (fun _ _ => rfl) ‹_›) chosen
  split at chosen
  · exact direct (short 1 (fun _ _ => rfl) ‹_›) chosen
  split at chosen
  · exact direct (short 2 (fun _ _ => rfl) ‹_›) chosen
  split at chosen
  · exact direct (short 3 (fun _ _ => rfl) ‹_›) chosen
  split at chosen
  · exact direct (short 4 (fun _ _ => rfl) ‹_›) chosen
  split at chosen
  · exact direct (short 5 (fun _ _ => rfl) ‹_›) chosen
  unfold Jvm.CodeBuilder.getNumericRange at chosen
  split at chosen
  · rename_i range
    exact direct (pushed_bipush (by split at range <;> [omega; split at range <;> cases range]))
      chosen
  · rename_i range
    exact direct (pushed_sipush
      (by split at range <;> [cases range; split at range <;> [omega; cases range]])) chosen
  · obtain ⟨added, found, chosen⟩ := Option.map_eq_some_iff.mp chosen
    obtain ⟨rfl, rfl⟩ := Prod.mk.inj chosen
    refine .inr ⟨added.1, found, ?_⟩
    by_cases small : added.1 < 0xFF
    · rw [if_pos small]
      exact .inl ⟨rfl, small⟩
    · rw [if_neg small]
      exact .inr rfl

theorem lconst_chosen {d : BitVec 64} (chosen : this.lconst d = some (op, later)) :
    Chosen this later op.1 (.long d) (.constLong d) Loads2 := by
  unfold lconst at chosen
  split at chosen
  · rename_i zero
    obtain ⟨rfl, rfl⟩ := Prod.mk.inj (Option.some.inj chosen)
    rw [zero]
    exact .inl ⟨rfl, fun _ _ => rfl⟩
  split at chosen
  · rename_i one
    obtain ⟨rfl, rfl⟩ := Prod.mk.inj (Option.some.inj chosen)
    rw [one]
    exact .inl ⟨rfl, fun _ _ => rfl⟩
  · obtain ⟨added, found, chosen⟩ := Option.map_eq_some_iff.mp chosen
    obtain ⟨rfl, rfl⟩ := Prod.mk.inj chosen
    exact .inr ⟨added.1, found, rfl⟩

/-- A zero of any sign is pushed as the positive one. -/
theorem fconst_chosen {f : OFloat} (chosen : this.fconst f = some (op, later)) :
    if OFloat.isZero f then later = this ∧ Direct op.1 (.float 0)
    else Chosen this later op.1 (.float (bitsOfFloat f)) (.constFloat f) Loads := by
  unfold fconst at chosen
  split at chosen
  · rename_i zero
    obtain ⟨rfl, rfl⟩ := Prod.mk.inj (Option.some.inj chosen)
    rw [if_pos zero]
    exact ⟨rfl, fun _ _ => rfl⟩
  rename_i zero
  rw [if_neg zero]
  split at chosen
  · rename_i one
    obtain ⟨rfl, rfl⟩ := Prod.mk.inj (Option.some.inj chosen)
    rw [one]
    exact .inl ⟨rfl, fun _ _ => rfl⟩
  split at chosen
  · rename_i two
    obtain ⟨rfl, rfl⟩ := Prod.mk.inj (Option.some.inj chosen)
    rw [two]
    exact .inl ⟨rfl, fun _ _ => rfl⟩
  · obtain ⟨added, found, chosen⟩ := Option.map_eq_some_iff.mp chosen
    obtain ⟨rfl, rfl⟩ := Prod.mk.inj chosen
    exact .inr ⟨added.1, found, .inr rfl⟩

theorem dconst_chosen {f : OFloat} (chosen : this.dconst f = some (op, later)) :
    if OFloat.isZero f then later = this ∧ Direct op.1 (.double 0)
    else Chosen this later op.1 (.double f) (.constDouble f) Loads2 := by
  unfold dconst at chosen
  split at chosen
  · rename_i zero
    obtain ⟨rfl, rfl⟩ := Prod.mk.inj (Option.some.inj chosen)
    rw [if_pos zero]
    exact ⟨rfl, fun _ _ => rfl⟩
  rename_i zero
  rw [if_neg zero]
  split at chosen
  · rename_i one
    obtain ⟨rfl, rfl⟩ := Prod.mk.inj (Option.some.inj chosen)
    rw [one]
    exact .inl ⟨rfl, fun _ _ => rfl⟩
  · obtain ⟨added, found, chosen⟩ := Option.map_eq_some_iff.mp chosen
    obtain ⟨rfl, rfl⟩ := Prod.mk.inj chosen
    exact .inr ⟨added.1, found, rfl⟩

end ConstantPool

/-- A zero is loaded without a constant. -/
def nonzero (f : OFloat) (c : JvmConstant) : List JvmConstant :=
  if OFloat.isZero f then [] else [c]

theorem mem_nonzero {f : OFloat} {c c' : JvmConstant} :
    c' ∈ nonzero f c ↔ ¬ OFloat.isZero f = true ∧ c' = c := by
  unfold nonzero
  split
  · rename_i zero
    exact iff_of_false List.not_mem_nil fun found => found.1 zero
  · rename_i number
    rw [List.mem_singleton, and_iff_right number]

/-- The constants that a request may add. -/
def Request.constants : Request → List JvmConstant
  | .add c => [c]
  | .iconst i32 => [.constInt i32]
  | .lconst d => [.constLong d]
  | .fconst f => nonzero f (.constFloat f)
  | .dconst f => nonzero f (.constDouble f)

namespace ConstantPool

variable {this later : ConstantPool}

/-- An instruction pushes a value directly, or loads a constant that the pool holds. -/
def Settled (this : ConstantPool) (op : JOpcode) (value : Value) (c : JvmConstant)
    (loads : JOpcode → Nat → Prop) : Prop :=
  Direct op value ∨ ∃ offset, this.Found offset c ∧ loads op offset

/-- All zeros are pushed as one value. -/
def SettledOrZero (this : ConstantPool) (op : JOpcode) (f : OFloat) (zero value : Value)
    (c : JvmConstant) (loads : JOpcode → Nat → Prop) : Prop :=
  if OFloat.isZero f then Direct op zero else this.Settled op value c loads

/-- What the answer to a request goes back to. -/
def Sound (this : ConstantPool) : Request → Answer → Prop
  | .add c, .index i => this.Found i c
  | .iconst i32, .instruction op => this.Settled op.1 (.int i32) (.constInt i32) Loads
  | .lconst d, .instruction op => this.Settled op.1 (.long d) (.constLong d) Loads2
  | .fconst f, .instruction op =>
    this.SettledOrZero op.1 f (.float 0) (.float (bitsOfFloat f)) (.constFloat f) Loads
  | .dconst f, .instruction op =>
    this.SettledOrZero op.1 f (.double 0) (.double f) (.constDouble f) Loads2
  | _, _ => False

theorem Settled.grown {op : JOpcode} {value : Value} {c : JvmConstant}
    {loads : JOpcode → Nat → Prop} {added : List JvmConstant}
    (settled : this.Settled op value c loads) (grown : Grown this later added) :
    later.Settled op value c loads :=
  settled.imp_right fun ⟨offset, found, loaded⟩ => ⟨offset, found.grown grown, loaded⟩

theorem SettledOrZero.grown {op : JOpcode} {f : OFloat} {zero value : Value} {c : JvmConstant}
    {loads : JOpcode → Nat → Prop} {added : List JvmConstant}
    (settled : this.SettledOrZero op f zero value c loads) (grown : Grown this later added) :
    later.SettledOrZero op f zero value c loads := by
  unfold SettledOrZero at settled ⊢
  split at settled
  · rename_i isZero
    rw [if_pos isZero]
    exact settled
  · rename_i isZero
    rw [if_neg isZero]
    exact settled.grown grown

/-- What answers go back to is kept. -/
theorem Sound.grown {request : Request} {answer : Answer} {added : List JvmConstant}
    (sound : this.Sound request answer) (grown : Grown this later added) :
    later.Sound request answer := by
  cases answer with
  | index i =>
    cases request with
    | add c => exact Found.grown sound grown
    | _ => exact sound.elim
  | instruction op =>
    cases request with
    | add c => exact sound.elim
    | iconst i32 => exact Settled.grown sound grown
    | lconst d => exact Settled.grown sound grown
    | fconst f => exact SettledOrZero.grown sound grown
    | dconst f => exact SettledOrZero.grown sound grown

theorem chosen_grown {op : JOpcode} {value : Value} {c : JvmConstant}
    {loads : JOpcode → Nat → Prop} (consistent : this.Consistent)
    (chosen : Chosen this later op value c loads) :
    Grown this later [c] ∧ later.Settled op value c loads := by
  rcases chosen with ⟨rfl, direct⟩ | ⟨offset, added, loaded⟩
  · exact ⟨Grown.refl consistent _, .inl direct⟩
  · have grown := add_grown consistent added
    exact ⟨grown.1, .inr ⟨offset, grown.2, loaded⟩⟩

theorem chosen_or_zero {op : JOpcode} {f : OFloat} {zero value : Value} {c : JvmConstant}
    {loads : JOpcode → Nat → Prop} (consistent : this.Consistent)
    (chosen : if OFloat.isZero f then later = this ∧ Direct op zero
      else Chosen this later op value c loads) :
    Grown this later (nonzero f c) ∧ later.SettledOrZero op f zero value c loads := by
  unfold SettledOrZero nonzero
  split at chosen
  · rename_i isZero
    rw [if_pos isZero, if_pos isZero, chosen.1]
    exact ⟨Grown.refl consistent _, chosen.2⟩
  · rename_i isZero
    rw [if_neg isZero, if_neg isZero]
    exact chosen_grown consistent chosen

/-- One request. -/
theorem request_grown {request : Request} {answer : Answer} (consistent : this.Consistent)
    (asked : this.request request = some (answer, later)) :
    Grown this later request.constants ∧ later.Sound request answer := by
  cases request with
  | add c =>
    obtain ⟨added, found, asked⟩ := Option.map_eq_some_iff.mp asked
    obtain ⟨rfl, rfl⟩ := Prod.mk.inj asked
    exact add_grown consistent found
  | iconst i32 =>
    obtain ⟨chosen, found, asked⟩ := Option.map_eq_some_iff.mp asked
    obtain ⟨rfl, rfl⟩ := Prod.mk.inj asked
    exact chosen_grown consistent (iconst_chosen found)
  | lconst d =>
    obtain ⟨chosen, found, asked⟩ := Option.map_eq_some_iff.mp asked
    obtain ⟨rfl, rfl⟩ := Prod.mk.inj asked
    exact chosen_grown consistent (lconst_chosen found)
  | fconst f =>
    obtain ⟨chosen, found, asked⟩ := Option.map_eq_some_iff.mp asked
    obtain ⟨rfl, rfl⟩ := Prod.mk.inj asked
    exact chosen_or_zero consistent (fconst_chosen found)
  | dconst f =>
    obtain ⟨chosen, found, asked⟩ := Option.map_eq_some_iff.mp asked
    obtain ⟨rfl, rfl⟩ := Prod.mk.inj asked
    exact chosen_or_zero consistent (dconst_chosen found)

theorem Grown.trans {middle : ConstantPool} {added more : List JvmConstant}
    (first : Grown this middle added) (second : Grown middle later more) :
    Grown this later (added ++ more) where
  consistent := second.consistent
  kept entry member := second.kept entry (first.kept entry member)
  new c member := by
    rcases second.new c member with old | new
    · exact (first.new c old).imp_right (List.mem_append_left _)
    · exact .inr (List.mem_append_right _ new)

/-- Any requests. -/
theorem requests_grown {requests : List Request} {answers : List (Request × Answer)}
    (consistent : this.Consistent) (asked : this.requests requests = some (answers, later)) :
    Grown this later (requests.flatMap Request.constants) ∧ answers.map Prod.fst = requests ∧
      ∀ entry ∈ answers, later.Sound entry.1 entry.2 := by
  induction requests generalizing this answers with
  | nil =>
    obtain ⟨rfl, rfl⟩ := Prod.mk.inj (Option.some.inj asked)
    exact ⟨Grown.refl consistent _, rfl, fun entry member => nomatch member⟩
  | cons request requests ih =>
    obtain ⟨first, one, asked⟩ := Option.bind_eq_some_iff.mp asked
    obtain ⟨others, more, asked⟩ := Option.bind_eq_some_iff.mp asked
    obtain ⟨rfl, rfl⟩ := Prod.mk.inj (Option.some.inj asked)
    have here := request_grown consistent one
    have behind := ih here.1.consistent more
    refine ⟨here.1.trans behind.1, congrArg _ behind.2.1, fun entry member => ?_⟩
    rcases List.mem_cons.mp member with rfl | member
    · exact here.2.grown behind.1
    · exact behind.2.2 entry member

section Total

variable (consistent : this.Consistent)
include consistent

theorem iconst_total (i32 : BitVec 32) : ∃ chosen, this.iconst i32 = some chosen := by
  obtain ⟨i, later, added⟩ := add_total consistent (.constInt i32)
  unfold iconst
  dsimp only
  rw [added]
  repeat (split; · exact ⟨_, rfl⟩)
  all_goals exact ⟨_, rfl⟩

theorem lconst_total (d : BitVec 64) : ∃ chosen, this.lconst d = some chosen := by
  obtain ⟨i, later, added⟩ := add_total consistent (.constLong d)
  unfold lconst
  rw [added]
  repeat (split; · exact ⟨_, rfl⟩)
  exact ⟨_, rfl⟩

theorem fconst_total (f : OFloat) : ∃ chosen, this.fconst f = some chosen := by
  obtain ⟨i, later, added⟩ := add_total consistent (.constFloat f)
  unfold fconst
  rw [added]
  repeat (split; · exact ⟨_, rfl⟩)
  exact ⟨_, rfl⟩

theorem dconst_total (f : OFloat) : ∃ chosen, this.dconst f = some chosen := by
  obtain ⟨i, later, added⟩ := add_total consistent (.constDouble f)
  unfold dconst
  rw [added]
  repeat (split; · exact ⟨_, rfl⟩)
  exact ⟨_, rfl⟩

theorem request_total (request : Request) :
    ∃ answered, this.request request = some answered := by
  cases request with
  | add c =>
    obtain ⟨i, later, added⟩ := add_total consistent c
    exact ⟨_, by rw [ConstantPool.request, added]; rfl⟩
  | iconst i32 =>
    obtain ⟨chosen, total⟩ := iconst_total consistent i32
    exact ⟨_, by rw [ConstantPool.request, total]; rfl⟩
  | lconst d =>
    obtain ⟨chosen, total⟩ := lconst_total consistent d
    exact ⟨_, by rw [ConstantPool.request, total]; rfl⟩
  | fconst f =>
    obtain ⟨chosen, total⟩ := fconst_total consistent f
    exact ⟨_, by rw [ConstantPool.request, total]; rfl⟩
  | dconst f =>
    obtain ⟨chosen, total⟩ := dconst_total consistent f
    exact ⟨_, by rw [ConstantPool.request, total]; rfl⟩

end Total

/-- Requests never fail while the pool is open. -/
theorem requests_total (consistent : this.Consistent) (requests : List Request) :
    ∃ answers later, this.requests requests = some (answers, later) := by
  induction requests generalizing this with
  | nil => exact ⟨[], this, rfl⟩
  | cons request requests ih =>
    obtain ⟨⟨answer, middle⟩, first⟩ := request_total consistent request
    obtain ⟨answers, later, others⟩ := ih (request_grown consistent first).1.consistent
    refine ⟨(request, answer) :: answers, later, ?_⟩
    rw [ConstantPool.requests, first]
    simp only [bind, Option.bind, others]
    rfl

theorem written_of_mapM {constants : List JvmConstant} {bytes : List (List Nat)} {c : JvmConstant}
    (written : constants.mapM writeConstant = some bytes) (member : c ∈ constants) :
    ∃ own, writeConstant c = some own := by
  induction constants generalizing bytes with
  | nil => cases member
  | cons first constants ih =>
    rw [List.mapM_cons] at written
    obtain ⟨own, one, written⟩ := Option.bind_eq_some_iff.mp written
    obtain ⟨others, more, -⟩ := Option.bind_eq_some_iff.mp written
    rcases List.mem_cons.mp member with rfl | behind
    · exact ⟨own, one⟩
    · exact ih more behind

/-- What is read from the bytes of a closed pool. -/
theorem read_closed {closed : ConstantPool} {bytes : List Nat} (consistent : this.Consistent)
    (close : this.close = some (bytes, closed)) :
    ∃ entries, readPool bytes = some (entries, []) ∧
      ∀ i c, (i, c) ∈ this.entries →
        entries.lookup i = some c.written ∧ i ≤ 0xffff ∧ ∃ own, writeConstant c = some own := by
  obtain ⟨all, write, close⟩ := Option.map_eq_some_iff.mp close
  obtain ⟨rfl, -⟩ := Prod.mk.inj close
  obtain ⟨count, number, write⟩ := Option.bind_eq_some_iff.mp write
  obtain ⟨each, constants, write⟩ := Option.bind_eq_some_iff.mp write
  obtain rfl := Option.some.inj write
  have counted := Jvm.reads_ui16 number
  have read := @reads_entries _ writeConstant JvmConstant.written this.pool each 1 constants
    fun c _ own write => reads_constant write
  rw [slots_map width_written, numbered_map width_written] at read
  have next : this.nextIndex - 1 = slots JvmConstant.width this.pool := by
    rw [consistent.next]
    omega
  have positive : this.nextIndex ≠ 0 := by
    rw [consistent.next]
    omega
  refine ⟨this.entries.map (Prod.map id JvmConstant.written), ?_, fun i c member =>
    ⟨?_, ?_, written_of_mapM constants (mem_of_numbered member)⟩⟩
  · have front := counted.2.2 each.flatten
    have behind := read []
    rw [List.append_nil] at behind
    rw [readPool, front]
    simp only [bind, Option.bind, Int.toNat_natCast, if_neg positive, next]
    exact behind
  · have mapped := @numbered_map _ JvmConstant.width _ Info.width JvmConstant.written width_written
      1 this.pool
    have inside : (i, c.written) ∈ numbered Info.width 1 (this.pool.map JvmConstant.written) := by
      rw [mapped]
      exact List.mem_map_of_mem member
    have found := lookup_numbered (fun info => by rcases info.width_cases with h | h <;> omega)
      inside
    rw [mapped] at found
    exact found
  · have bounds := index_bounds JvmConstant.width_positive member
    have next := consistent.next
    omega

end ConstantPool

end Haxe.Source.JvmConstantPool
