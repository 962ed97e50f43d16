import Haxe.Source.Generators.JvmMethod

/-!
# The bytes of stack map frames

What is written for a frame is read back as the entry that the frame stands for.
-/

namespace Haxe.Source.Jvm

open Theory StackMapFormat

theorem reads_ui16 {i : Int} {bytes : List Nat} (written : writeUi16 i = some bytes) :
    0 ≤ i ∧ i ≤ 0xffff ∧ Reads readU2 bytes i.toNat := by
  unfold writeUi16 at written
  split at written
  · rename_i fits
    obtain rfl := Option.some.inj written
    refine ⟨fits.1, fits.2, fun rest => ?_⟩
    rw [List.cons_append, List.cons_append, List.nil_append, readU2]
    congr 2
    omega
  · cases written

theorem reads_type {t : VerificationType} {bytes : List Nat}
    (written : writeVerificationType t = some bytes) : Reads readType bytes t := by
  intro rest
  cases t with
  | object i =>
    obtain ⟨number, index, written⟩ := Option.bind_eq_some_iff.mp written
    obtain rfl := Option.some.inj written
    have read := (reads_ui16 index).2.2 rest
    show (readU2 (number ++ rest)).map _ = _
    rw [read]
    rfl
  | uninitialized i =>
    obtain ⟨number, index, written⟩ := Option.bind_eq_some_iff.mp written
    obtain rfl := Option.some.inj written
    have read := (reads_ui16 index).2.2 rest
    show (readU2 (number ++ rest)).map _ = _
    rw [read]
    rfl
  | _ =>
    obtain rfl := Option.some.inj written
    rfl

theorem reads_typeList {types : List VerificationType} {bytes : List (List Nat)}
    (written : types.mapM writeVerificationType = some bytes) :
    Reads (readTimes readType types.length) bytes.flatten types := by
  have read := @reads_times _ _ readType writeVerificationType id types bytes written
    fun t _ bytes one => reads_type one
  rw [List.map_id] at read
  exact read

theorem reads_types {types : List VerificationType} {bytes : List Nat}
    (written : writeArray16 writeVerificationType types = some bytes) :
    Reads readTypes bytes types := by
  intro rest
  unfold writeArray16 at written
  obtain ⟨count, number, written⟩ := Option.bind_eq_some_iff.mp written
  obtain ⟨each, all, written⟩ := Option.bind_eq_some_iff.mp written
  obtain rfl := Option.some.inj written
  have counted := (reads_ui16 number).2.2 (each.flatten ++ rest)
  have listed := reads_typeList all rest
  rw [Int.toNat_natCast] at counted
  unfold readTypes
  rw [List.append_assoc, counted]
  exact listed

/-- The entry that a frame stands for. -/
@[grind =] def StackMapFrame.entry : StackMapFrame → Entry
  | .stackSame i => .same i.toNat
  | .stack1StackItem i t => .sameLocals1StackItem i.toNat t
  | .stack1StackItemExtended i t => .sameLocals1StackItem i.toNat t
  | .stackChop1 i => .chop i.toNat 1
  | .stackChop2 i => .chop i.toNat 2
  | .stackChop3 i => .chop i.toNat 3
  | .stackSameExtended i => .same i.toNat
  | .stackAppend1 i t1 => .append i.toNat [t1]
  | .stackAppend2 i t1 t2 => .append i.toNat [t1, t2]
  | .stackAppend3 i t1 t2 t3 => .append i.toNat [t1, t2, t3]
  | .stackFull i tl1 tl2 => .full i.toNat tl1 tl2

/-- The distance of a frame to the one before. -/
@[grind =] def StackMapFrame.distance : StackMapFrame → Int
  | .stackSame i | .stack1StackItem i _ | .stack1StackItemExtended i _ | .stackChop1 i
  | .stackChop2 i | .stackChop3 i | .stackSameExtended i | .stackAppend1 i _
  | .stackAppend2 i _ _ | .stackAppend3 i _ _ _ | .stackFull i _ _ => i

/-- A tag is read with the distance and the types behind it. -/
theorem reads_tagged {tag i : Int} {types : List VerificationType} {bytes : List Nat}
    (written : writeTagged tag i types = some bytes) (rest : List Nat) :
    ∃ behind, bytes ++ rest = (tag % 256).toNat :: behind ∧ ∃ behind',
      readU2 behind = some (i.toNat, behind') ∧
      readTimes readType types.length behind' = some (types, rest) := by
  unfold writeTagged at written
  obtain ⟨number, offset, written⟩ := Option.bind_eq_some_iff.mp written
  obtain ⟨each, all, written⟩ := Option.bind_eq_some_iff.mp written
  obtain rfl := Option.some.inj written
  refine ⟨number ++ (each.flatten ++ rest), ?_, each.flatten ++ rest,
    (reads_ui16 offset).2.2 _, reads_typeList all rest⟩
  rw [writeByte, List.append_assoc, List.append_assoc, List.singleton_append]

theorem reads_frame {f : StackMapFrame} {bytes : List Nat} (ahead : 0 ≤ f.distance)
    (written : writeStackMapFrame f = some bytes) : Reads readEntry bytes f.entry := by
  intro rest
  cases f with
  | stackSame i =>
    rw [writeStackMapFrame] at written
    split at written
    · have positive : 0 ≤ i := ahead
      obtain rfl := Option.some.inj written
      show readEntry ((i % 256).toNat :: rest) = _
      rw [readEntry, if_pos (by omega), StackMapFrame.entry]
      congr 3
      omega
    · cases written
  | stack1StackItem i t =>
    rw [writeStackMapFrame] at written
    split at written
    · have positive : 0 ≤ i := ahead
      obtain ⟨item, type, written⟩ := Option.bind_eq_some_iff.mp written
      obtain rfl := Option.some.inj written
      have read := reads_type type rest
      show readEntry (((i + 64) % 256).toNat :: (item ++ rest)) = _
      rw [readEntry, if_neg (by omega), if_pos (by omega), read, StackMapFrame.entry]
      simp only [bind, Option.bind, pure]
      congr 3
      omega
    · cases written
  | stack1StackItemExtended i t =>
    rw [writeStackMapFrame] at written
    obtain ⟨number, offset, written⟩ := Option.bind_eq_some_iff.mp written
    obtain ⟨item, type, written⟩ := Option.bind_eq_some_iff.mp written
    obtain rfl := Option.some.inj written
    have distance := (reads_ui16 offset).2.2 (item ++ rest)
    have read := reads_type type rest
    rw [List.append_assoc, List.append_assoc]
    show readEntry (247 :: (number ++ (item ++ rest))) = _
    rw [readEntry]
    simp only [bind, Option.bind, distance, read, StackMapFrame.entry]
    rfl
  | stackFull i tl1 tl2 =>
    rw [writeStackMapFrame] at written
    obtain ⟨number, offset, written⟩ := Option.bind_eq_some_iff.mp written
    obtain ⟨locals, first, written⟩ := Option.bind_eq_some_iff.mp written
    obtain ⟨stack, second, written⟩ := Option.bind_eq_some_iff.mp written
    obtain rfl := Option.some.inj written
    have distance := (reads_ui16 offset).2.2 (locals ++ (stack ++ rest))
    have listed := reads_types first (stack ++ rest)
    have operands := reads_types second rest
    rw [List.append_assoc, List.append_assoc, List.append_assoc]
    show readEntry (255 :: (number ++ (locals ++ (stack ++ rest)))) = _
    rw [readEntry]
    simp only [bind, Option.bind, distance, listed, operands, StackMapFrame.entry]
    rfl
  | stackChop1 | stackChop2 | stackChop3 | stackSameExtended =>
    rw [writeStackMapFrame] at written
    obtain ⟨behind, front, behind', distance, types⟩ := reads_tagged written rest
    obtain rfl := (Prod.mk.inj (Option.some.inj types)).2
    rw [front, readEntry]
    simp only [Int.reduceMod, Int.reduceToNat, bind, Option.bind, distance, StackMapFrame.entry]
    rfl
  | stackAppend1 | stackAppend2 | stackAppend3 =>
    rw [writeStackMapFrame] at written
    obtain ⟨behind, front, behind', distance, types⟩ := reads_tagged written rest
    simp only [List.length_cons, List.length_nil] at types
    rw [front, readEntry]
    simp only [Int.reduceMod, Int.reduceToNat, bind, Option.bind, distance, StackMapFrame.entry]
    simp [types]

/-- A table of frames is read back to its end. -/
theorem reads_table {stackMap : List StackMapFrame} {bytes : List Nat}
    (ahead : ∀ f ∈ stackMap, 0 ≤ f.distance) (written : writeStackMapTable stackMap = some bytes) :
    readTable bytes = some (stackMap.map StackMapFrame.entry, []) := by
  unfold writeStackMapTable writeArray16 at written
  obtain ⟨count, number, written⟩ := Option.bind_eq_some_iff.mp written
  obtain ⟨each, all, written⟩ := Option.bind_eq_some_iff.mp written
  obtain rfl := Option.some.inj written
  have counted := (reads_ui16 number).2.2 each.flatten
  have listed := reads_times all (fun f member bytes one => reads_frame (ahead f member) one) []
  rw [Int.toNat_natCast] at counted
  rw [List.append_nil] at listed
  unfold readTable
  rw [counted]
  exact listed

end Haxe.Source.Jvm

/-!
## The frames of a table

Every recorded frame is what its entry stands for behind the frame before it, and the frames of a
method are recorded at growing positions.
-/

namespace Haxe.Source.Jvm

open Theory StackMapFormat

/-- A recorded frame in the order of the class file. -/
def StackFrame.described (f : StackFrame) : Frame := ⟨f.fp, f.locals.reverse, f.stack.reverse⟩

theorem stackMapEntry_distance (cur : Int) (lastLocals : List VerificationType) (f : StackFrame) :
    (stackMapEntry cur lastLocals f).distance = cur := by
  unfold stackMapEntry
  dsimp only
  repeat' split
  all_goals rfl

/-- The last local variables are chopped. -/
theorem frame_chop (next delta : Nat) (chopped locals : List VerificationType) :
    frame next (chopped ++ locals).reverse (.chop delta chopped.length) =
      some ⟨next + delta, locals.reverse, []⟩ := by
  have lengths : (chopped ++ locals).reverse.length - chopped.length = locals.reverse.length := by
    rw [List.length_reverse, List.length_append, List.length_reverse, Nat.add_sub_cancel_left]
  rw [frame, if_pos (by simp), lengths, List.reverse_append, List.take_left' rfl]

/-- Local variables are appended in the order of their slots. -/
theorem frame_append (next delta : Nat) (appended locals : List VerificationType) :
    frame next locals.reverse (.append delta appended.reverse) =
      some ⟨next + delta, (appended ++ locals).reverse, []⟩ := by
  rw [frame, List.reverse_append]

/-- An entry gives back the frame, behind a frame with the local variables it was made with. -/
theorem stackMapEntry_frame (next : Nat) (cur : Int) (lastLocals : List VerificationType)
    (f : StackFrame) :
    frame next lastLocals.reverse (stackMapEntry cur lastLocals f).entry =
      some ⟨next + cur.toNat, f.locals.reverse, f.stack.reverse⟩ := by
  obtain ⟨fp, locals, stack⟩ := f
  have full : frame next lastLocals.reverse
      (StackMapFrame.stackFull cur locals.reverse stack.reverse).entry =
        some ⟨next + cur.toNat, locals.reverse, stack.reverse⟩ := rfl
  unfold stackMapEntry
  dsimp only
  split
  · split_ifs with none same small one two three minusOne minusTwo minusThree
    · rw [same]
      rfl
    · rw [same]
      rfl
    · exact full
    · split
      · rename_i vt1 locals
        split_ifs with same
        · rw [same]
          exact frame_append next cur.toNat [vt1] lastLocals
        · exact full
      · exact full
    · split
      · rename_i vt1 vt2 locals
        split_ifs with same
        · rw [same]
          exact frame_append next cur.toNat [vt1, vt2] lastLocals
        · exact full
      · exact full
    · split
      · rename_i vt1 vt2 vt3 locals
        split_ifs with same
        · rw [same]
          exact frame_append next cur.toNat [vt1, vt2, vt3] lastLocals
        · exact full
      · exact full
    · split
      · rename_i vt1 lastLocals
        split_ifs with same
        · rw [same]
          exact frame_chop next cur.toNat [vt1] lastLocals
        · exact full
      · exact full
    · split
      · rename_i vt1 vt2 lastLocals
        split_ifs with same
        · rw [same]
          exact frame_chop next cur.toNat [vt1, vt2] lastLocals
        · exact full
      · exact full
    · split
      · rename_i vt1 vt2 vt3 lastLocals
        split_ifs with same
        · rw [same]
          exact frame_chop next cur.toNat [vt1, vt2, vt3] lastLocals
        · exact full
      · exact full
    · exact full
  · split_ifs with none same small
    · rw [same]
      rfl
    · rw [same]
      rfl
    · exact full
    · exact full
  · exact full

/-- The entries give back the frames, if each is behind the one before. -/
theorem frames_entries {lastOffset : Int} {lastLocals : List VerificationType} {next : Nat}
    {fs : List StackFrame} (start : lastOffset + 1 = next)
    (growing : (fs.map StackFrame.fp).Pairwise (· < ·)) (ahead : ∀ f ∈ fs, next ≤ f.fp) :
    frames next lastLocals.reverse
        ((stackMapEntries lastOffset lastLocals fs).map StackMapFrame.entry) =
      some (fs.map StackFrame.described) ∧
    ∀ e ∈ stackMapEntries lastOffset lastLocals fs, 0 ≤ e.distance := by
  induction fs generalizing lastOffset lastLocals next with
  | nil => exact ⟨rfl, fun e none => absurd none List.not_mem_nil⟩
  | cons f fs ih =>
    rw [List.map_cons, List.pairwise_cons] at growing
    have here := ahead f List.mem_cons_self
    obtain ⟨behind, distances⟩ := @ih f.fp f.locals (f.fp + 1) (by omega) growing.2
      fun f' member => growing.1 f'.fp (List.mem_map_of_mem member)
    have first := stackMapEntry_frame next (f.fp - lastOffset - 1) lastLocals f
    have offset : next + ((f.fp : Int) - lastOffset - 1).toNat = f.fp := by omega
    rw [offset] at first
    constructor
    · rw [stackMapEntries, List.map_cons, frames, first]
      simp only [bind, Option.bind]
      rw [behind]
      rfl
    · intro e member
      rcases List.mem_cons.mp member with rfl | other
      · rw [stackMapEntry_distance]
        omega
      · exact distances e other

end Haxe.Source.Jvm
