import Haxe.Source.Generators.StackMapRuns
import Haxe.Theory.Fuel
import Haxe.Source.Generators.JvmAnnotation
import Haxe.Source.Generators.ConstantPoolRuns

/-!
# Stack map frames

The table of a method is decoded to a frame for every recorded position, with the recorded
operand stack. Its local variables are the recorded ones exactly if no initialized local variable
is behind one of two slots that is not initialized: that one is described by a single slot.
-/

namespace Haxe.Guarantees.StackMaps

open Source.Jvm
open Theory StackMapFormat

/-- The last record of every position, in order. -/
def recorded (pool : ConstantPool) (arguments : List JSignature) (operations : List Operation) :
    List Snapshot :=
  (latest (records pool (Builder.start arguments) [] operations)).reverse

/-- A decoded frame shows what was recorded. -/
structure Shows (pool : ConstantPool) (s : Snapshot) (f : Frame) : Prop where
  offset : f.offset = s.position
  stack : s.stack.mapM (ofSignature pool) = some f.stack
  locals : ∀ n, slot (slots f.locals) n = typeAt pool s.locals n

theorem shows_iff {pool : ConstantPool} {s : Snapshot} {f : Frame} (depicts : Depicts pool s f)
    (placed : Placed 0 s.locals) : Shows pool s f ↔ Aligned s.locals := by
  have taken : ∀ n, slot (rooms pool s.locals) n = typeAt pool s.locals n := by
    intro n
    rw [rooms_typeAt placed depicts.locals, Nat.zero_add]
  constructor
  · intro shows'
    apply (slots_iff depicts.locals).mp
    intro n
    rw [taken]
    exact shows'.locals n
  · intro aligned
    refine ⟨depicts.offset, depicts.stack, fun n => ?_⟩
    rw [← taken]
    exact (slots_iff depicts.locals).mpr aligned n

theorem all_show_iff {pool : ConstantPool} {records : List Snapshot} {frames : List Frame}
    (depicted : List.Forall₂ (Depicts pool) records frames)
    (placed : ∀ s ∈ records, Placed 0 s.locals) :
    List.Forall₂ (Shows pool) records frames ↔ ∀ s ∈ records, Aligned s.locals := by
  induction depicted with
  | nil => exact iff_of_true .nil fun s none => absurd none List.not_mem_nil
  | cons first _ ih =>
    rw [List.forall₂_cons, List.forall_mem_cons,
      shows_iff first (placed _ List.mem_cons_self),
      ih fun s member => placed s (List.mem_cons_of_mem _ member)]

theorem stack_maps_iff (pool : ConstantPool) (arguments : List JSignature)
    (operations : List Operation) {entries : List StackMapFrame} {bytes : List Nat}
    (table : ((Builder.start arguments).run pool operations).getStackMapTable pool = some entries)
    (exported : writeStackMapTable entries = some bytes) :
    ∃ types frames, arguments.mapM (ofSignature pool) = some types ∧
      decode types bytes = some frames ∧
      List.Forall₂ (fun s f => f.offset = s.position ∧
        s.stack.mapM (ofSignature pool) = some f.stack)
        (recorded pool arguments operations) frames ∧
      (List.Forall₂ (Shows pool) (recorded pool arguments operations) frames ↔
        ∀ s ∈ recorded pool arguments operations, Aligned s.locals) := by
  obtain ⟨types, frames, typed, decoded, depicted⟩ := decode_run arguments operations table exported
  have placed : ∀ s ∈ recorded pool arguments operations, Placed 0 s.locals := by
    intro s member
    have recording := (Builder.recording_start pool arguments).run operations
    exact recording.placed s (latest_subset (List.mem_reverse.mp member))
  refine ⟨types, frames, typed, decoded, ?_, all_show_iff depicted placed⟩
  exact depicted.imp fun s f depicts => ⟨depicts.offset, depicts.stack⟩

/-- A pool that knows one class. -/
def smallPool : ConstantPool := ⟨fun _ => 7, fun _ => "[I"⟩

/-- An argument of two slots, a local variable with a default and one that is not initialized. -/
theorem stack_maps_of_method :
    ∃ types frames, [JSignature.tDouble].mapM (ofSignature smallPool) = some types ∧
      decode types [0, 2, 252, 0, 4, 1, 255, 0, 2, 0, 3, 3, 1, 0, 0, 1, 7, 0, 7] = some frames ∧
      List.Forall₂ (fun s f => f.offset = s.position ∧
        s.stack.mapM (ofSignature smallPool) = some f.stack)
        (recorded smallPool [.tDouble] [.emit 4 [], .addLocal .tInt .varNeedDefault,
          .addStackFrame, .addLocal .tLong .varWillInit, .emit 3 [.tMethod], .addStackFrame])
        frames ∧
      (List.Forall₂ (Shows smallPool)
        (recorded smallPool [.tDouble] [.emit 4 [], .addLocal .tInt .varNeedDefault,
          .addStackFrame, .addLocal .tLong .varWillInit, .emit 3 [.tMethod], .addStackFrame])
        frames ↔ ∀ s ∈ recorded smallPool [.tDouble] [.emit 4 [],
          .addLocal .tInt .varNeedDefault, .addStackFrame, .addLocal .tLong .varWillInit,
          .emit 3 [.tMethod], .addStackFrame], Aligned s.locals) :=
  @stack_maps_iff smallPool _ _
    [.stackAppend1 4 .integer, .stackFull 2 [.double, .integer, .top] [.object 7]] _
    (by decide +kernel) (by decide +kernel)

/-- An `Int` behind a temporary `Float` whose value is still being computed: its slot is 2, and the frame
describes it at slot 1. -/
theorem shifted_local :
    recorded smallPool [] [.addLocal .tDouble .varWillInit, .emit 2 [],
        .addLocal .tInt .varNeedDefault, .addStackFrame] =
      [⟨2, [⟨.tDouble, 0, false⟩, ⟨.tInt, 2, true⟩], []⟩] ∧
    decode [] [0, 1, 253, 0, 2, 0, 1] = some [⟨2, [.top, .integer], []⟩] ∧
    ((Builder.start []).run smallPool [.addLocal .tDouble .varWillInit, .emit 2 [],
        .addLocal .tInt .varNeedDefault, .addStackFrame]).getStackMapTable smallPool >>=
      writeStackMapTable = some [0, 1, 253, 0, 2, 0, 1] ∧
    ¬ List.Forall₂ (Shows smallPool)
      [⟨2, [⟨.tDouble, 0, false⟩, ⟨.tInt, 2, true⟩], []⟩] [⟨2, [.top, .integer], []⟩] := by
  refine ⟨by decide +kernel, by decide +kernel, by decide +kernel, fun both => ?_⟩
  cases both with
  | cons first _ => exact absurd (first.locals 1) (by decide +kernel)

end Haxe.Guarantees.StackMaps

/-!
## Annotations of JVM classes

An annotation is written faithfully exactly if there is no other one inside of it.
-/

namespace Haxe.Guarantees

open Source.Jvm Theory Theory.AnnotationFormat

/-- `write_annotation` ends, and what it wrote is read as the annotation, to the end. -/
def AnnotationWritten (ann : JAnnotationRecord) : Prop :=
  ∃ bytes a, Settles (fun fuel => writeAnnotation fuel ann) (some bytes) ∧
    ann.structured = some a ∧ Settles (fun depth => readStructure depth bytes) (some (a, []))

theorem not_written_of_nests {ann : JAnnotationRecord} (nests : ann.Nests) :
    ¬ AnnotationWritten ann := by
  rintro ⟨bytes, _, ⟨enough, settled⟩, _, _⟩
  have written : writeAnnotation enough ann = some bytes := settled enough (Nat.le_refl enough)
  rw [nested_unwritten nests] at written
  cases written

/-- An annotation of the class file, with tags, indices and counts as they must be, is written
exactly if no element value is an annotation, at any depth of arrays. -/
theorem annotation_written_iff (ann : JAnnotationRecord) {a : AnnotationStructure}
    (stands : ann.structured = some a) : AnnotationWritten ann ↔ ¬ ann.Nests := by
  constructor
  · intro written nests
    exact not_written_of_nests nests written
  · intro flat
    obtain ⟨bytes, written, enough, read⟩ := annotation_readBack stands flat
    refine ⟨bytes, a, Settles.done written, stands, enough, fun depth deep => ?_⟩
    have whole := read depth deep []
    rw [List.append_nil] at whole
    exact whole

/-- An array of two constants. -/
theorem array_annotation_written :
    AnnotationWritten
      (.mk 7 [(8, '[', .valArray [('I', .valConst 9), ('s', .valConst 10)])]) :=
  (annotation_written_iff _
    (a := .mk 7 [(8, .arrayValue [.constValue .int 9, .constValue .string 10])]) (by rfl)).mpr
      fun ⟨element, member, nests⟩ => by
        obtain rfl := List.mem_singleton.mp member
        exact nests.elim id (·.elim id id)

/-- An annotation inside of another one. -/
theorem nested_annotation_unwritten :
    (JAnnotationRecord.mk 7 [(8, '@', JAnnotationValue.valAnnotation (.mk 9 []))]).structured =
        some (.mk 7 [(8, .annotationValue (.mk 9 []))]) ∧
      ¬ AnnotationWritten (.mk 7 [(8, '@', JAnnotationValue.valAnnotation (.mk 9 []))]) :=
  ⟨by rfl, not_written_of_nests ⟨_, List.mem_singleton.mpr rfl, trivial⟩⟩

end Haxe.Guarantees

/-!
## A faithful constant pool

The index of every constant leads a reader of the class file to that constant, and the methods that
load a number push that number, if no two zeros of different sign meet: the tables of the pool and
the short instructions take them for the same.
-/

namespace Haxe.Guarantees.ConstantPool

open Theory.ConstantPoolFormat Source.Jvm Source.JvmConstantPool
open Source.JvmConstantPool.ConstantPool (create Grown SettledOrZero create_consistent
  requests_grown requests_total read_closed)

/-- The value that the instruction of a request has to push. -/
def Pushes : Request → Value → Prop
  | .iconst i32, .int bits => bits = i32
  | .lconst d, .long bits => bits = d
  | .fconst f, .float bits => SingleOf f bits
  | .dconst f, .double bits => DoubleOf f bits
  | _, _ => False

/-- The answer to a request is right for a reader of the entries. -/
def Right (entries : List (Nat × Info)) : Request → Answer → Prop
  | .add c, .index i => ∃ info, entries.lookup i = some info ∧ c.Means info
  | request, .instruction op =>
    ∀ refs, ∃ value, pushed entries (writeOpcode refs op.1) = some value ∧ Pushes request value
  | _, _ => False

/-- The answers to some requests, for the bytes of the pool behind them. -/
structure Faithful (answers : List (Request × Answer)) (bytes : List Nat) : Prop where
  right : ∃ entries, readPool bytes = some (entries, []) ∧
    ∀ entry ∈ answers, Right entries entry.1 entry.2
  apart : ∀ c c' i i', (.add c, .index i) ∈ answers → (.add c', .index i') ∈ answers →
    ¬ (c.IsNan ∧ c'.IsNan) → (i = i' ↔ c = c')

/-- No zeros of both signs are added, no negative zero is loaded, and no kind of a method handle
is more than a byte. -/
structure Proper (requests : List Request) : Prop where
  floats : ¬ (.add (.constFloat OFloat.positiveZero) ∈ requests ∧
    .add (.constFloat OFloat.negativeZero) ∈ requests)
  doubles : ¬ (.add (.constDouble OFloat.positiveZero) ∈ requests ∧
    .add (.constDouble OFloat.negativeZero) ∈ requests)
  fconst : .fconst OFloat.negativeZero ∉ requests
  dconst : .dconst OFloat.negativeZero ∉ requests
  kinds : ∀ i offset, .add (.constMethodHandle i offset) ∈ requests → 0 ≤ i ∧ i < 256

theorem zero_cases {f : OFloat} (zero : OFloat.isZero f = true) :
    f = OFloat.positiveZero ∨ f = OFloat.negativeZero := by
  have magnitude : f &&& 0x7fffffffffffffff = 0 := of_decide_eq_true zero
  by_cases sign : BitVec.msb f = true
  · exact .inr (OFloat.eq_of_magnitude magnitude sign)
  · exact .inl (OFloat.eq_of_magnitude magnitude (eq_false_of_ne_true sign))

/-- A zero in the pool was added as it is. -/
theorem added_float {requests : List Request} {f : OFloat} (zero : OFloat.isZero f = true)
    (member : .constFloat f ∈ requests.flatMap Request.constants) :
    .add (.constFloat f) ∈ requests := by
  obtain ⟨request, asked, adds⟩ := List.mem_flatMap.mp member
  cases request with
  | add c =>
    obtain rfl := List.mem_singleton.mp adds
    exact asked
  | fconst g =>
    obtain ⟨number, equal⟩ := mem_nonzero.mp adds
    rw [JvmConstant.constFloat.inj equal] at zero
    exact absurd zero number
  | dconst g => cases (mem_nonzero.mp adds).2
  | iconst i32 => cases List.mem_singleton.mp adds
  | lconst d => cases List.mem_singleton.mp adds

theorem added_double {requests : List Request} {f : OFloat} (zero : OFloat.isZero f = true)
    (member : .constDouble f ∈ requests.flatMap Request.constants) :
    .add (.constDouble f) ∈ requests := by
  obtain ⟨request, asked, adds⟩ := List.mem_flatMap.mp member
  cases request with
  | add c =>
    obtain rfl := List.mem_singleton.mp adds
    exact asked
  | dconst g =>
    obtain ⟨number, equal⟩ := mem_nonzero.mp adds
    rw [JvmConstant.constDouble.inj equal] at zero
    exact absurd zero number
  | fconst g => cases (mem_nonzero.mp adds).2
  | iconst i32 => cases List.mem_singleton.mp adds
  | lconst d => cases List.mem_singleton.mp adds

section Runs

variable {requests : List Request} {answers : List (Request × Answer)}
  {pool closed : Source.JvmConstantPool.ConstantPool} {bytes : List Nat} {i i' : Nat}
  {c c' : JvmConstant}

/-- A proper run never adds the two zeros of a kind. -/
theorem Proper.not_opposite (proper : Proper requests)
    (member : c ∈ requests.flatMap Request.constants)
    (member' : c' ∈ requests.flatMap Request.constants) : ¬ c.OppositeZeros c' := by
  intro opposite
  cases c with
  | constFloat f =>
    cases c' with
    | constFloat g =>
      obtain ⟨zero, zero', apart⟩ := opposite
      have asked := added_float zero member
      have asked' := added_float zero' member'
      rcases zero_cases zero with rfl | rfl <;> rcases zero_cases zero' with rfl | rfl
      · exact apart rfl
      · exact proper.floats ⟨asked, asked'⟩
      · exact proper.floats ⟨asked', asked⟩
      · exact apart rfl
    | _ => exact opposite
  | constDouble f =>
    cases c' with
    | constDouble g =>
      obtain ⟨zero, zero', apart⟩ := opposite
      have asked := added_double zero member
      have asked' := added_double zero' member'
      rcases zero_cases zero with rfl | rfl <;> rcases zero_cases zero' with rfl | rfl
      · exact apart rfl
      · exact proper.doubles ⟨asked, asked'⟩
      · exact proper.doubles ⟨asked', asked⟩
      · exact apart rfl
    | _ => exact opposite
  | _ => exact opposite

theorem Proper.kindFits (proper : Proper requests)
    (member : c ∈ requests.flatMap Request.constants) : c.KindFits := by
  cases c with
  | constMethodHandle kind offset =>
    obtain ⟨request, asked, adds⟩ := List.mem_flatMap.mp member
    cases request with
    | add c =>
      obtain rfl := List.mem_singleton.mp adds
      exact proper.kinds kind offset asked
    | fconst g => cases (mem_nonzero.mp adds).2
    | dconst g => cases (mem_nonzero.mp adds).2
    | iconst i32 => cases List.mem_singleton.mp adds
    | lconst d => cases List.mem_singleton.mp adds
  | _ => trivial

/-- The constant of an index, for a reader. -/
theorem means_of_found (proper : Proper requests)
    (grown : Grown create pool (requests.flatMap Request.constants))
    (asked : c ∈ requests.flatMap Request.constants) (found : pool.Found i c)
    {entries : List (Nat × Info)}
    (read : ∀ i c, (i, c) ∈ pool.entries →
      entries.lookup i = some c.written ∧ i ≤ 0xffff ∧ ∃ own, writeConstant c = some own) :
    ∃ info, entries.lookup i = some info ∧ c.Means info ∧ i ≤ 0xffff := by
  obtain ⟨c', member, equal⟩ := found
  obtain ⟨lookup, small, own, written⟩ := read i c' member
  have added : c' ∈ requests.flatMap Request.constants :=
    (grown.new c' (mem_of_numbered member)).resolve_left List.not_mem_nil
  have means := (means_written_iff written).mpr (proper.kindFits added)
  refine ⟨c'.written, lookup, ?_, small⟩
  rcases key_cases equal with rfl | ⟨-, -, same⟩ | opposite
  · exact means
  · exact (same c'.written).mp means
  · exact absurd opposite (proper.not_opposite added asked)

/-- What the pool of a proper run holds is what its reader finds. -/
structure ReadBack (requests : List Request) (pool : Source.JvmConstantPool.ConstantPool)
    (entries : List (Nat × Info)) : Prop where
  means : ∀ c ∈ requests.flatMap Request.constants, ∀ i, pool.Found i c →
    ∃ info, entries.lookup i = some info ∧ c.Means info ∧ i ≤ 0xffff

variable {entries : List (Nat × Info)} {op : JOpcode} {value : Value}

theorem pushed_of_settled {loads : JOpcode → Nat → Prop} {load : Info → Option Value}
    {Fits : Value → Prop} (back : ReadBack requests pool entries)
    (asked : c ∈ requests.flatMap Request.constants) (settled : pool.Settled op value c loads)
    (itself : Fits value)
    (loaded : ∀ offset info, entries.lookup offset = some info → offset ≤ 0xffff →
      loads op offset → ∀ refs, pushed entries (writeOpcode refs op) = load info)
    (fits : ∀ info, c.Means info → ∃ v, load info = some v ∧ Fits v) (refs : Nat → Int) :
    ∃ v, pushed entries (writeOpcode refs op) = some v ∧ Fits v := by
  rcases settled with direct | ⟨offset, found, loading⟩
  · exact ⟨value, direct entries refs, itself⟩
  · obtain ⟨info, lookup, means, small⟩ := back.means c asked offset found
    rw [loaded offset info lookup small loading refs]
    exact fits info means

theorem right_iconst {i32 : BitVec 32} (back : ReadBack requests pool entries)
    (asked : .iconst i32 ∈ requests)
    (settled : pool.Settled op (.int i32) (.constInt i32) Loads) (refs : Nat → Int) :
    ∃ v, pushed entries (writeOpcode refs op) = some v ∧ Pushes (.iconst i32) v := by
  have adds : .constInt i32 ∈ requests.flatMap Request.constants :=
    List.mem_flatMap.mpr ⟨_, asked, List.mem_singleton_self _⟩
  have itself : Pushes (.iconst i32) (.int i32) := rfl
  refine pushed_of_settled back adds settled itself
    (fun offset info found small loads refs => pushed_loads found small loads refs) ?_ refs
  intro info means
  cases info with
  | integer bits => exact ⟨.int bits, rfl, means⟩
  | _ => exact means.elim

theorem right_lconst {d : BitVec 64} (back : ReadBack requests pool entries)
    (asked : .lconst d ∈ requests)
    (settled : pool.Settled op (.long d) (.constLong d) Loads2) (refs : Nat → Int) :
    ∃ v, pushed entries (writeOpcode refs op) = some v ∧ Pushes (.lconst d) v := by
  have adds : .constLong d ∈ requests.flatMap Request.constants :=
    List.mem_flatMap.mpr ⟨_, asked, List.mem_singleton_self _⟩
  have itself : Pushes (.lconst d) (.long d) := rfl
  refine pushed_of_settled back adds settled itself
    (fun offset info found small loads refs => pushed_loads2 found small loads refs) ?_ refs
  intro info means
  cases info with
  | long bits => exact ⟨.long bits, rfl, means⟩
  | _ => exact means.elim

theorem right_fconst {f : OFloat} (back : ReadBack requests pool entries)
    (asked : .fconst f ∈ requests) (positive : f ≠ OFloat.negativeZero)
    (settled : pool.SettledOrZero op f (.float 0) (.float (bitsOfFloat f)) (.constFloat f) Loads)
    (refs : Nat → Int) :
    ∃ v, pushed entries (writeOpcode refs op) = some v ∧ Pushes (.fconst f) v := by
  unfold SettledOrZero at settled
  split at settled
  · rename_i zero
    obtain rfl := (zero_cases zero).resolve_right positive
    exact ⟨.float 0, settled entries refs, singleOf_bits OFloat.positiveZero⟩
  · rename_i number
    have adds : .constFloat f ∈ requests.flatMap Request.constants :=
      List.mem_flatMap.mpr ⟨_, asked, mem_nonzero.mpr ⟨number, rfl⟩⟩
    refine pushed_of_settled back adds settled (singleOf_bits f)
      (fun offset info found small loads refs => pushed_loads found small loads refs) ?_ refs
    intro info means
    cases info with
    | float bits => exact ⟨.float bits, rfl, means⟩
    | _ => exact means.elim

theorem right_dconst {f : OFloat} (back : ReadBack requests pool entries)
    (asked : .dconst f ∈ requests) (positive : f ≠ OFloat.negativeZero)
    (settled : pool.SettledOrZero op f (.double 0) (.double f) (.constDouble f) Loads2)
    (refs : Nat → Int) :
    ∃ v, pushed entries (writeOpcode refs op) = some v ∧ Pushes (.dconst f) v := by
  unfold SettledOrZero at settled
  split at settled
  · rename_i zero
    obtain rfl := (zero_cases zero).resolve_right positive
    exact ⟨.double 0, settled entries refs, doubleOf_self OFloat.positiveZero⟩
  · rename_i number
    have adds : .constDouble f ∈ requests.flatMap Request.constants :=
      List.mem_flatMap.mpr ⟨_, asked, mem_nonzero.mpr ⟨number, rfl⟩⟩
    refine pushed_of_settled back adds settled (doubleOf_self f)
      (fun offset info found small loads refs => pushed_loads2 found small loads refs) ?_ refs
    intro info means
    cases info with
    | double bits => exact ⟨.double bits, rfl, means⟩
    | _ => exact means.elim

theorem right_of_sound {request : Request} {answer : Answer} (proper : Proper requests)
    (back : ReadBack requests pool entries) (asked : request ∈ requests)
    (sound : pool.Sound request answer) : Right entries request answer := by
  cases answer with
  | index i =>
    cases request with
    | add c =>
      have adds : c ∈ requests.flatMap Request.constants :=
        List.mem_flatMap.mpr ⟨_, asked, List.mem_singleton_self _⟩
      obtain ⟨info, found, means, -⟩ := back.means c adds i sound
      exact ⟨info, found, means⟩
    | _ => exact sound.elim
  | instruction op =>
    cases request with
    | add c => exact sound.elim
    | iconst i32 => exact right_iconst back asked sound
    | lconst d => exact right_lconst back asked sound
    | fconst f => exact right_fconst back asked (fun zero => proper.fconst (zero ▸ asked)) sound
    | dconst f => exact right_dconst back asked (fun zero => proper.dconst (zero ▸ asked)) sound

section Closed

variable (ran : create.requests requests = some (answers, pool))
  (close : pool.close = some (bytes, closed))
include ran

theorem consistent_of_ran : pool.Consistent :=
  (requests_grown create_consistent ran).1.consistent

theorem readBack {entries : List (Nat × Info)} (proper : Proper requests)
    (read : ∀ i c, (i, c) ∈ pool.entries →
      entries.lookup i = some c.written ∧ i ≤ 0xffff ∧ ∃ own, writeConstant c = some own) :
    ReadBack requests pool entries where
  means _ asked _ found :=
    means_of_found proper (requests_grown create_consistent ran).1 asked found read

/-- Indices are the same exactly for constants that a `Hashtbl` takes for the same. -/
theorem index_eq_iff (first : (.add c, .index i) ∈ answers)
    (second : (.add c', .index i') ∈ answers) : i = i' ↔ c.key = c'.key := by
  have grown := requests_grown create_consistent ran
  obtain ⟨a, member, equal⟩ : pool.Found i c := grown.2.2 _ first
  obtain ⟨a', member', equal'⟩ : pool.Found i' c' := grown.2.2 _ second
  rw [← equal, ← equal']
  constructor
  · rintro rfl
    have here := lookup_numbered JvmConstant.width_positive member
    have here' := lookup_numbered JvmConstant.width_positive member'
    rw [Option.some.inj (here.symm.trans here')]
  · intro same
    exact (index_unique grown.1.consistent.keys member member' same).1

theorem answer_of_request {request : Request} (asked : request ∈ requests) :
    ∃ answer, (request, answer) ∈ answers ∧ pool.Sound request answer := by
  have grown := requests_grown create_consistent ran
  rw [← grown.2.1] at asked
  obtain ⟨⟨_, answer⟩, member, rfl⟩ := List.mem_map.mp asked
  exact ⟨answer, member, grown.2.2 _ member⟩

theorem index_of_add (asked : .add c ∈ requests) :
    ∃ i, (.add c, .index i) ∈ answers ∧ pool.Found i c := by
  obtain ⟨answer, member, sound⟩ := answer_of_request ran asked
  cases answer with
  | index i => exact ⟨i, member, sound⟩
  | instruction op => exact sound.elim

theorem apart_of_proper (proper : Proper requests) (first : (.add c, .index i) ∈ answers)
    (second : (.add c', .index i') ∈ answers) (number : ¬ (c.IsNan ∧ c'.IsNan)) :
    i = i' ↔ c = c' := by
  have listed := (requests_grown create_consistent ran).2.1
  have added {c : JvmConstant} {i : Nat} (member : (.add c, .index i) ∈ answers) :
      c ∈ requests.flatMap Request.constants := by
    rw [← listed]
    exact List.mem_flatMap.mpr
      ⟨.add c, List.mem_map_of_mem member, List.mem_singleton_self c⟩
  rw [index_eq_iff ran first second]
  constructor
  · intro equal
    rcases key_cases equal with same | ⟨nan, nan', -⟩ | opposite
    · exact same
    · exact absurd ⟨nan, nan'⟩ number
    · exact absurd opposite (proper.not_opposite (added first) (added second))
  · rintro rfl
    rfl

/-- Two constants that are taken for the same must be the same. -/
theorem not_both {c c' : JvmConstant} (faithful : Faithful answers bytes) (equal : c.key = c'.key)
    (apart : c ≠ c') (number : ¬ c.IsNan) :
    ¬ (.add c ∈ requests ∧ .add c' ∈ requests) := by
  rintro ⟨asked, asked'⟩
  obtain ⟨i, member, -⟩ := index_of_add ran asked
  obtain ⟨i', member', -⟩ := index_of_add ran asked'
  have same := (index_eq_iff ran member member').mpr equal
  exact apart ((faithful.apart c c' i i' member member' fun nan => number nan.1).mp same)

include close

theorem faithful_of_proper (proper : Proper requests) : Faithful answers bytes := by
  have grown := requests_grown create_consistent ran
  obtain ⟨entries, readPool, read⟩ := read_closed grown.1.consistent close
  have back := readBack ran proper read
  refine ⟨⟨entries, readPool, fun entry member => ?_⟩, fun c c' i i' first second number =>
    apart_of_proper ran proper first second number⟩
  have asked : entry.1 ∈ requests := by
    rw [← grown.2.1]
    exact List.mem_map_of_mem member
  exact right_of_sound proper back asked (grown.2.2 entry member)

theorem proper_of_faithful (faithful : Faithful answers bytes) : Proper requests where
  floats := by
    have number : ¬ OFloat.isNan OFloat.positiveZero = true := by decide
    exact not_both ran faithful (by decide) (by decide) number
  doubles := by
    have number : ¬ OFloat.isNan OFloat.positiveZero = true := by decide
    exact not_both ran faithful (by decide) (by decide) number
  fconst := by
    intro asked
    obtain ⟨answer, member, sound⟩ := answer_of_request ran asked
    obtain ⟨entries, -, right⟩ := faithful.right
    cases answer with
    | index i => exact sound.elim
    | instruction op =>
      have direct : Direct op.1 (.float 0) := sound
      obtain ⟨value, pushes, fits⟩ := right _ member fun _ => 0
      rw [direct entries fun _ => 0] at pushes
      obtain rfl := Option.some.inj pushes
      have positive : SingleOf OFloat.negativeZero 0 := fits
      rw [SingleOf, if_neg (by decide)] at positive
      exact absurd positive (by decide)
  dconst := by
    intro asked
    obtain ⟨answer, member, sound⟩ := answer_of_request ran asked
    obtain ⟨entries, -, right⟩ := faithful.right
    cases answer with
    | index i => exact sound.elim
    | instruction op =>
      have direct : Direct op.1 (.double 0) := sound
      obtain ⟨value, pushes, fits⟩ := right _ member fun _ => 0
      rw [direct entries fun _ => 0] at pushes
      obtain rfl := Option.some.inj pushes
      have positive : DoubleOf OFloat.negativeZero 0 := fits
      rw [DoubleOf, if_neg (by decide)] at positive
      exact absurd positive (by decide)
  kinds := by
    intro kind offset asked
    obtain ⟨i, member, c', inside, equal⟩ := index_of_add ran asked
    obtain ⟨entries, readPool, right⟩ := faithful.right
    obtain ⟨entries', readPool', read⟩ := read_closed (consistent_of_ran ran) close
    obtain ⟨lookup, -, own, written⟩ := read i c' inside
    obtain ⟨info, lookup', means⟩ := right _ member
    obtain rfl : entries = entries' := by
      rw [readPool] at readPool'
      exact (Prod.mk.inj (Option.some.inj readPool')).1
    obtain rfl : c' = .constMethodHandle kind offset := by
      cases c' with
      | constFloat f => cases equal
      | constDouble f => cases equal
      | _ => exact equal
    rw [lookup] at lookup'
    obtain rfl := Option.some.inj lookup'
    exact (means_written_iff written).mp means

end Closed

end Runs

/-- The pool is faithful for the requests behind which it was closed if and only if they never
bring two zeros of different sign together. -/
theorem faithful_iff (requests : List Request) :
    ∃ answers pool, create.requests requests = some (answers, pool) ∧
      ∀ bytes closed, pool.close = some (bytes, closed) →
        (Faithful answers bytes ↔ Proper requests) := by
  obtain ⟨answers, pool, ran⟩ := requests_total create_consistent requests
  exact ⟨answers, pool, ran, fun bytes closed close =>
    ⟨proper_of_faithful ran close, faithful_of_proper ran close⟩⟩

/-- The bytes behind some requests. -/
def written (requests : List Request) : Option (List Nat) :=
  (create.requests requests).bind fun ran => ran.2.write

theorem exists_close {requests : List Request} {answers : List (Request × Answer)}
    {pool : Source.JvmConstantPool.ConstantPool} (writes : (written requests).isSome = true)
    (ran : create.requests requests = some (answers, pool)) :
    ∃ bytes closed, pool.close = some (bytes, closed) := by
  unfold written at writes
  rw [ran] at writes
  obtain ⟨bytes, write⟩ := Option.isSome_iff_exists.mp writes
  exact ⟨bytes, { pool with closed := true }, Option.map_eq_some_iff.mpr ⟨bytes, write, rfl⟩⟩

/-- A long, an integer of two instructions, a code above the others and the zero. -/
def mixed : List Request :=
  [.lconst 0x0000000100000002, .iconst 70000, .iconst (-129), .dconst OFloat.two,
    .add (.constUtf8 [0x1F600, 0]), .iconst 70000, .fconst 0x3FB999999999999A]

theorem mixed_is_faithful : ∃ answers pool bytes closed,
    create.requests mixed = some (answers, pool) ∧ pool.close = some (bytes, closed) ∧
      Faithful answers bytes := by
  obtain ⟨answers, pool, ran, faithful⟩ := faithful_iff mixed
  obtain ⟨bytes, closed, close⟩ := exists_close (by decide) ran
  have proper : Proper mixed := by
    refine ⟨by decide, by decide, by decide, by decide, fun kind offset asked => ?_⟩
    simp [mixed] at asked
  exact ⟨answers, pool, bytes, closed, ran, close, (faithful bytes closed close).mpr proper⟩

/-- The negative zero is pushed as the positive one, and the two share an index. -/
theorem zeros_are_confused :
    (∃ answers pool bytes closed,
      create.requests [.dconst OFloat.negativeZero] = some (answers, pool) ∧
        pool.close = some (bytes, closed) ∧ ¬ Faithful answers bytes) ∧
    ∃ answers pool bytes closed,
      create.requests [.add (.constDouble OFloat.positiveZero),
        .add (.constDouble OFloat.negativeZero)] = some (answers, pool) ∧
        pool.close = some (bytes, closed) ∧ ¬ Faithful answers bytes := by
  constructor
  · obtain ⟨answers, pool, ran⟩ :=
      requests_total create_consistent [.dconst OFloat.negativeZero]
    obtain ⟨bytes, closed, close⟩ := exists_close (by decide) ran
    exact ⟨answers, pool, bytes, closed, ran, close, fun faithful =>
      (proper_of_faithful ran close faithful).dconst (by decide)⟩
  · obtain ⟨answers, pool, ran⟩ := requests_total create_consistent
      [.add (.constDouble OFloat.positiveZero), .add (.constDouble OFloat.negativeZero)]
    obtain ⟨bytes, closed, close⟩ := exists_close (by decide) ran
    exact ⟨answers, pool, bytes, closed, ran, close, fun faithful =>
      (proper_of_faithful ran close faithful).doubles (by decide)⟩

end Haxe.Guarantees.ConstantPool
