import Haxe.Source.Context.SourcemapArrangement
import Haxe.Source.Context.SourcemapSteps

/-!
# Source maps

A mapping is decoded to the place where it was recorded exactly if its numbers fit and its
column is kept. Behind a newline `current_out_col` is one too large, and the number for the
first mapping of a line is zero whatever its column is: the columns of the later mappings
are relative to the first one of their line.
-/

namespace Haxe.Guarantees.SourceMaps

open Source.Sourcemaps
open Theory.MappingsFormat

/-- The column recorded for the newest mapping of the line. -/
def recordedColumn : List Nat → Int
  | [] => 0
  | [_] => 0
  | last :: _ => last

theorem recordedColumn_of_ne_nil {last : Nat} {earlier : List Nat} (several : earlier ≠ []) :
    recordedColumn (last :: earlier) = last := by
  cases earlier with
  | nil => exact absurd rfl several
  | cons => rfl

/-- A reader of the mappings so far has the place of the newest one, and it kept its column. -/
structure Agrees (t : Tracker) (s : Reader) : Prop where
  line : s.line = t.line
  column : s.column = recordedColumn t.columns
  source : s.source = t.source
  sourceLine : s.sourceLine = t.sourceLine
  sourceColumn : s.sourceColumn = t.sourceColumn
  reached : ∀ last ∈ t.columns.head?, last ≤ t.column
  kept : t.columns.tail ≠ [] →
    if t.line = 0 then t.columns.head? = some 0 else t.columns.getLast? = some 0

theorem moved_iff {x known : Int} : known + readBack (wrap (x - known)) = x ↔ Fits (x - known) := by
  rw [← readBack_wrap_iff]
  constructor
  · intro same
    omega
  · intro same
    omega

theorem readBack_zero : readBack 0 = 0 := readBack_of_fits (by decide)

/-- The difference of two columns does not depend on where the line starts to count. -/
theorem outCol_sub (t : Tracker) (last : Nat) :
    wrap (wrap (t.outCol t.column) - wrap (t.outCol last)) = wrap ((t.column : Int) - last) := by
  apply wrap_congr
  have current := wrap_dvd (t.outCol t.column)
  have before := wrap_dvd (t.outCol last)
  have same : t.outCol t.column - t.outCol last = (t.column : Int) - last := by
    unfold Tracker.outCol
    split <;> omega
  omega

theorem wrap_eq_zero_iff (n : Int) : wrap n = 0 ↔ (2 ^ 63 : Int) ∣ n := by
  have same := wrap_dvd n
  constructor
  · intro zero
    omega
  · intro divides
    have bounds := wrap_bounds n
    omega

/-- The second mapping of a line, read back with the first one at column zero. -/
theorem second_iff {column last : Nat} (reached : last ≤ column) :
    readBack (wrap ((column : Int) - last)) = column ↔
      last = 0 ∧ Fits ((column : Int) - last) := by
  constructor
  · intro same
    have small := readBack_fits (wrap ((column : Int) - last))
    have fits : Fits ((column : Int) - last) := by
      unfold Fits at small ⊢
      omega
    rw [(readBack_wrap_iff _).mpr fits] at same
    exact ⟨by omega, fits⟩
  · rintro ⟨rfl, fits⟩
    rw [(readBack_wrap_iff _).mpr fits]
    omega

/-- The column of a mapping after the first of the line. -/
theorem columnField_iff {t : Tracker} {s : Reader} (agrees : Agrees t s) {last : Nat}
    {earlier : List Nat} (columns : t.columns = last :: earlier) :
    s.column + readBack t.columnField = t.column ↔ t.KeepsColumn := by
  have reached := agrees.reached last (by rw [columns]; rfl)
  have column := agrees.column
  have kept := agrees.kept
  rw [columns] at column kept
  have field : t.columnField = if wrap (t.outCol last) = 0 then 0
      else wrap ((t.column : Int) - last) := by
    rw [← outCol_sub t last]
    unfold Tracker.columnField Tracker.lastOutCol
    rw [columns]
  rw [field]
  unfold Tracker.KeepsColumn
  rw [columns]
  dsimp only [List.tail_cons, List.head?_cons] at kept ⊢
  by_cases first : t.line = 0
  · have out : t.outCol last = last := if_pos first
    rw [if_pos first, out]
    by_cases zero : last = 0
    · subst zero
      have none : s.column = 0 := by
        rw [column]
        cases earlier <;> rfl
      rw [if_pos (by decide), readBack_zero, none]
      omega
    · have single : earlier = [] := by
        by_contra several
        have head := kept several
        rw [if_pos first] at head
        exact zero (Option.some.inj head)
      rw [single] at column
      have never : ¬ t.column = 0 := by omega
      rw [column]
      dsimp only [recordedColumn]
      rw [Int.zero_add]
      constructor
      · intro same
        split at same
        · rw [readBack_zero] at same
          omega
        · exact absurd ((second_iff reached).mp same).1 zero
      · exact fun none => absurd none never
  · have out : t.outCol last = last + 1 := if_neg first
    rw [if_neg first, out]
    have divides : wrap ((last : Int) + 1) = 0 ↔ 2 ^ 63 ∣ last + 1 := by
      rw [wrap_eq_zero_iff]
      omega
    by_cases single : earlier = []
    · subst single
      rw [column]
      dsimp only [recordedColumn]
      rw [Int.zero_add]
      by_cases hidden : 2 ^ 63 ∣ last + 1
      · rw [if_pos (divides.mpr hidden), readBack_zero]
        constructor
        · intro same
          omega
        · rintro ⟨head, -, -⟩
          have zero : last = 0 := Option.some.inj head
          omega
      · rw [if_neg (mt divides.mp hidden), second_iff reached]
        constructor
        · rintro ⟨rfl, fits⟩
          exact ⟨rfl, fits, Or.inr hidden⟩
        · rintro ⟨head, fits, -⟩
          exact ⟨Option.some.inj head, fits⟩
    · have head := kept single
      rw [if_neg first] at head
      rw [column, recordedColumn_of_ne_nil single]
      by_cases hidden : 2 ^ 63 ∣ last + 1
      · rw [if_pos (divides.mpr hidden), readBack_zero]
        constructor
        · intro same
          have equal : t.column = last := by omega
          refine ⟨head, ?_, Or.inl equal⟩
          rw [equal, Int.sub_self]
          decide
        · rintro ⟨-, -, equal | shown⟩
          · omega
          · exact absurd hidden shown
      · rw [if_neg (mt divides.mp hidden), moved_iff]
        exact ⟨fun fits => ⟨head, fits, Or.inr hidden⟩, fun kept' => kept'.2.1⟩

/-- The decoded segment is the recorded mapping exactly if the tracker keeps it. -/
theorem segment_iff (findPos : Pos → Int × Int) {t : Tracker} {s : Reader} (agrees : Agrees t s)
    (pos : Pos) :
    (t.read findPos pos s).mappings = s.mappings ++ [t.recorded findPos pos] ↔
      t.Keeps findPos pos := by
  have column : s.column + readBack t.columnField = (if t.columns = [] then 0 else t.column : Int) ↔
      t.KeepsColumn := by
    cases columns : t.columns with
    | nil =>
      have field : t.columnField = 0 := by
        unfold Tracker.columnField Tracker.lastOutCol
        rw [columns]
        rfl
      have start := agrees.column
      rw [columns] at start
      unfold Tracker.KeepsColumn
      rw [columns, field, readBack_zero, start]
      simp [recordedColumn]
    | cons last earlier =>
      rw [if_neg (List.cons_ne_nil _ _)]
      exact columnField_iff agrees columns
  unfold Tracker.read Reader.moved Tracker.recorded Tracker.Keeps
  rw [List.append_cancel_left_eq, List.cons.injEq, Mapping.mk.injEq, agrees.source,
    agrees.sourceLine, agrees.sourceColumn, moved_iff, moved_iff, moved_iff, column]
  simp [agrees.line]

theorem Agrees.start : Agrees Tracker.start Reader.start where
  line := rfl
  column := rfl
  source := rfl
  sourceLine := rfl
  sourceColumn := rfl
  reached _ none := absurd none (by simp [Tracker.start])
  kept some := absurd rfl some

theorem Agrees.stringWritten {t : Tracker} {s : Reader} (agrees : Agrees t s) (str : List UInt8) :
    Agrees (str.foldl Tracker.byte t)
      (if newline ∈ str then s.down (str.count newline) else s) := by
  obtain ⟨-, source, sourceLine, sourceColumn⟩ := Tracker.foldl_byte_sources t str
  have line := Tracker.foldl_byte_line t str
  have columns := Tracker.foldl_byte_columns t str
  by_cases ends : newline ∈ str
  · rw [if_pos ends] at columns
    rw [if_pos ends]
    constructor
    · rw [line, ← agrees.line]
      rfl
    · rw [columns]
      rfl
    · exact agrees.source.trans source.symm
    · exact agrees.sourceLine.trans sourceLine.symm
    · exact agrees.sourceColumn.trans sourceColumn.symm
    · rw [columns]
      exact fun _ none => absurd none (by simp)
    · rw [columns]
      exact fun some => absurd rfl some
  · rw [if_neg ends, Tracker.foldl_byte_of_not_mem t ends]
    exact ⟨agrees.line, agrees.column, agrees.source, agrees.sourceLine, agrees.sourceColumn,
      fun last head => Nat.le_add_right_of_le (agrees.reached last head), agrees.kept⟩

theorem Agrees.map (findPos : Pos → Int × Int) {t : Tracker} {s : Reader} (agrees : Agrees t s)
    (pos : Pos) (keeps : t.Keeps findPos pos) :
    Agrees (t.map findPos pos) (t.read findPos pos s) := by
  have mapping := (segment_iff findPos agrees pos).mpr keeps
  unfold Tracker.read Reader.moved Tracker.recorded at mapping
  rw [List.append_cancel_left_eq, List.cons.injEq, Mapping.mk.injEq] at mapping
  obtain ⟨⟨-, column, source, sourceLine, sourceColumn⟩, -⟩ := mapping
  constructor
  · exact agrees.line
  · refine column.trans ?_
    show _ = recordedColumn (t.column :: t.columns)
    by_cases first : t.columns = []
    · rw [if_pos first, first]
      rfl
    · rw [if_neg first, recordedColumn_of_ne_nil first]
  · exact source
  · exact sourceLine
  · exact sourceColumn
  · rintro last head
    obtain rfl : t.column = last := by simpa [Tracker.map] using head
    exact Nat.le_refl _
  · intro several
    have keepsColumn := keeps.1
    unfold Tracker.KeepsColumn at keepsColumn
    unfold Tracker.map at several ⊢
    cases columns : t.columns with
    | nil => exact absurd columns several
    | cons last earlier =>
      rw [columns] at keepsColumn
      dsimp only at keepsColumn ⊢
      split at keepsColumn
      · simp [*]
      · rw [if_neg (by assumption), List.getLast?_cons_cons]
        exact keepsColumn.1

theorem down_mappings (s : Reader) (str : List UInt8) :
    (if newline ∈ str then s.down (str.count newline) else s).mappings = s.mappings := by
  split <;> rfl

/-- What has been decoded stays. -/
theorem decode_extends (findPos : Pos → Int × Int) {w : Writer} {t : Tracker} {s : Reader}
    (follows : w.Follows t) (shows' : Shows w t s) (calls : List Call) :
    ∃ more, decode (calls.foldl (Writer.call findPos) w).buffer = some (s.mappings ++ more) := by
  induction calls generalizing w t s with
  | nil =>
    refine ⟨[], ?_⟩
    rw [List.append_nil]
    exact shows'.decode
  | cons call calls ih =>
    cases call with
    | map pos =>
      obtain ⟨more, decoded⟩ := ih (follows.map findPos pos).1 (shows'.map findPos follows pos)
      unfold Tracker.read Reader.moved at decoded
      rw [List.append_assoc] at decoded
      exact ⟨_, decoded⟩
    | stringWritten str =>
      obtain ⟨more, decoded⟩ := ih (follows.stringWritten str) (shows'.stringWritten str)
      rw [down_mappings] at decoded
      exact ⟨more, decoded⟩

/-- From a writer that shows what was recorded so far, the mappings that are still to come are
decoded to what is recorded exactly if they are kept. -/
theorem decode_iff (findPos : Pos → Int × Int) {w : Writer} {t : Tracker} {s : Reader}
    (follows : w.Follows t) (shows' : Shows w t s) (agrees : Agrees t s) (calls : List Call) :
    decode (calls.foldl (Writer.call findPos) w).buffer =
        some (s.mappings ++ t.mappings findPos calls) ↔ t.KeepsAll findPos calls := by
  induction calls generalizing w t s with
  | nil =>
    refine iff_of_true ?_ trivial
    unfold Tracker.mappings
    rw [List.append_nil]
    exact shows'.decode
  | cons call calls ih =>
    cases call with
    | stringWritten str =>
      have rest := ih (follows.stringWritten str) (shows'.stringWritten str)
        (agrees.stringWritten str)
      rw [down_mappings] at rest
      exact rest
    | map pos =>
      have follows' := (follows.map findPos pos).1
      have shows'' := shows'.map findPos follows pos
      have segment := segment_iff findPos agrees pos
      rw [List.foldl_cons]
      show decode (calls.foldl (Writer.call findPos) (w.map findPos pos)).buffer =
        some (s.mappings ++ t.recorded findPos pos :: (t.map findPos pos).mappings findPos calls) ↔
          t.Keeps findPos pos ∧ (t.map findPos pos).KeepsAll findPos calls
      constructor
      · intro decoded
        -- the first segment is among the decoded ones whatever comes behind it
        obtain ⟨more, extended⟩ := decode_extends findPos follows' shows'' calls
        have same := Option.some.inj (extended.symm.trans decoded)
        have keeps : t.Keeps findPos pos := by
          apply segment.mp
          unfold Tracker.read Reader.moved at same ⊢
          rw [List.append_assoc, List.append_cancel_left_eq] at same
          rw [List.append_cancel_left_eq]
          exact congrArg (fun m => [m]) (List.cons.inj same).1
        refine ⟨keeps, (ih follows' shows'' (agrees.map findPos pos keeps)).mp ?_⟩
        rw [decoded, segment.mpr keeps, List.append_assoc]
        rfl
      · rintro ⟨keeps, rest⟩
        rw [(ih follows' shows'' (agrees.map findPos pos keeps)).mpr rest, segment.mpr keeps,
          List.append_assoc]
        rfl

/-- The sources of the map are the files in the order of their first mappings. -/
def sources (findPos : Pos → Int × Int) (calls : List Call) : List String :=
  (calls.foldl (Tracker.call findPos) Tracker.start).sources

theorem follows_written (findPos : Pos → Int × Int) {w : Writer} {t : Tracker}
    (follows : w.Follows t) (calls : List Call) :
    (calls.foldl (Writer.call findPos) w).Follows (calls.foldl (Tracker.call findPos) t) := by
  induction calls generalizing w t with
  | nil => exact follows
  | cons call calls ih =>
    cases call with
    | map pos => exact ih (follows.map findPos pos).1
    | stringWritten str => exact ih (follows.stringWritten str)

/-- The mappings of a writer are decoded to what was recorded exactly if every mapping is kept;
the indexes of the sources lead to their files; a builder gives the writer its data in the order in
which they were arranged; and a number is read back exactly if it is below `2 ^ 61`. -/
theorem source_maps_decode_iff (findPos : Pos → Int × Int) :
    (∀ calls, decode (written findPos calls).buffer =
        some (Tracker.start.mappings findPos calls) ↔ Tracker.start.KeepsAll findPos calls) ∧
      (∀ calls, (written findPos calls).files = sources findPos calls) ∧
      (∀ operations : List Operation, ∃ builder pointers,
        operations.foldlM Builder.perform (Builder.new, []) = .ok (builder, pointers) ∧
        builder.generate findPos = .ok (written findPos (arranged operations), builder)) ∧
      ∀ number, decodeNumber (base64Vlq number) = some number ↔ Fits number := by
  refine ⟨fun calls => ?_, fun calls => ?_, fun operations => ?_, fun number => ?_⟩
  · exact decode_iff findPos Writer.Follows.new Shows.new Agrees.start calls
  · exact (follows_written findPos Writer.Follows.new calls).files
  · obtain ⟨builder, run, holds⟩ := @Builder.run_holds _ _ [] Builder.Holds.new
      (fun _ none => absurd none List.not_mem_nil) operations
    exact ⟨builder, _, run, holds.generate findPos⟩
  · rw [decodeNumber_base64Vlq, Option.some.injEq]
    exact readBack_iff number

/-- Behind a newline and one more byte the first mapping is at column 1 and the second, one byte
later, at column 2, but it is decoded at column 1. -/
theorem second_mapping_shifted :
    let pos : Pos := ⟨"Main.hx", 0, 1⟩
    let calls : List Call :=
      [.stringWritten [newline, 97], .map pos, .stringWritten [98], .map pos]
    let findPos : Pos → Int × Int := fun _ => (1, 0)
    Tracker.start.mappings findPos calls = [⟨1, 0, 0, 0, 0⟩, ⟨1, 2, 0, 0, 0⟩] ∧
      decode (written findPos calls).buffer = some [⟨1, 0, 0, 0, 0⟩, ⟨1, 1, 0, 0, 0⟩] := by
  decide +kernel

end Haxe.Guarantees.SourceMaps
