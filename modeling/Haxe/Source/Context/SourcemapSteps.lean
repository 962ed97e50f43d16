import Mathlib.Data.List.Count
import Haxe.Source.Context.Sourcemaps

/-!
# Recorded mappings

What a source map is for, stated on the calls alone: the place in the generated text that was
reached when a position was recorded. The text is followed byte by byte.
-/

namespace Haxe.Source.Sourcemaps

open Theory.MappingsFormat

/-- The end of the generated text. `columns` are the columns of the mappings on its last line,
the newest first; the three places in a source are those of the newest mapping. -/
structure Tracker where
  line : Nat
  column : Nat
  columns : List Nat
  sources : List String
  source : Int
  sourceLine : Int
  sourceColumn : Int

namespace Tracker

def start : Tracker := ⟨0, 0, [], [], 0, 0, 0⟩

def byte (t : Tracker) (b : UInt8) : Tracker :=
  if b = newline then { t with line := t.line + 1, column := 0, columns := [] }
  else { t with column := t.column + 1 }

/-- The sources after a mapping: in the order of their first mappings. -/
def withSource (t : Tracker) (file : String) : List String :=
  if file ∈ t.sources then t.sources else t.sources ++ [file]

def indexOf (t : Tracker) (file : String) : Int := ((t.withSource file).idxOf file : Nat)

variable (findPos : Pos → Int × Int)

/-- The mapping a call of `map` stands for. -/
def recorded (t : Tracker) (pos : Pos) : Mapping where
  line := t.line
  column := if t.columns = [] then 0 else t.column
  source := t.indexOf pos.pfile
  sourceLine := (findPos pos).1 - 1
  sourceColumn := (findPos pos).2

def map (t : Tracker) (pos : Pos) : Tracker :=
  { t with
    columns := t.column :: t.columns
    sources := t.withSource pos.pfile
    source := t.indexOf pos.pfile
    sourceLine := (findPos pos).1 - 1
    sourceColumn := (findPos pos).2 }

def call (t : Tracker) : Call → Tracker
  | .map pos => t.map findPos pos
  | .stringWritten str => str.foldl byte t

/-- The mappings of the calls that are still to come. -/
def mappings (t : Tracker) : List Call → List Mapping
  | [] => []
  | .map pos :: calls => t.recorded findPos pos :: (t.map findPos pos).mappings calls
  | .stringWritten str :: calls => (str.foldl byte t).mappings calls

/-- A mapping after the first of its line keeps its column: on the first line if that is zero,
on a later one if the first mapping of the line is at column zero and the distance to the
mapping before fits. -/
def KeepsColumn (t : Tracker) : Prop :=
  match t.columns with
  | [] => True
  | last :: _ =>
    if t.line = 0 then t.column = 0
    else t.columns.getLast? = some 0 ∧ Fits (t.column - last : Int) ∧
      (t.column = last ∨ ¬ 2 ^ 63 ∣ last + 1)

def Keeps (t : Tracker) (pos : Pos) : Prop :=
  t.KeepsColumn ∧ Fits (t.indexOf pos.pfile - t.source) ∧
    Fits ((findPos pos).1 - 1 - t.sourceLine) ∧ Fits ((findPos pos).2 - t.sourceColumn)

/-- Every mapping of the calls that are still to come is kept. -/
def KeepsAll (t : Tracker) : List Call → Prop
  | [] => True
  | .map pos :: calls => t.Keeps findPos pos ∧ (t.map findPos pos).KeepsAll calls
  | .stringWritten str :: calls => (str.foldl byte t).KeepsAll calls

theorem foldl_byte_append (t : Tracker) (a b : List UInt8) :
    (a ++ b).foldl byte t = b.foldl byte (a.foldl byte t) := List.foldl_append

/-- A text without a newline. -/
theorem foldl_byte_of_not_mem {str : List UInt8} (t : Tracker) (single : newline ∉ str) :
    str.foldl byte t = { t with column := t.column + str.length } := by
  induction str generalizing t with
  | nil => rfl
  | cons b str ih =>
    have other : b ≠ newline := fun same => single (same ▸ List.mem_cons_self)
    have rest : newline ∉ str := fun inside => single (List.mem_cons_of_mem b inside)
    rw [List.foldl_cons, ih _ rest]
    unfold byte
    rw [if_neg other]
    simp only [List.length_cons, Nat.add_assoc, Nat.add_comm 1]

theorem foldl_byte_line (t : Tracker) (str : List UInt8) :
    (str.foldl byte t).line = t.line + str.count newline := by
  induction str generalizing t with
  | nil => rfl
  | cons b str ih =>
    rw [List.foldl_cons, ih, List.count_cons]
    unfold byte
    by_cases ends : b = newline
    · simp [ends]
      omega
    · simp [ends]

/-- A text with a newline starts a line without mappings. -/
theorem foldl_byte_columns (t : Tracker) (str : List UInt8) :
    (str.foldl byte t).columns = if newline ∈ str then [] else t.columns := by
  induction str generalizing t with
  | nil => rfl
  | cons b str ih =>
    rw [List.foldl_cons, ih]
    unfold byte
    by_cases ends : b = newline
    · simp [ends]
    · simp [ends, Ne.symm ends]

theorem foldl_byte_sources (t : Tracker) (str : List UInt8) :
    (str.foldl byte t).sources = t.sources ∧ (str.foldl byte t).source = t.source ∧
      (str.foldl byte t).sourceLine = t.sourceLine ∧
      (str.foldl byte t).sourceColumn = t.sourceColumn := by
  induction str generalizing t with
  | nil => exact ⟨rfl, rfl, rfl, rfl⟩
  | cons b str ih =>
    obtain ⟨sources, source, line, column⟩ := ih (t.byte b)
    have kept : (t.byte b).sources = t.sources ∧ (t.byte b).source = t.source ∧
        (t.byte b).sourceLine = t.sourceLine ∧ (t.byte b).sourceColumn = t.sourceColumn := by
      unfold byte
      split <;> exact ⟨rfl, rfl, rfl, rfl⟩
    rw [List.foldl_cons, sources, source, line, column]
    exact kept

end Tracker

end Haxe.Source.Sourcemaps

/-!
## Steps of the source map writer

`stringWritten` and `map` beside the tracker of the generated text, and what a reader of the
mappings sees of them. On the first line `current_out_col` is the column, on a later one it is
one more, as it counts the newline too.
-/

namespace Haxe.Source.Sourcemaps

open Theory.MappingsFormat

theorem indexFrom_eq_none {str : List UInt8} {i : Nat} {c : UInt8} (absent : c ∉ str.drop i) :
    indexFrom str i c = none := by
  unfold indexFrom
  rw [List.idxOf?_eq_none_iff.mpr absent]
  rfl

theorem indexFrom_append {pre a b : List UInt8} {c : UInt8} (absent : c ∉ a) :
    indexFrom (pre ++ (a ++ c :: b)) pre.length c = some (pre.length + a.length) := by
  unfold indexFrom
  have first : (a ++ c :: b).idxOf? c = some a.length := by
    rw [List.idxOf?_eq_some_iff]
    refine ⟨by simp, by simp, fun j before => ?_⟩
    rw [List.getElem_append_left before]
    intro same
    exact absent (same ▸ List.getElem_mem before)
  rw [List.drop_left, first, Option.map_some, Nat.add_comm]

theorem count_newline {a b : List UInt8} (single : newline ∉ a) :
    (a ++ newline :: b).count newline = b.count newline + 1 := by
  rw [List.count_append, List.count_cons_self, List.count_eq_zero_of_not_mem single]
  omega

namespace Tracker

/-- A newline puts the column back to zero. -/
theorem foldl_byte_newline (t : Tracker) (a : List UInt8) :
    ((a ++ [newline]).foldl byte t).column = 0 := by
  rw [foldl_byte_append]
  simp [byte]

theorem foldl_byte_split (t : Tracker) (a b : List UInt8) :
    (a ++ newline :: b).foldl byte t = b.foldl byte ((a ++ [newline]).foldl byte t) := by
  rw [← foldl_byte_append]
  simp

end Tracker

namespace Writer

/-- One round of the loop, from the text `pre` to the next newline. -/
theorem handleNextNewLine_step (pre a b : List UInt8) (w : Writer) (single : newline ∉ a) :
    handleNextNewLine (pre ++ (a ++ newline :: b)) ((pre.length : Int) - 1) w =
      handleNextNewLine (pre ++ (a ++ [newline]) ++ b)
        (((pre ++ (a ++ [newline])).length : Int) - 1) { w with buffer := w.buffer ++ [';'] } := by
  have position : ((pre.length : Int) - 1 + 1).toNat = pre.length := by omega
  have next : ((pre ++ (a ++ [newline])).length : Int) - 1 = (pre.length + a.length : Nat) := by
    simp only [List.length_append, List.length_singleton]
    omega
  have text : pre ++ (a ++ [newline]) ++ b = pre ++ (a ++ newline :: b) := by simp
  rw [handleNextNewLine]
  split
  · rename_i absent
    rw [position, indexFrom_append single] at absent
    cases absent
  · rename_i found
    rw [position, indexFrom_append single] at found
    obtain rfl := Option.some.inj found
    rw [text, next]

/-- The last round of the loop, in a text with a newline. -/
theorem handleNextNewLine_last (pre rest : List UInt8) (w : Writer) (nonempty : pre ≠ [])
    (single : newline ∉ rest) :
    handleNextNewLine (pre ++ rest) ((pre.length : Int) - 1) w =
      { w with
        printComma := false
        currentOutCol := wrap (rest.length + 1)
        lastOutCol := 0 } := by
  have position : ((pre.length : Int) - 1 + 1).toNat = pre.length := by omega
  have positive := List.length_pos_iff.mpr nonempty
  have none : indexFrom (pre ++ rest) pre.length newline = none :=
    indexFrom_eq_none (by rwa [List.drop_left])
  have column : ((pre ++ rest).length : Int) - ((pre.length : Int) - 1) = rest.length + 1 := by
    simp only [List.length_append]
    omega
  rw [handleNextNewLine]
  split
  · rw [if_pos (by omega), column]
  · rename_i found
    rw [position, none] at found
    cases found

/-- The loop behind a newline: a `;` for each newline that follows, and the column behind the
last of them. -/
theorem handleNextNewLine_after {rest pre : List UInt8} (w : Writer) (nonempty : pre ≠ [])
    {t : Tracker} (fresh : t.column = 0) :
    handleNextNewLine (pre ++ rest) ((pre.length : Int) - 1) w =
      { w with
        buffer := w.buffer ++ List.replicate (rest.count newline) ';'
        printComma := false
        currentOutCol := wrap ((rest.foldl Tracker.byte t).column + 1)
        lastOutCol := 0 } := by
  induction len : rest.length using Nat.strongRecOn generalizing rest pre w t with
  | ind n ih =>
    by_cases more : newline ∈ rest
    · obtain ⟨a, b, rfl, single⟩ := List.eq_append_cons_of_mem more
      have shorter : b.length < n := by
        rw [← len]
        simp only [List.length_append, List.length_cons]
        omega
      rw [handleNextNewLine_step pre a b w single,
        ih b.length shorter _ (by simp) (Tracker.foldl_byte_newline t a) rfl,
        Tracker.foldl_byte_split, count_newline single]
      simp [List.replicate_succ]
    · rw [handleNextNewLine_last pre rest w nonempty more, Tracker.foldl_byte_of_not_mem t more,
        fresh, List.count_eq_zero_of_not_mem more]
      simp

theorem stringWritten_of_not_mem {str : List UInt8} (w : Writer) (single : newline ∉ str) :
    w.stringWritten str = { w with currentOutCol := wrap (w.currentOutCol + str.length) } := by
  have none : indexFrom str 0 newline = none := indexFrom_eq_none (by simpa using single)
  unfold stringWritten
  rw [handleNextNewLine]
  split
  · rw [if_neg (by omega)]
  · rename_i found
    cases found.symm.trans none

theorem stringWritten_of_mem {str : List UInt8} (w : Writer) (t : Tracker)
    (ends : newline ∈ str) :
    w.stringWritten str =
      { w with
        buffer := w.buffer ++ List.replicate (str.count newline) ';'
        printComma := false
        currentOutCol := wrap ((str.foldl Tracker.byte t).column + 1)
        lastOutCol := 0 } := by
  obtain ⟨a, b, rfl, single⟩ := List.eq_append_cons_of_mem ends
  have first := handleNextNewLine_step [] a b w single
  have others := @handleNextNewLine_after b ([] ++ (a ++ [newline]))
    { w with buffer := w.buffer ++ [';'] } (by simp) _ (Tracker.foldl_byte_newline t a)
  unfold stringWritten
  rw [Tracker.foldl_byte_split, count_newline single]
  refine (first.trans others).trans ?_
  simp [List.replicate_succ]

end Writer

namespace Tracker

/-- `current_out_col` before it is taken modulo `2 ^ 63`. -/
def outCol (t : Tracker) (column : Nat) : Int := if t.line = 0 then column else column + 1

def lastOutCol (t : Tracker) : Int :=
  match t.columns with
  | [] => 0
  | last :: _ => wrap (t.outCol last)

/-- The number written for the column of the next mapping. -/
def columnField (t : Tracker) : Int :=
  if t.lastOutCol = 0 then 0 else wrap (wrap (t.outCol t.column) - t.lastOutCol)

/-- The numbers of the next segment. -/
def fields (findPos : Pos → Int × Int) (t : Tracker) (pos : Pos) : List Int :=
  [t.columnField, wrap (t.indexOf pos.pfile - t.source),
    wrap ((findPos pos).1 - 1 - t.sourceLine), wrap ((findPos pos).2 - t.sourceColumn)]

end Tracker

theorem Writer.writeSegment_eq (w : Writer) (srcFile srcLine srcCol : Int) :
    w.writeSegment srcFile srcLine srcCol =
      { w with
        buffer := w.buffer ++ ((if w.printComma then [','] else []) ++
          [if w.lastOutCol = 0 then 0 else wrap (w.currentOutCol - w.lastOutCol),
            wrap (srcFile - w.lastSrcFile), wrap (srcLine - w.lastSrcLine),
            wrap (srcCol - w.lastSrcCol)].flatMap base64Vlq)
        printComma := true
        lastSrcFile := srcFile
        lastSrcLine := srcLine
        lastSrcCol := srcCol
        lastOutCol := w.currentOutCol } := by
  unfold writeSegment
  by_cases comma : w.printComma <;> by_cases first : w.lastOutCol = 0 <;>
    simp [comma, first, writeBase64Vlq]

/-- The fields of the writer are what the tracker knows. -/
structure Writer.Follows (w : Writer) (t : Tracker) : Prop where
  files : w.files = t.sources
  indexes : ∀ file, w.filesIndexes.lookup file =
    if file ∈ t.sources then some (t.sources.idxOf file : Int) else none
  srcFile : w.lastSrcFile = t.source
  srcLine : w.lastSrcLine = t.sourceLine
  srcCol : w.lastSrcCol = t.sourceColumn
  current : w.currentOutCol = wrap (t.outCol t.column)
  last : w.lastOutCol = t.lastOutCol
  comma : w.printComma = !t.columns.isEmpty

namespace Writer.Follows

variable {w : Writer} {t : Tracker}

theorem new : Writer.new.Follows Tracker.start where
  files := rfl
  indexes _ := rfl
  srcFile := rfl
  srcLine := rfl
  srcCol := rfl
  current := rfl
  last := rfl
  comma := rfl

theorem stringWritten (follows : w.Follows t) (str : List UInt8) :
    (w.stringWritten str).Follows (str.foldl Tracker.byte t) := by
  obtain ⟨sources, source, sourceLine, sourceColumn⟩ := Tracker.foldl_byte_sources t str
  have line := Tracker.foldl_byte_line t str
  have columns := Tracker.foldl_byte_columns t str
  by_cases ends : newline ∈ str
  · have later : (str.foldl Tracker.byte t).line ≠ 0 := by
      have := List.count_pos_iff.mpr ends
      omega
    rw [if_pos ends] at columns
    rw [stringWritten_of_mem w t ends]
    constructor
    · exact follows.files.trans sources.symm
    · rw [sources]
      exact follows.indexes
    · exact follows.srcFile.trans source.symm
    · exact follows.srcLine.trans sourceLine.symm
    · exact follows.srcCol.trans sourceColumn.symm
    · unfold Tracker.outCol
      rw [if_neg later]
    · unfold Tracker.lastOutCol
      rw [columns]
    · rw [columns]
      rfl
  · rw [if_neg ends] at columns
    rw [stringWritten_of_not_mem w ends]
    rw [Tracker.foldl_byte_of_not_mem t ends]
    constructor
    · exact follows.files
    · exact follows.indexes
    · exact follows.srcFile
    · exact follows.srcLine
    · exact follows.srcCol
    · show wrap (w.currentOutCol + str.length) = _
      rw [follows.current]
      unfold wrap Tracker.outCol
      rw [Int.bmod_add_bmod]
      dsimp only
      split
      · congr 1
      · congr 1
        omega
    · exact follows.last
    · exact follows.comma

/-- A known file keeps its index, a new one comes last. -/
theorem getFileIndex (follows : w.Follows t) (pos : Pos) :
    ∃ indexes, w.getFileIndex pos = (t.indexOf pos.pfile,
        { w with files := t.withSource pos.pfile, filesIndexes := indexes }) ∧
      ∀ file, indexes.lookup file =
        if file ∈ t.withSource pos.pfile then some ((t.withSource pos.pfile).idxOf file : Int)
        else none := by
  have known := follows.indexes pos.pfile
  unfold Writer.getFileIndex Tracker.indexOf Tracker.withSource
  by_cases mem : pos.pfile ∈ t.sources
  · rw [if_pos mem] at known
    rw [known, if_pos mem, ← follows.files]
    exact ⟨w.filesIndexes, rfl, follows.files ▸ follows.indexes⟩
  · rw [if_neg mem] at known
    rw [known, if_neg mem, follows.files]
    refine ⟨(pos.pfile, (t.sources.length : Int)) :: w.filesIndexes, ?_, fun file => ?_⟩
    · rw [List.idxOf_append_of_notMem mem]
      simp
    · rw [List.lookup_cons]
      by_cases same : file = pos.pfile
      · subst same
        rw [List.idxOf_append_of_notMem mem]
        simp
      · rw [beq_eq_false_iff_ne.mpr same]
        dsimp only
        rw [follows.indexes file]
        by_cases old : file ∈ t.sources
        · rw [if_pos old, if_pos (List.mem_append_left _ old), List.idxOf_append_of_mem old]
        · rw [if_neg old, if_neg]
          simp [old, same]

variable (findPos : Pos → Int × Int)

theorem map (follows : w.Follows t) (pos : Pos) :
    (w.map findPos pos).Follows (t.map findPos pos) ∧
      (w.map findPos pos).buffer = w.buffer ++ ((if t.columns = [] then [] else [',']) ++
        (t.fields findPos pos).flatMap base64Vlq) := by
  have asked : { w with lastMappedPos := some pos }.Follows t :=
    ⟨follows.files, follows.indexes, follows.srcFile, follows.srcLine, follows.srcCol,
      follows.current, follows.last, follows.comma⟩
  obtain ⟨indexes, answer, lookups⟩ := getFileIndex asked pos
  have column : (if w.lastOutCol = 0 then 0 else wrap (w.currentOutCol - w.lastOutCol)) =
      t.columnField := by
    unfold Tracker.columnField
    rw [follows.last, follows.current]
  have comma : (if w.printComma then [','] else []) = if t.columns = [] then [] else [','] := by
    rw [follows.comma]
    cases t.columns <;> rfl
  unfold Writer.map
  rw [answer]
  dsimp only
  rw [writeSegment_eq]
  dsimp only
  rw [column, comma, follows.srcFile, follows.srcLine, follows.srcCol]
  constructor
  · constructor
    · rfl
    · exact lookups
    · rfl
    · rfl
    · rfl
    · exact follows.current
    · exact follows.current
    · rfl
  · rfl

end Writer.Follows

end Haxe.Source.Sourcemaps

/-!
## Reading a source map back

What a reader of the mappings knows after each call of the writer. A `Reader` here is one at
the end of a segment; it moves by the numbers it gets back, which are the numbers that were
written as far as these fit.
-/

namespace Haxe.Theory.MappingsFormat.Reader

/-- Nothing of a segment has been read. -/
def Between (s : Reader) : Prop := s.fields = [] ∧ s.value = 0 ∧ s.shift = 0

theorem Between.endSegment {s : Reader} (between : s.Between) : s.endSegment = some s := by
  unfold Reader.endSegment
  rw [between.1, if_neg (by simp [between.2.2])]

/-- The reader at the start of a line some lines further down. -/
def down (s : Reader) (lines : Nat) : Reader := { s with line := s.line + lines, column := 0 }

theorem Between.down {s : Reader} (between : s.Between) (lines : Nat) :
    (s.down lines).Between := between

theorem read_newline {r s : Reader} (ends : r.endSegment = some s) :
    r.read ';' = some (s.down 1) := by
  unfold Reader.read
  rw [if_neg (by decide), if_pos rfl, ends]
  rfl

theorem read_newlines {r s : Reader} (ends : r.endSegment = some s) (between : s.Between)
    (lines : Nat) :
    (List.replicate (lines + 1) ';').foldlM Reader.read r = some (s.down (lines + 1)) := by
  induction lines generalizing r s with
  | zero =>
    show (r.read ';').bind _ = _
    rw [read_newline ends]
    rfl
  | succ lines ih =>
    rw [List.replicate_succ, List.foldlM_cons, read_newline ends, Option.bind_eq_bind,
      Option.bind_some, ih (between.down 1).endSegment (between.down 1)]
    simp only [Reader.down, Nat.add_assoc, Nat.add_comm 1]

end Haxe.Theory.MappingsFormat.Reader

namespace Haxe.Source.Sourcemaps

open Theory.MappingsFormat

/-- Reading what is written so far leads to `s`; at the start of a line no segment has to be
ended for that. -/
structure Shows (w : Writer) (t : Tracker) (s : Reader) : Prop where
  read : ∃ r, w.buffer.foldlM Reader.read Reader.start = some r ∧ r.endSegment = some s ∧
    (t.columns = [] → r = s)
  between : s.Between
  line : s.line = t.line
  column : t.columns = [] → s.column = 0

/-- The reader after one more segment. -/
def Tracker.read (findPos : Pos → Int × Int) (t : Tracker) (pos : Pos) (s : Reader) : Reader :=
  s.moved (readBack t.columnField) (readBack (wrap (t.indexOf pos.pfile - t.source)))
    (readBack (wrap ((findPos pos).1 - 1 - t.sourceLine)))
    (readBack (wrap ((findPos pos).2 - t.sourceColumn)))

namespace Shows

variable {w : Writer} {t : Tracker} {s : Reader}

theorem new : Shows Writer.new Tracker.start Reader.start where
  read := ⟨Reader.start, rfl, rfl, fun _ => rfl⟩
  between := ⟨rfl, rfl, rfl⟩
  line := rfl
  column _ := rfl

theorem decode (shows' : Shows w t s) : decode w.buffer = some s.mappings := by
  obtain ⟨r, read, ends, _⟩ := shows'.read
  unfold Theory.MappingsFormat.decode
  rw [read, Option.bind_eq_bind, Option.bind_some, ends]
  rfl

theorem stringWritten (shows' : Shows w t s) (str : List UInt8) :
    Shows (w.stringWritten str) (str.foldl Tracker.byte t)
      (if newline ∈ str then s.down (str.count newline) else s) := by
  obtain ⟨r, read, ends, same⟩ := shows'.read
  have columns := Tracker.foldl_byte_columns t str
  have line := Tracker.foldl_byte_line t str
  by_cases more : newline ∈ str
  · rw [if_pos more] at columns
    obtain ⟨lines, count⟩ : ∃ lines, str.count newline = lines + 1 :=
      Nat.exists_eq_add_one.mpr (List.count_pos_iff.mpr more)
    rw [if_pos more, Writer.stringWritten_of_mem w t more]
    constructor
    · refine ⟨s.down (str.count newline), ?_, (shows'.between.down _).endSegment, fun _ => rfl⟩
      rw [List.foldlM_append, read, Option.bind_eq_bind, Option.bind_some, count,
        Reader.read_newlines ends shows'.between]
    · exact shows'.between.down _
    · rw [line, ← shows'.line]
      rfl
    · exact fun _ => rfl
  · rw [if_neg more] at columns
    rw [if_neg more, Writer.stringWritten_of_not_mem w more]
    constructor
    · exact ⟨r, read, ends, fun first => same (columns ▸ first)⟩
    · exact shows'.between
    · rw [line, List.count_eq_zero_of_not_mem more]
      exact shows'.line
    · exact fun first => shows'.column (columns ▸ first)

theorem map (findPos : Pos → Int × Int) (shows' : Shows w t s) (follows : w.Follows t)
    (pos : Pos) :
    Shows (w.map findPos pos) (t.map findPos pos) (t.read findPos pos s) := by
  obtain ⟨r, read, ends, same⟩ := shows'.read
  obtain ⟨fields, value, shift⟩ := shows'.between
  have comma : (if t.columns = [] then ([] : List Char) else [',']).foldlM Reader.read r =
      some s := by
    by_cases first : t.columns = []
    · rw [if_pos first, same first]
      rfl
    · rw [if_neg first]
      show (r.read ',').bind _ = _
      unfold Reader.read
      rw [if_pos rfl, ends]
      rfl
  constructor
  · refine ⟨{ s with fields := (t.fields findPos pos).map readBack }, ?_, ?_, ?_⟩
    · rw [(follows.map findPos pos).2, List.foldlM_append, read, Option.bind_eq_bind,
        Option.bind_some, List.foldlM_append, comma, Option.bind_eq_bind, Option.bind_some,
        read_numbers _ _ ⟨value, shift⟩, fields, List.nil_append]
    · unfold Reader.endSegment
      rw [if_neg (by simp [shift])]
      rfl
    · exact fun none => absurd none (List.cons_ne_nil _ _)
  · exact ⟨rfl, value, shift⟩
  · exact shows'.line
  · exact fun none => absurd none (List.cons_ne_nil _ _)

end Shows

end Haxe.Source.Sourcemaps
