import Mathlib.Data.Int.Order.Basic
import Haxe.Theory.Bisection

/-!
# Lines of a file

`newline` and `find_line` of `syntax/lexer.ml`: the starts of the lines are collected while a file
is read, and a position is looked up in an array of them that is made when it is needed. The last
answer is tried first.
-/

namespace Haxe.Source.Lexer

open Theory Bisection

/-- `max_int` -/
def maxInt : Int := 4611686018427387903

/-- A line by its start and its number. -/
abbrev Line := Int × Nat

structure LexerFile where
  lfile : String
  lline : Nat
  lmaxline : Nat
  /-- the last line first -/
  llines : List Line
  lalines : List Line
  llast : Int
  llastindex : Nat
  deriving DecidableEq

def makeFile (file : String) : LexerFile := ⟨file, 1, 1, [(0, 1)], [(0, 1)], maxInt, 0⟩

def newline (cur : LexerFile) (lexemeEnd : Int) : LexerFile :=
  { cur with lline := cur.lline + 1, llines := (lexemeEnd, cur.lline + 1) :: cur.llines }

/-- The array is made again if there is a new line. -/
def rebuild (f : LexerFile) : LexerFile :=
  if f.lmaxline ≠ f.lline then
    { f with lmaxline := f.lline, lalines := f.llines.reverse, llast := maxInt, llastindex := 0 }
  else f

/-- The line and the offset in it, and the file with the answer remembered. Reading outside of the
array gives `none`. -/
@[grind =] def loop (f : LexerFile) (p : Int) : Nat → Nat → Nat → Option ((Nat × Int) × LexerFile)
  | 0, _, _ => none
  | fuel + 1, min, max =>
    let med := (min + max) / 2
    match f.lalines[med]? with
    | none => none
    | some (lp, line) =>
      if med = min then some ((line, p - lp), { f with llast := p, llastindex := med })
      else if lp > p then loop f p fuel min med
      else loop f p fuel med max

/-- The start of the line behind the last answer. -/
def nextStart (f : LexerFile) : Option Int :=
  if f.llastindex = f.lalines.length - 1 then some maxInt
  else f.lalines[f.llastindex + 1]?.map Prod.fst

def findLine (fuel : Nat) (p : Int) (f : LexerFile) : Option ((Nat × Int) × LexerFile) :=
  let f := rebuild f
  if p ≥ f.llast then
    match f.lalines[f.llastindex]?, nextStart f with
    | some (lp, line), some lp2 =>
      if p ≥ lp ∧ p < lp2 then some ((line, p - lp), f) else loop f p fuel 0 f.lalines.length
    | _, _ => none
  else loop f p fuel 0 f.lalines.length

/-- What happens to a file. -/
inductive Event where
  | newline (lexemeEnd : Int)
  | query (p : Int)
  deriving DecidableEq

/-- The file behind an event, and the answer to a query. -/
def perform (fuel : Nat) (f : LexerFile) : Event → Option (LexerFile × Option (Nat × Int))
  | .newline lexemeEnd => some (newline f lexemeEnd, none)
  | .query p => (findLine fuel p f).map fun found => (found.2, some found.1)

/-- The answers to the queries of a run. -/
def run {σ : Type} (perform : σ → Event → Option (σ × Option (Nat × Int))) :
    σ → List Event → Option (List (Option (Nat × Int)))
  | _, [] => some []
  | s, event :: events =>
    (perform s event).bind fun next => (run perform next.1 events).map (next.2 :: ·)

/-! ## Scanning the lines -/

namespace Known

/-- The lines that are known, and a query by going through them. -/
def perform (known : List Line) : Event → Option (List Line × Option (Nat × Int))
  | .newline lexemeEnd => some (known ++ [(lexemeEnd, known.length + 1)], none)
  | .query p => (scan p known).map fun line => (known, some (line.2, p - line.1))

end Known

/-- The file has the lines that are known. They are in the array up to those that are new, and the
last answer is in the array. -/
structure Represents (f : LexerFile) (known : List Line) : Prop where
  lines : f.llines = known.reverse
  count : f.lline = known.length
  array : f.lalines = known.take f.lmaxline
  bound : f.lmaxline ≤ known.length
  index : f.llastindex < f.lalines.length

/-- The lines are in the order of their starts, and the first one starts at 0. -/
structure Ordered (known : List Line) : Prop where
  sorted : known.Pairwise fun a b => a.1 ≤ b.1
  first : ∀ line, known[0]? = some line → line.1 = 0

section Rebuild

variable {f : LexerFile} {known : List Line}

theorem represents_makeFile (file : String) : Represents (makeFile file) [(0, 1)] :=
  ⟨rfl, rfl, rfl, Nat.le_refl 1, Nat.zero_lt_one⟩

theorem ordered_first : Ordered [(0, 1)] where
  sorted := List.pairwise_singleton _ _
  first := by
    intro line here
    exact (Option.some.inj here) ▸ rfl

theorem represents_newline (represents : Represents f known) (lexemeEnd : Int) :
    Represents (newline f lexemeEnd) (known ++ [(lexemeEnd, known.length + 1)]) where
  lines := by
    show (lexemeEnd, f.lline + 1) :: f.llines = _
    rw [represents.lines, represents.count, List.reverse_append]
    rfl
  count := by
    show f.lline + 1 = _
    rw [represents.count, List.length_append, List.length_singleton]
  array := represents.array.trans (List.take_append_of_le_length represents.bound).symm
  bound := by
    show f.lmaxline ≤ _
    rw [List.length_append]
    exact Nat.le_add_right_of_le represents.bound
  index := represents.index

/-- The array has all the lines then. -/
theorem represents_rebuild (represents : Represents f known) :
    Represents (rebuild f) known ∧ (rebuild f).lalines = known := by
  have some_ : 0 < known.length :=
    Nat.lt_of_lt_of_le (Nat.zero_lt_of_lt represents.index)
      (represents.array ▸ List.length_take_le' f.lmaxline known)
  unfold rebuild
  by_cases stale : f.lmaxline ≠ f.lline
  · rw [if_pos stale]
    have reversed : f.llines.reverse = known := by rw [represents.lines, List.reverse_reverse]
    refine ⟨⟨represents.lines, represents.count, ?_, ?_, ?_⟩, reversed⟩
    · show f.llines.reverse = known.take f.lline
      rw [reversed, represents.count, List.take_length]
    · exact Nat.le_of_eq represents.count
    · show 0 < f.llines.reverse.length
      rw [reversed]
      exact some_
  · rw [if_neg stale]
    have fresh := (not_not.mp stale).trans represents.count
    have whole := represents.array
    rw [fresh, List.take_length] at whole
    exact ⟨represents, whole⟩

end Rebuild

section Lookup

variable {f : LexerFile} {known : List Line} {p : Int}

/-- The loop is the bisection of the array, and remembers what it finds. -/
theorem loop_eq (f : LexerFile) (p : Int) (fuel min max : Nat) :
    loop f p fuel min max = (bisect f.lalines p fuel min max).map fun found =>
      ((found.2.2, p - found.2.1), { f with llast := p, llastindex := found.1 }) := by
  induction fuel generalizing min max with
  | zero => rfl
  | succ fuel ih =>
    rw [loop, bisect]
    cases read : f.lalines[(min + max) / 2]? with
    | none => rfl
    | some line =>
      obtain ⟨lp, number⟩ := line
      show (if (min + max) / 2 = min then _ else _) =
        Option.map _ (if (min + max) / 2 = min then _ else _)
      by_cases single : (min + max) / 2 = min
      · rw [if_pos single, if_pos single, single]
        rfl
      · rw [if_neg single, if_neg single]
        by_cases beyond : lp > p
        · rw [if_pos beyond, if_pos beyond, ih]
        · rw [if_neg beyond, if_neg beyond, ih]

/-- Remembering an index of the array leaves the lines as they are. -/
theorem represents_remembered (represents : Represents f known) {i : Nat}
    (inside : i < f.lalines.length) (p : Int) :
    Represents { f with llast := p, llastindex := i } known :=
  ⟨represents.lines, represents.count, represents.array, represents.bound, inside⟩

theorem loop_scans {fuel : Nat} (represents : Represents f known) (ordered : Ordered known)
    (whole : f.lalines = known) (nonneg : 0 ≤ p) (enough : known.length ≤ fuel) :
    ∃ line f', scan p known = some line ∧
      loop f p fuel 0 f.lalines.length = some ((line.2, p - line.1), f') ∧ Represents f' known := by
  have some_ : 0 < f.lalines.length := Nat.zero_lt_of_lt represents.index
  have low : ∀ line, f.lalines[0]? = some line → line.1 ≤ p := by
    intro line here
    rw [whole] at here
    rw [ordered.first line here]
    exact nonneg
  have high : ∀ line, f.lalines[f.lalines.length]? = some line → p < line.1 := by
    intro line here
    exact absurd (List.getElem?_eq_some_iff.mp here).1 (Nat.lt_irrefl _)
  have fuelled : f.lalines.length ≤ 0 + fuel := by
    rw [whole, Nat.zero_add]
    exact enough
  obtain ⟨i, line, bisected, found⟩ := bisect_found some_ (Nat.le_refl _) low high fuelled
  refine ⟨line, { f with llast := p, llastindex := i }, ?_, ?_,
    represents_remembered represents found.index_lt p⟩
  · exact (whole ▸ found).scan_eq ordered.sorted
  · rw [loop_eq, bisected]
    rfl

/-- A hit of the last answer is found by its neighbour as well. -/
theorem found_nextStart {lp lp2 : Int} {number : Nat}
    (here : f.lalines[f.llastindex]? = some (lp, number)) (next : nextStart f = some lp2)
    (hit : p ≥ lp ∧ p < lp2) : Found f.lalines p f.llastindex (lp, number) := by
  refine ⟨here, hit.1, fun line behind => ?_⟩
  unfold nextStart at next
  by_cases last : f.llastindex = f.lalines.length - 1
  · have inside := (List.getElem?_eq_some_iff.mp behind).1
    omega
  · rw [if_neg last, behind] at next
    exact (Option.some.inj next) ▸ hit.2

theorem exists_nextStart (inside : f.llastindex < f.lalines.length) :
    ∃ lp2, nextStart f = some lp2 := by
  unfold nextStart
  by_cases last : f.llastindex = f.lalines.length - 1
  · exact ⟨maxInt, if_pos last⟩
  · rw [if_neg last, List.getElem?_eq_getElem (by omega)]
    exact ⟨_, rfl⟩

/-- Whatever has been asked before, the answer is that of a scan. -/
theorem findLine_scans {fuel : Nat} (represents : Represents f known) (ordered : Ordered known)
    (nonneg : 0 ≤ p) (enough : known.length ≤ fuel) :
    ∃ line f', scan p known = some line ∧
      findLine fuel p f = some ((line.2, p - line.1), f') ∧ Represents f' known := by
  obtain ⟨rebuilt, whole⟩ := represents_rebuild represents
  have searched := loop_scans rebuilt ordered whole nonneg enough
  unfold findLine
  by_cases later : p ≥ (rebuild f).llast
  · obtain ⟨⟨lp, number⟩, here⟩ : ∃ line, (rebuild f).lalines[(rebuild f).llastindex]? = some line :=
      ⟨_, List.getElem?_eq_getElem rebuilt.index⟩
    obtain ⟨lp2, next⟩ := exists_nextStart rebuilt.index
    rw [if_pos later, here, next]
    by_cases hit : p ≥ lp ∧ p < lp2
    · refine ⟨(lp, number), rebuild f, ?_, if_pos hit, rebuilt⟩
      exact (whole ▸ found_nextStart here next hit).scan_eq ordered.sorted
    · obtain ⟨line, f', scanned, found, represents'⟩ := searched
      exact ⟨line, f', scanned, (if_neg hit).trans found, represents'⟩
  · rw [if_neg later]
    exact searched

end Lookup

/-! ## Runs -/

/-- Newlines at positions that increase from `last` on, and queries at positions that are not
negative. -/
def InOrder : Int → List Event → Prop
  | _, [] => True
  | last, .newline lexemeEnd :: events => last ≤ lexemeEnd ∧ InOrder lexemeEnd events
  | last, .query p :: events => 0 ≤ p ∧ InOrder last events

/-- A file that has the lines that are known, in front of events in order. A unit of fuel is left
for each line that there will be. -/
structure Stands (fuel : Nat) (f : LexerFile) (known : List Line) (last : Int)
    (events : List Event) : Prop where
  represents : Represents f known
  ordered : Ordered known
  nonempty : known ≠ []
  starts : ∀ line ∈ known, line.1 ≤ last
  inOrder : InOrder last events
  enough : known.length + events.length ≤ fuel

section Runs

variable {fuel : Nat} {f : LexerFile} {known : List Line} {last : Int} {events : List Event}

theorem ordered_newline (ordered : Ordered known) (nonempty : known ≠ []) {line : Line}
    (starts : ∀ other ∈ known, other.1 ≤ line.1) : Ordered (known ++ [line]) where
  sorted := by
    refine List.pairwise_append.mpr ⟨ordered.sorted, List.pairwise_singleton _ _, ?_⟩
    intro other member new same
    rw [List.mem_singleton.mp same]
    exact starts other member
  first := by
    intro other here
    rw [List.getElem?_append_left (List.length_pos_iff.mpr nonempty)] at here
    exact ordered.first other here

/-- An event has the answer of a scan, and the file stands in front of the others. -/
theorem Stands.perform {event : Event} (stands : Stands fuel f known last (event :: events)) :
    ∃ f' known' last' answer, perform fuel f event = some (f', answer) ∧
      Known.perform known event = some (known', answer) ∧
      Stands fuel f' known' last' events := by
  have enough : known.length + (events.length + 1) ≤ fuel := stands.enough
  cases event with
  | newline lexemeEnd =>
    obtain ⟨increases, inOrder⟩ := stands.inOrder
    have starts : ∀ line ∈ known, line.1 ≤ lexemeEnd := fun line member =>
      Int.le_trans (stands.starts line member) increases
    refine ⟨newline f lexemeEnd, known ++ [(lexemeEnd, known.length + 1)], lexemeEnd, none, rfl, rfl,
      represents_newline stands.represents lexemeEnd,
      ordered_newline stands.ordered stands.nonempty starts,
      List.append_ne_nil_of_right_ne_nil _ (List.cons_ne_nil _ _), ?_, inOrder, ?_⟩
    · intro line member
      rcases List.mem_append.mp member with before | new
      · exact starts line before
      · rw [List.mem_singleton.mp new]
    · rw [List.length_append, List.length_singleton]
      omega
  | query p =>
    obtain ⟨nonneg, inOrder⟩ := stands.inOrder
    have fuelled : known.length ≤ fuel := by omega
    obtain ⟨line, f', scanned, found, represents⟩ :=
      findLine_scans stands.represents stands.ordered nonneg fuelled
    refine ⟨f', known, last, some (line.2, p - line.1), ?_, ?_, represents, stands.ordered,
      stands.nonempty, stands.starts, inOrder, by omega⟩
    · rw [Lexer.perform, found]
      rfl
    · rw [Known.perform, scanned]
      rfl

theorem Stands.run (stands : Stands fuel f known last events) :
    ∃ answers, run (Lexer.perform fuel) f events = some answers ∧
      run Known.perform known events = some answers := by
  induction events generalizing f known last with
  | nil => exact ⟨[], rfl, rfl⟩
  | cons event events ih =>
    obtain ⟨f', known', last', answer, performed, scanned, after⟩ := stands.perform
    obtain ⟨answers, found, found'⟩ := ih after
    refine ⟨answer :: answers, ?_, ?_⟩
    · rw [Lexer.run, performed, Option.bind_some, found]
      rfl
    · rw [Lexer.run, scanned, Option.bind_some, found']
      rfl

end Runs

end Haxe.Source.Lexer
