import Haxe.Source.Macro.StringProducers

/-!
# Runs over strings and buffers

The strings and buffers of a program in the macro interpreter, which share nothing but are
changed by later accesses: reading a string moves its cached offsets. An operation that raises
makes nothing, and keeps the offsets that it has moved.
-/

namespace Haxe.Source.StringHeap

open UTF8 EvalString StdString

/-- What was made so far, in order. A string that a function gives back as it is (`replace` its
argument, every function the empty string at 0) can be used under its old number as well. -/
structure Heap where
  strings : List VString
  buffers : List VStringBuffer
  deriving DecidableEq, Repr

inductive Operation where
  | literal (points : List CodePoint)
  | concat (s1 s2 : Nat)
  | join (sep : Nat) (sl : List Nat)
  | charAt (this : Nat) (i : Int)
  | charCodeAt (this : Nat) (i : Int)
  | substr (this : Nat) (pos : Int) (len : Option Int)
  | substring (this : Nat) (first : Int) (endIndex : Option Int)
  | split (this delimiter : Nat)
  | replace (this sub by' : Nat)
  | urlDecode (this : Nat)
  | newBuffer
  | addString (buffer s : Nat)
  | addOther (buffer : Nat) (printed : List CodePoint)
  | addChar (buffer : Nat) (i : Int)
  | addSub (buffer s : Nat) (pos : Int) (len : Option Int)
  | toString (buffer : Nat)
  deriving DecidableEq, Repr

namespace Heap

def start : Heap := ⟨[emptyString], []⟩

def alloc (h : Heap) (made : Res (List VString)) : Heap :=
  match made with
  | .ok l => { h with strings := h.strings ++ l }
  | .error _ => h

def onString (h : Heap) (i : Nat) (f : VString → Heap) : Heap := (h.strings[i]?).elim h f

def onBuffer (h : Heap) (i : Nat) (f : VStringBuffer → Heap) : Heap := (h.buffers[i]?).elim h f

def setString (h : Heap) (i : Nat) (s : VString) : Heap := { h with strings := h.strings.set i s }

def setBuffer (h : Heap) (i : Nat) (made : Res VStringBuffer) : Heap :=
  match made with
  | .ok b => { h with buffers := h.buffers.set i b }
  | .error _ => h

/-- A string is read, which moves its cached offsets, and one is made of it. -/
def read (h : Heap) (i : Nat) (f : VString → Res VString × VString) : Heap :=
  h.onString i fun s => (h.setString i (f s).2).alloc ((f s).1.map fun v => [v])

def step (h : Heap) : Operation → Heap
  | .literal points => h.alloc (.ok [createUnknownVstring (encode points)])
  | .concat s1 s2 => h.onString s1 fun s1 => h.onString s2 fun s2 => h.alloc (.ok [concat s1 s2])
  | .join sep sl => h.onString sep fun sep =>
    h.alloc (.ok [join sep (sl.filterMap fun i => h.strings[i]?)])
  | .charAt this i => h.read this fun s => charAt s i
  | .charCodeAt this i => h.onString this fun s => h.setString this (charCodeAt s i).2
  | .substr this pos len => h.read this fun s => substr s pos len
  | .substring this first endIndex => h.read this fun s => substring s first endIndex
  | .split this delimiter => h.onString this fun s => h.onString delimiter fun d =>
    h.alloc (split s d)
  | .replace this sub by' => h.onString this fun s => h.onString sub fun sub =>
    h.onString by' fun by' => h.alloc ((replace s sub by').map fun v => [v])
  | .urlDecode this => h.onString this fun s => h.alloc ((urlDecode s).map fun v => [v])
  | .newBuffer => { h with buffers := h.buffers ++ [VStringBuffer.create] }
  | .addString buffer s => h.onBuffer buffer fun b => h.onString s fun s =>
    h.setBuffer buffer (.ok (add b (.string s)))
  | .addOther buffer printed => h.onBuffer buffer fun b =>
    h.setBuffer buffer (.ok (add b (.other (encode printed))))
  | .addChar buffer i => h.onBuffer buffer fun b => h.setBuffer buffer (addChar b i)
  | .addSub buffer s pos len => h.onBuffer buffer fun b => h.onString s fun v =>
    (h.setString s (addSub b v pos len).2).setBuffer buffer (addSub b v pos len).1
  | .toString buffer => h.onBuffer buffer fun b => h.alloc (.ok [b.contents])

def run (h : Heap) (operations : List Operation) : Heap := operations.foldl step h

/-- Every string and the contents of every buffer represent code points. -/
structure Valid (h : Heap) : Prop where
  strings : ∀ s ∈ h.strings, IsText s
  buffers : ∀ b ∈ h.buffers, IsText b.contents

/-- The condition under which an operation counts characters and keeps offsets right. -/
def Counts (h : Heap) : Operation → Prop
  | .split this delimiter => ∀ s ∈ h.strings[this]?, ∀ d ∈ h.strings[delimiter]?,
    ∀ hay needle, Represents s hay → Represents d needle → SplitsCounted needle hay
  | .urlDecode this => ∀ s ∈ h.strings[this]?, ∀ c ∈ s.sstring, c < 0x80
  | .addOther _ printed => ∀ u ∈ printed, u.val < 0x80
  | .addSub _ this pos len => ∀ s ∈ h.strings[this]?,
    pos = -1 → cachesStart s = true → len.getD (s.slength - pos) ≤ 0
  | _ => True

/-- Every operation of a run meets its condition in the state in front of it. -/
def AllCount : Heap → List Operation → Prop
  | _, [] => True
  | h, operation :: operations => h.Counts operation ∧ AllCount (h.step operation) operations

variable {h : Heap}

theorem valid_start : start.Valid where
  strings s member := by
    obtain rfl := List.mem_singleton.mp member
    exact ⟨[], represents_empty⟩
  buffers _ none := absurd none List.not_mem_nil

namespace Valid

theorem alloc (valid : h.Valid) {made : Res (List VString)}
    (texts : ∀ l, made = .ok l → ∀ v ∈ l, IsText v) : (h.alloc made).Valid := by
  cases made with
  | error e => exact valid
  | ok l =>
    refine ⟨fun s member => ?_, valid.buffers⟩
    rcases List.mem_append.mp member with old | new
    · exact valid.strings s old
    · exact texts l rfl s new

theorem alloc_one (valid : h.Valid) {v : VString} (text : IsText v) :
    (h.alloc (.ok [v])).Valid := by
  refine valid.alloc fun l made s member => ?_
  obtain rfl := Except.ok.inj made
  obtain rfl := List.mem_singleton.mp member
  exact text

theorem alloc_map (valid : h.Valid) {made : Res VString} (text : ∀ v, made = .ok v → IsText v) :
    (h.alloc (made.map fun v => [v])).Valid := by
  cases made with
  | error e => exact valid
  | ok v => exact valid.alloc_one (text v rfl)

theorem onString (valid : h.Valid) {i : Nat} {f : VString → Heap}
    (reached : ∀ s, h.strings[i]? = some s → IsText s → (f s).Valid) : (h.onString i f).Valid := by
  unfold Heap.onString
  cases found : h.strings[i]? with
  | none => exact valid
  | some s => exact reached s found (valid.strings s (List.mem_of_getElem? found))

theorem onBuffer (valid : h.Valid) {i : Nat} {f : VStringBuffer → Heap}
    (reached : ∀ b, IsText b.contents → (f b).Valid) : (h.onBuffer i f).Valid := by
  unfold Heap.onBuffer
  cases found : h.buffers[i]? with
  | none => exact valid
  | some b => exact reached b (valid.buffers b (List.mem_of_getElem? found))

theorem setString (valid : h.Valid) {s : VString} (text : IsText s) (i : Nat) :
    (h.setString i s).Valid := by
  refine ⟨fun s' member => ?_, valid.buffers⟩
  rcases List.mem_or_eq_of_mem_set member with old | rfl
  · exact valid.strings s' old
  · exact text

theorem setBuffer (valid : h.Valid) {made : Res VStringBuffer}
    (text : ∀ b, made = .ok b → IsText b.contents) (i : Nat) : (h.setBuffer i made).Valid := by
  cases made with
  | error e => exact valid
  | ok b =>
    refine ⟨valid.strings, fun b' member => ?_⟩
    rcases List.mem_or_eq_of_mem_set member with old | rfl
    · exact valid.buffers b' old
    · exact text b' rfl

theorem read (valid : h.Valid) {i : Nat} {f : VString → Res VString × VString}
    (keeps : ∀ s points, Represents s points →
      (∀ v, (f s).1 = .ok v → IsText v) ∧ Represents (f s).2 points) : (h.read i f).Valid := by
  refine valid.onString fun s _ text => ?_
  obtain ⟨points, represents⟩ := text
  obtain ⟨made, after⟩ := keeps s points represents
  exact (valid.setString ⟨points, after⟩ i).alloc_map made

/-- What one operation keeps. -/
theorem step (valid : h.Valid) {operation : Operation} (counts : h.Counts operation) :
    (h.step operation).Valid := by
  cases operation with
  | literal points => exact valid.alloc_one ⟨points, represents_unknown points⟩
  | concat s1 s2 =>
    refine valid.onString fun s1 _ text1 => valid.onString fun s2 _ text2 => ?_
    obtain ⟨points1, left⟩ := text1
    obtain ⟨points2, right⟩ := text2
    exact valid.alloc_one ⟨_, represents_concat left right⟩
  | join sep sl =>
    refine valid.onString fun sep _ text => valid.alloc_one (isText_join text fun s member => ?_)
    obtain ⟨i, -, found⟩ := List.mem_filterMap.mp member
    exact valid.strings s (List.mem_of_getElem? found)
  | charAt this i => exact valid.read fun s points represents => charAt_isText represents i
  | charCodeAt this i =>
    refine valid.onString fun s _ text => ?_
    obtain ⟨points, represents⟩ := text
    exact valid.setString ⟨points, charCodeAt_represents represents i⟩ this
  | substr this pos len =>
    exact valid.read fun s points represents => substr_isText represents pos len
  | substring this first endIndex =>
    exact valid.read fun s points represents => substring_isText represents first endIndex
  | split this delimiter =>
    refine valid.onString fun s found text => valid.onString fun d found' text' => ?_
    obtain ⟨hay, thisIs⟩ := text
    obtain ⟨needle, strIs⟩ := text'
    refine valid.alloc fun l made => split_isText thisIs strIs ?_ made
    exact counts s found d found' hay needle thisIs strIs
  | replace this sub by' =>
    refine valid.onString fun s _ text => valid.onString fun sub _ text' =>
      valid.onString fun by' _ text'' => valid.alloc_map fun v made => ?_
    obtain ⟨hay, thisIs⟩ := text
    obtain ⟨needle, strIs⟩ := text'
    obtain ⟨byPoints, byIs⟩ := text''
    exact replace_isText thisIs strIs byIs made
  | urlDecode this =>
    refine valid.onString fun s found _ => valid.alloc_map fun v made => ?_
    exact urlDecode_isText (counts s found) made
  | newBuffer =>
    refine ⟨valid.strings, fun b member => ?_⟩
    rcases List.mem_append.mp member with old | new
    · exact valid.buffers b old
    · obtain rfl := List.mem_singleton.mp new
      exact ⟨[], represents_create rfl rfl⟩
  | addString buffer s =>
    refine valid.onBuffer fun b text => valid.onString fun s _ added =>
      valid.setBuffer (fun b' made => ?_) buffer
    obtain rfl := Except.ok.inj made
    exact addString_isText text added
  | addOther buffer printed =>
    refine valid.onBuffer fun b text => valid.setBuffer (fun b' made => ?_) buffer
    obtain rfl := Except.ok.inj made
    exact addString_isText text (isText_printed counts)
  | addChar buffer i =>
    exact valid.onBuffer fun b text => valid.setBuffer (fun b' => addChar_isText text) buffer
  | addSub buffer s pos len =>
    refine valid.onBuffer fun b text => valid.onString fun v found text' => ?_
    obtain ⟨points, represents⟩ := text'
    obtain ⟨made, after⟩ := addSub_isText text represents (counts v found)
    exact (valid.setString ⟨points, after⟩ s).setBuffer made buffer
  | toString buffer => exact valid.onBuffer fun b text => valid.alloc_one text

/-- What a run keeps whose operations all meet their conditions. -/
theorem run (valid : h.Valid) {operations : List Operation} (counts : AllCount h operations) :
    (h.run operations).Valid := by
  induction operations generalizing h with
  | nil => exact valid
  | cons operation operations ih => exact ih (valid.step counts.1) counts.2

end Valid

end Heap

end Haxe.Source.StringHeap
