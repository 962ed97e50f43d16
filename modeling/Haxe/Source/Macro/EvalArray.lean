import Mathlib.Data.List.Infix
import Haxe.Theory.Blit

/-!
# Arrays of the macro interpreter

`macro/eval/evalArray.ml` and the module `StdArray` of `macro/eval/evalStdLib.ml`. An array
has a buffer `avalues` of which the first `alength` values are live. A function that
changes its array returns the changed array first.
-/

namespace Haxe.Source.Macro.EvalArray

open Theory

/-- `equals` of values and `Array.sort`, of which only the documented effect is used: it
reorders. -/
structure Runtime (α : Type) where
  vnull : α
  equals : α → α → Bool
  sort : (α → α → Int) → List α → List α
  sort_perm : ∀ f l, (sort f l).Perm l

structure VArray (α : Type) where
  avalues : List α
  alength : Nat

variable {α : Type} (R : Runtime α)

abbrev Res := Except OutOfBounds

/-- `Array.length a.avalues`. -/
def VArray.capacity (a : VArray α) : Nat := a.avalues.length

def create (values : List α) : VArray α := ⟨values, values.length⟩

def make (len : Nat) : List α := List.replicate len R.vnull

def concat (a a2 : VArray α) : Res (VArray α) := do
  let values' := make R (a.alength + a2.alength)
  let values' ← Blit.blit a.avalues 0 values' 0 a.alength
  let values' ← Blit.blit a2.avalues 0 values' a.alength a2.alength
  return create values'

def copy (a : VArray α) : Res (VArray α) := do
  return create (← Blit.sub a.avalues 0 a.alength)

def get (a : VArray α) (i : Int) : α :=
  if i < 0 ∨ i ≥ a.alength then R.vnull else a.avalues.getD i.toNat R.vnull

/-- The search of `indexOf` in the live values behind `fromIndex`. -/
def indexOf (a : VArray α) (x : α) (fromIndex : Nat) : Option Nat :=
  (((a.avalues.take a.alength).drop fromIndex).findIdx? (R.equals x)).map (· + fromIndex)

/-- The buffer with room for one more value. -/
def grown (a : VArray α) (off : Int) : Res (List α) :=
  Blit.blit a.avalues 0 (make R (a.capacity * 2 + 5)) off a.alength

/-- The buffer of `insert` and `push`. -/
def withRoom (a : VArray α) : Res (List α) :=
  if a.alength + 1 ≥ a.capacity then grown R a 0 else .ok a.avalues

/-- The buffer of `unshift`, with the values moved by one. -/
def shifted (a : VArray α) : Res (List α) :=
  if a.alength + 1 ≥ a.capacity then grown R a 1 else Blit.blit a.avalues 0 a.avalues 1 a.alength

/-- The buffer of `set`, which has an index `i`. -/
def reaching (a : VArray α) (i : Nat) : Res (List α) :=
  if i ≥ a.capacity then
    Blit.blit a.avalues 0 (make R (max (i + 5) (a.capacity * 2 + 5))) 0 a.alength
  else .ok a.avalues

def insert (a : VArray α) (pos : Int) (x : α) : Res (VArray α) := do
  let avalues ← withRoom R a
  let avalues ← Blit.blit avalues pos avalues (pos + 1) (a.alength - pos)
  let avalues ← Blit.set avalues pos x
  return ⟨avalues, a.alength + 1⟩

def pop (a : VArray α) : Res (VArray α × α) := do
  if a.alength = 0 then return (a, R.vnull)
  let v := get R a (a.alength - 1)
  let avalues ← Blit.set a.avalues (a.alength - 1) R.vnull
  return (⟨avalues, a.alength - 1⟩, v)

def push (a : VArray α) (v : α) : Res (VArray α × Nat) := do
  let avalues ← withRoom R a
  let avalues ← Blit.set avalues a.alength v
  return (⟨avalues, a.alength + 1⟩, a.alength + 1)

def remove (a : VArray α) (x : α) : Res (VArray α × Bool) := do
  match indexOf R a x 0 with
  | none => return (a, false)
  | some i =>
    let avalues ← Blit.blit a.avalues (i + 1) a.avalues i (a.alength - i - 1)
    return (⟨avalues, a.alength - 1⟩, true)

def reverse (a : VArray α) : Res (VArray α) := do
  return { a with avalues := (← Blit.sub a.avalues 0 a.alength).reverse }

/-- `set`, of an index that is not negative. -/
def set (a : VArray α) (i : Nat) (v : α) : Res (VArray α) := do
  if i ≥ a.alength then
    let avalues ← reaching R a i
    return ⟨avalues.set i v, i + 1⟩
  else return { a with avalues := a.avalues.set i v }

def shift (a : VArray α) : Res (VArray α × α) := do
  if a.alength = 0 then return (a, R.vnull)
  let v := get R a 0
  let avalues ← Blit.blit a.avalues 1 a.avalues 0 (a.alength - 1)
  return (⟨avalues, a.alength - 1⟩, v)

def slice (a : VArray α) (pos end' : Int) : Res (VArray α) := do
  if pos > a.alength ∨ pos ≥ end' then return create []
  return create (← Blit.sub a.avalues pos (end' - pos))

def sort (a : VArray α) (f : α → α → Int) : Res (VArray α) := do
  return { a with avalues := R.sort f (← Blit.sub a.avalues 0 a.alength) }

/-- `splice`: the changed array and the values taken out. -/
def splice (a : VArray α) (pos : Int) (len : Nat) (end' : Int) :
    Res (VArray α × VArray α) := do
  let values' ← (List.range len).mapM fun (i : Nat) => Blit.get a.avalues (pos + i)
  let avalues ← Blit.blit a.avalues (pos + len) a.avalues pos (a.alength - end')
  return (⟨avalues, a.alength - len⟩, create values')

def unshift (a : VArray α) (v : α) : Res (VArray α) := do
  let avalues ← shifted R a
  let avalues ← Blit.set avalues 0 v
  return ⟨avalues, a.alength + 1⟩

def resize (a : VArray α) (l : Int) : Res (VArray α) := do
  if a.alength < l then set R a (l - 1).toNat R.vnull
  else if a.alength > l then return (← splice a l (a.alength - l).toNat a.alength).1
  else return a

/-- An index from the end, if it is negative. -/
def fromEnd (length : Nat) (pos : Int) : Int :=
  let pos := if pos < 0 then length + pos else pos
  if pos < 0 then 0 else pos

namespace StdArray

def insert (this : VArray α) (pos : Int) (x : α) : Res (VArray α) := do
  if pos ≥ this.alength then return (← push R this x).1
  else EvalArray.insert R this (fromEnd this.alength pos) x

def slice (this : VArray α) (pos : Int) (end' : Option Int) : Res (VArray α) :=
  let length := this.alength
  let end' := end'.getD length
  let end' := if end' > length then (length : Int) else end'
  EvalArray.slice this (fromEnd length pos) (fromEnd length end')

def splice (this : VArray α) (pos len : Int) : Res (VArray α × VArray α) :=
  let length := this.alength
  if len < 0 ∨ pos > length then .ok (this, create [])
  else
    let pos := fromEnd length pos
    let delta := length - pos
    let len := if len > delta then delta else len
    EvalArray.splice this pos len.toNat (pos + len)

end StdArray

end Haxe.Source.Macro.EvalArray

/-!
## Arrays as sequences

What an array is for its users: a sequence. Writing behind its end and growing fill the
new positions with `null`.
-/

namespace Haxe.Source.Macro.EvalArray

open Theory

variable {α : Type} (R : Runtime α)

namespace Sequence

/-- At least `n` positions. -/
def fill (n : Nat) (l : List α) : List α := l ++ List.replicate (n - l.length) R.vnull

def get (l : List α) (i : Int) : α := if i < 0 then R.vnull else l.getD i.toNat R.vnull

def set (l : List α) (i : Nat) (v : α) : List α := (fill R (i + 1) l).set i v

/-- The elements of `l` with `x` in front of position `pos`. -/
def insert (l : List α) (pos : Int) (x : α) : List α :=
  let pos := (fromEnd l.length pos).toNat
  l.take pos ++ x :: l.drop pos

/-- Without the first element that equals `x`. -/
def remove (l : List α) (x : α) : List α := l.eraseP (R.equals x)

def slice (l : List α) (pos : Int) (end' : Option Int) : List α :=
  let pos := (fromEnd l.length pos).toNat
  let end' := (fromEnd l.length (end'.getD l.length)).toNat
  (l.take end').drop pos

/-- What is left and what is taken out. -/
def splice (l : List α) (pos len : Int) : List α × List α :=
  if len < 0 ∨ pos > l.length then (l, [])
  else
    let pos := (fromEnd l.length pos).toNat
    (l.take pos ++ l.drop (pos + len.toNat), (l.drop pos).take len.toNat)

/-- `n` elements; a negative number of them fails. -/
def resize (l : List α) (n : Int) : Except OutOfBounds (List α) :=
  if n < 0 then .error ⟨"get"⟩ else .ok ((fill R n.toNat l).take n.toNat)

end Sequence

/-- The live values of `a` are `l`. -/
structure Refines (a : VArray α) (l : List α) : Prop where
  length : a.alength = l.length
  values : ∀ i, i < l.length → a.avalues[i]? = l[i]?

namespace Refines

variable {R} {a : VArray α} {l : List α}

theorem bounded (h : Refines a l) : l.length ≤ a.avalues.length := by
  by_contra! short
  have beyond := h.values a.avalues.length short
  simp [short] at beyond

theorem live (h : Refines a l) : a.avalues.take l.length = l := by
  refine List.ext_getElem? fun i => ?_
  rw [List.getElem?_take]
  split
  · next inside => exact h.values i inside
  · next outside => exact (List.getElem?_eq_none (Nat.not_lt.mp outside)).symm

theorem create (l : List α) : Refines (create l) l := ⟨rfl, fun _ _ => rfl⟩

/-- The part of the buffer that is read. -/
theorem sub (h : Refines a l) : Blit.sub a.avalues 0 a.alength = .ok l := by
  have read := @Blit.sub_ok _ a.avalues 0 l.length (by simpa using h.bounded)
  rw [List.drop_zero, h.live] at read
  rw [h.length]
  exact read

end Refines

end Haxe.Source.Macro.EvalArray
