import Haxe.Theory.LinkedChains
import Haxe.Theory.MergedRuns

/-!
# Sorting linked lists

`haxe.ds.ListSort`: merges from the bottom up that move the pointers of the nodes. The nodes are
the elements, and their fields are functions of them. `none` is the dereferencing of null, or fuel
that is used up.
-/

namespace Haxe.Source.ListSort

section

variable {T : Type}

/-- The variables of a pass with the fields of the nodes; `e` is local to the loop. -/
structure Cursors (T : Type) where
  next : T → Option T
  prev : T → Option T
  list : Option T
  tail : Option T
  p : Option T
  q : Option T
  psize : Nat
  qsize : Nat

/-- The loop that moves `q` behind the first run, with `psize` and `q` at its end. -/
def advance (next : T → Option T) : Nat → Nat → Option T → Option (Nat × Option T)
  | 0, psize, q => some (psize, q)
  | insize + 1, psize, q =>
    match q with
    | none => none
    | some node =>
      match next node with
      | none => some (psize + 1, none)
      | some node' => advance next insize (psize + 1) (some node')

variable [DecidableEq T]

/-- The node is put behind the tail. A list that is linked in one direction has no `prev`. -/
def Cursors.link (double : Bool) (s : Cursors T) (e : T) : Cursors T :=
  { s with
    next := match s.tail with
      | some tail => Function.update s.next tail (some e)
      | none => s.next
    list := match s.tail with
      | some _ => s.list
      | none => some e
    prev := if double then Function.update s.prev e s.tail else s.prev
    tail := some e }

def Cursors.fromP (double : Bool) (s : Cursors T) (e : T) : Cursors T :=
  { s with p := s.next e, psize := s.psize - 1 }.link double e

def Cursors.fromQ (double : Bool) (s : Cursors T) (e : T) : Cursors T :=
  { s with q := s.next e, qsize := s.qsize - 1 }.link double e

@[simp] theorem Cursors.fromP_psize (double : Bool) (s : Cursors T) (e : T) :
    (s.fromP double e).psize = s.psize - 1 := rfl

@[simp] theorem Cursors.fromP_qsize (double : Bool) (s : Cursors T) (e : T) :
    (s.fromP double e).qsize = s.qsize := rfl

@[simp] theorem Cursors.fromQ_psize (double : Bool) (s : Cursors T) (e : T) :
    (s.fromQ double e).psize = s.psize := rfl

@[simp] theorem Cursors.fromQ_qsize (double : Bool) (s : Cursors T) (e : T) :
    (s.fromQ double e).qsize = s.qsize - 1 := rfl

/-- The loop that merges two runs. -/
@[grind =] def mergeLoop (cmp : T → T → Int) (double : Bool) (s : Cursors T) : Option (Cursors T) :=
  if s.psize > 0 ∨ s.qsize > 0 ∧ s.q ≠ none then
    if s.psize = 0 then
      match s.q with
      | none => none
      | some e => mergeLoop cmp double (s.fromQ double e)
    else
      match s.p, s.q with
      | none, _ => none
      | some e, none => mergeLoop cmp double (s.fromP double e)
      | some p, some q =>
        if s.qsize = 0 ∨ cmp p q ≤ 0 then mergeLoop cmp double (s.fromP double p)
        else mergeLoop cmp double (s.fromQ double q)
  else some s
termination_by s.psize + s.qsize
decreasing_by all_goals
  simp
  omega

/-- The loop of a pass, with the number of its merges. -/
def passLoop (cmp : T → T → Int) (double : Bool) (insize : Nat) :
    Nat → Nat → Cursors T → Option (Nat × Cursors T)
  | 0, _, _ => none
  | fuel + 1, nmerges, s =>
    match s.p with
    | none => some (nmerges, s)
    | some p => do
      let (psize, q) ← advance s.next insize 0 (some p)
      let s ← mergeLoop cmp double { s with psize := psize, q := q, qsize := insize }
      passLoop cmp double insize fuel (nmerges + 1) { s with p := s.q }

/-- The loop over the passes, with the fields, the head and the tail at its end. -/
def sortLoop (cmp : T → T → Int) (double : Bool) (passFuel : Nat) :
    Nat → Nat → Cursors T → Option (Cursors T)
  | 0, _, _ => none
  | fuel + 1, insize, s => do
    let (nmerges, s) ← passLoop cmp double insize passFuel 0
      { s with p := s.list, list := none, tail := none }
    let tail ← s.tail
    let s := { s with next := Function.update s.next tail none }
    if nmerges ≤ 1 then some s else sortLoop cmp double passFuel fuel (insize * 2) s

/-- The result of a sort: the head and the fields of the nodes. -/
structure Sorted (T : Type) where
  head : Option T
  next : T → Option T
  prev : T → Option T

def sort (fuel : Nat) (cmp : T → T → Int) (next prev : T → Option T) (list : Option T) :
    Option (Sorted T) :=
  match list with
  | none => some ⟨none, next, prev⟩
  | some _ => do
    let s ← sortLoop cmp true fuel fuel 1 ⟨next, prev, list, none, none, none, 0, 0⟩
    let head ← s.list
    return ⟨s.list, s.next, Function.update s.prev head s.tail⟩

/-- The nodes have no `prev`: it is not written, and what is passed for it does not matter. -/
def sortSingleLinked (fuel : Nat) (cmp : T → T → Int) (next : T → Option T) (list : Option T) :
    Option (Option T × (T → Option T)) :=
  match list with
  | none => some (none, next)
  | some _ => do
    let s ← sortLoop cmp false fuel fuel 1 ⟨next, fun _ => none, list, none, none, none, 0, 0⟩
    return (s.list, s.next)

end

end Haxe.Source.ListSort
