import Mathlib.Data.List.Basic

/-!
# Arrays of fixed size

An array is a list that is never resized; an operation outside its bounds fails. `blit`
copies a part of one array into another, which may be the same: the part is read before it
is written.
-/

namespace Haxe.Theory

variable {α : Type*}

/-- An access outside the bounds of an array, by the operation that made it. -/
structure OutOfBounds where
  operation : String
  deriving DecidableEq, Repr

namespace Blit

@[grind =] def get (a : List α) (i : Int) : Except OutOfBounds α :=
  if 0 ≤ i then
    match a[i.toNat]? with
    | some v => .ok v
    | none => .error ⟨"get"⟩
  else .error ⟨"get"⟩

def set (a : List α) (i : Int) (v : α) : Except OutOfBounds (List α) :=
  if 0 ≤ i ∧ i < a.length then .ok (a.set i.toNat v) else .error ⟨"set"⟩

def sub (a : List α) (pos len : Int) : Except OutOfBounds (List α) :=
  if 0 ≤ pos ∧ 0 ≤ len ∧ pos + len ≤ a.length then .ok ((a.drop pos.toNat).take len.toNat)
  else .error ⟨"sub"⟩

def blit (src : List α) (start : Int) (dst : List α) (off : Int) (len : Int) :
    Except OutOfBounds (List α) :=
  if 0 ≤ len ∧ 0 ≤ start ∧ start + len ≤ src.length ∧ 0 ≤ off ∧ off + len ≤ dst.length then
    .ok (dst.take off.toNat ++ ((src.drop start.toNat).take len.toNat ++ dst.drop (off + len).toNat))
  else .error ⟨"blit"⟩

theorem get_ok {a : List α} {i : Nat} {v : α} (h : a[i]? = some v) : get a i = .ok v := by
  simp [get, h]

theorem set_ok {a : List α} {i : Nat} (h : i < a.length) (v : α) :
    set a i v = .ok (a.set i v) := by
  have inside : (0 : Int) ≤ i ∧ (i : Int) < a.length := by omega
  simp [set, inside]

theorem sub_ok {a : List α} {pos len : Nat} (h : pos + len ≤ a.length) :
    sub a pos len = .ok ((a.drop pos).take len) := by
  have inside : (0 : Int) ≤ pos ∧ (0 : Int) ≤ len ∧ (pos : Int) + len ≤ a.length := by omega
  simp [sub, inside]

/-- What `blit` leaves at every index. -/
theorem blit_ok {src dst : List α} {start off len : Nat} (inside : start + len ≤ src.length)
    (room : off + len ≤ dst.length) :
    ∃ r, blit src start dst off len = .ok r ∧ r.length = dst.length ∧
      ∀ i, r[i]? = if off ≤ i ∧ i < off + len then src[start + (i - off)]? else dst[i]? := by
  have bounds : (0 : Int) ≤ len ∧ (0 : Int) ≤ start ∧ (start : Int) + len ≤ src.length ∧
      (0 : Int) ≤ off ∧ (off : Int) + len ≤ dst.length := by omega
  refine ⟨dst.take off ++ ((src.drop start).take len ++ dst.drop (off + len)), ?_, ?_, fun i => ?_⟩
  · unfold blit
    rw [if_pos bounds]
    simp only [Int.toNat_natCast]
    rw [show ((off : Int) + len).toNat = off + len by omega]
  · simp only [List.length_append, List.length_take, List.length_drop]
    omega
  · simp only [List.getElem?_append, List.length_take, List.length_drop, List.getElem?_take,
      List.getElem?_drop]
    rw [show min off dst.length = off by omega, show min len (src.length - start) = len by omega]
    by_cases before : i < off
    · simp [before, Nat.not_le.mpr before]
    · by_cases copied : i < off + len
      · have shifted : i - off < len := by omega
        simp [before, copied, shifted, Nat.not_lt.mp before]
      · have beyond : ¬ i - off < len := by omega
        have same : off + len + (i - off - len) = i := by omega
        simp [before, copied, beyond, same]

end Blit

end Haxe.Theory
