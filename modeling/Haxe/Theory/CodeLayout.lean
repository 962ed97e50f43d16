import Mathlib.Algebra.Ring.Int.Defs
import Mathlib.Algebra.BigOperators.Group.List.Basic
import Mathlib.Tactic.Linarith
import Mathlib.Tactic.Positivity
import Mathlib.Tactic.Ring

/-!
# Instructions laid out in an array of bytes

The addresses of instructions that follow one another, and the numbers inside of them. A number
is big-endian and in two's complement.
-/

namespace Haxe.Theory.CodeLayout

/-- The lowest bytes of a number, the highest of them first. -/
@[grind =] def bytes : Nat → Int → List Nat
  | 0, _ => []
  | width + 1, i => (i / 256 ^ width % 256).toNat :: bytes width i

/-- The number that bytes stand for without a sign, behind what is read already. -/
def unsigned (read : Nat) (bs : List Nat) : Nat := bs.foldl (fun n b => n * 256 + b) read

def signed (bs : List Nat) : Int := (unsigned 0 bs : Int).bmod (256 ^ bs.length)

/-- The number at a position. -/
def readSigned (code : List Nat) (position width : Nat) : Int :=
  signed ((code.drop position).take width)

/-- The number can be told from its lowest bytes. -/
def Fits (width : Nat) (i : Int) : Prop := -256 ^ width ≤ 2 * i ∧ 2 * i < 256 ^ width

instance (width : Nat) (i : Int) : Decidable (Fits width i) := instDecidableAnd

@[simp] theorem length_bytes (width : Nat) (i : Int) : (bytes width i).length = width := by
  induction width with
  | zero => rfl
  | succ width ih => simp [bytes, ih]

theorem emod_pow_succ (i : Int) (width : Nat) :
    i % 256 ^ (width + 1) = i / 256 ^ width % 256 * 256 ^ width + i % 256 ^ width := by
  have quotient : i / (256 ^ width * 256) = i / 256 ^ width / 256 :=
    (Int.ediv_ediv_of_nonneg (by positivity)).symm
  rw [pow_succ, Int.emod_def i (256 ^ width * 256), quotient, Int.emod_def (i / 256 ^ width),
    Int.emod_def i (256 ^ width)]
  ring

theorem unsigned_bytes (width : Nat) (i : Int) (read : Nat) :
    (unsigned read (bytes width i) : Int) = read * 256 ^ width + i % 256 ^ width := by
  induction width generalizing read with
  | zero => simp [unsigned, bytes, Int.emod_one]
  | succ width ih =>
    have digit : ((i / 256 ^ width % 256).toNat : Int) = i / 256 ^ width % 256 :=
      Int.toNat_of_nonneg (Int.emod_nonneg _ (by decide))
    change (unsigned (read * 256 + _) (bytes width i) : Int) = _
    rw [ih]
    push_cast
    rw [digit, emod_pow_succ]
    ring

theorem signed_bytes (width : Nat) (i : Int) :
    signed (bytes width i) = i.bmod (256 ^ width) := by
  have reduced := Int.emod_bmod i (256 ^ width)
  push_cast at reduced
  unfold signed
  rw [unsigned_bytes, length_bytes]
  simpa using reduced

/-- A distance leads to its target from the address only if it was measured from there and can
be told from its bytes. -/
theorem lands_iff {width : Nat} {address origin : Nat} {target : Int} (positive : 0 < width)
    (near : address < 256 ^ width) (originNear : origin < 256 ^ width) :
    signed (bytes width (target - origin)) + address = target ↔
      origin = address ∧ Fits width (target - address) := by
  have even : ((256 ^ width : Nat) : Int) % 2 = 0 := by
    obtain ⟨width, rfl⟩ := Nat.exists_eq_succ_of_ne_zero positive.ne'
    rw [pow_succ]
    omega
  have power : ((256 ^ width : Nat) : Int) = 256 ^ width := by push_cast; rfl
  rw [signed_bytes]
  unfold Fits
  rw [← power]
  generalize 256 ^ width = modulus at *
  have moduli : 0 < modulus := by omega
  constructor
  · intro lands
    have equal : (target - origin).bmod modulus = target - address := by omega
    rw [Int.bmod_eq_iff moduli] at equal
    obtain ⟨low, high, k, distance⟩ := equal
    have same : origin = address := by
      have product : (modulus : Int) * k = origin - address := by omega
      have bounds : -(modulus : Int) < modulus * k ∧ (modulus : Int) * k < modulus := by omega
      have zero : k = 0 := by
        by_contra apart
        rcases lt_or_gt_of_ne apart with less | more
        · nlinarith [bounds.1]
        · nlinarith [bounds.2]
      rw [zero] at product
      omega
    exact ⟨same, by omega, by omega⟩
  · rintro ⟨rfl, low, high⟩
    have equal : (target - origin).bmod modulus = target - origin := by
      rw [Int.bmod_eq_iff moduli]
      exact ⟨by omega, by omega, by simp⟩
    omega

section Layout

variable {α : Type} {size : α → Nat}

/-- An instruction and its address. -/
def Stands (size : α → Nat) (ops : List α) (address : Nat) (o : α) : Prop :=
  ∃ earlier later, ops = earlier ++ o :: later ∧ address = (earlier.map size).sum

theorem not_stands_nil (address : Nat) (o : α) : ¬Stands size [] address o := by
  rintro ⟨earlier, later, split, -⟩
  simp at split

/-- A new instruction stands behind all the others. -/
theorem stands_concat {ops : List α} {last o : α} {address : Nat} :
    Stands size (ops ++ [last]) address o ↔
      Stands size ops address o ∨ (o = last ∧ address = (ops.map size).sum) := by
  constructor
  · rintro ⟨earlier, later, split, rfl⟩
    rcases List.eq_nil_or_concat later with rfl | ⟨others, final, rfl⟩
    · obtain ⟨rfl, same⟩ := List.append_inj' split rfl
      simp only [List.cons.injEq, and_true] at same
      exact .inr ⟨same.symm, rfl⟩
    · have shifted : ops ++ [last] = (earlier ++ o :: others) ++ [final] := by
        rw [split, List.concat_eq_append]
        simp
      exact .inl ⟨earlier, others, (List.append_inj' shifted rfl).1, rfl⟩
  · rintro (⟨earlier, later, rfl, rfl⟩ | ⟨rfl, rfl⟩)
    · exact ⟨earlier, later ++ [last], by simp, rfl⟩
    · exact ⟨ops, [], rfl, rfl⟩

theorem Stands.le {ops : List α} {o : α} {address : Nat} (stands : Stands size ops address o) :
    address + size o ≤ (ops.map size).sum := by
  obtain ⟨earlier, later, rfl, rfl⟩ := stands
  simp only [List.map_append, List.map_cons, List.sum_append, List.sum_cons]
  omega

theorem length_emitted {emit : α → List Nat} (counts : ∀ o, (emit o).length = size o)
    (ops : List α) : (ops.flatMap emit).length = (ops.map size).sum := by
  rw [List.length_flatMap, funext counts]

/-- What is read inside of an instruction is the number that was written there. -/
theorem Stands.read {emit : α → List Nat} (counts : ∀ o, (emit o).length = size o)
    {ops : List α} {o : α} {address : Nat} (stands : Stands size ops address o)
    {front back : List Nat} {width : Nat} {i : Int}
    (written : emit o = front ++ bytes width i ++ back) :
    readSigned (ops.flatMap emit) (address + front.length) width = signed (bytes width i) := by
  obtain ⟨earlier, later, rfl, rfl⟩ := stands
  have parts : (earlier ++ o :: later).flatMap emit =
      (earlier.flatMap emit ++ front) ++ (bytes width i ++ (back ++ later.flatMap emit)) := by
    simp [written]
  have position :
      (earlier.map size).sum + front.length = (earlier.flatMap emit ++ front).length := by
    rw [List.length_append, length_emitted counts]
  unfold readSigned
  rw [parts, position, List.drop_left, List.take_left' (length_bytes width i)]

/-- An entry of a table all of whose entries have one length. -/
theorem flatMap_entry {emit : α → List Nat} {n : Nat} (counts : ∀ o, (emit o).length = n)
    {ops : List α} {k : Nat} {o : α} (entry : ops[k]? = some o) :
    ∃ front back, ops.flatMap emit = front ++ emit o ++ back ∧ front.length = n * k := by
  obtain ⟨short, rfl⟩ := List.getElem?_eq_some_iff.mp entry
  refine ⟨(ops.take k).flatMap emit, (ops.drop (k + 1)).flatMap emit, ?_, ?_⟩
  · rw [List.append_assoc, ← List.flatMap_cons, ← List.flatMap_append]
    simp
  · rw [@length_emitted _ (fun _ => n) _ counts]
    simp [Nat.min_eq_left short.le, Nat.mul_comm]

theorem map_mapIdx {β γ : Type} {f : Nat → α → β} {g : β → γ} {h : α → γ}
    (same : ∀ k a, g (f k a) = h a) (l : List α) : (l.mapIdx f).map g = l.map h := by
  apply List.ext_getElem?
  intro k
  simp [same, Function.comp_def]

end Layout

end Haxe.Theory.CodeLayout
