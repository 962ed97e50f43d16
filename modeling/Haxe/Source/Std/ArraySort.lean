import Haxe.Theory.Rotation

/-!
# Stable sorting in place

`haxe.ds.ArraySort` on the elements of an array. An index outside the array ends the run, and so
does a loop without fuel. An `Int` has 32 bits: the sum of two indices wraps. The other sums and
differences are those of lengths and of indices inside the array, which stay below its length.
-/

namespace Haxe.Source.ArraySort

variable {T : Type}

/-- An `Int` keeps the lowest 32 bits. -/
def wrap (x : Int) : Int := x.bmod 0x100000000

def read (a : List T) (i : Int) : Option T := if i < 0 then none else a[i.toNat]?

def write (a : List T) (i : Int) (x : T) : Option (List T) :=
  if 0 ≤ i ∧ i < a.length then some (a.set i.toNat x) else none

def compare (a : List T) (cmp : T → T → Int) (i j : Int) : Option Int := do
  let x ← read a i
  let y ← read a j
  return cmp x y

def swap (a : List T) (i j : Int) : Option (List T) := do
  let tmp ← read a i
  let a ← write a i (← read a j)
  write a j tmp

/-- The loop of `upper` and `lower`: `right` tells whether the search goes on behind `mid`. -/
def search (right : Int → Option Bool) (from_ len : Int) : Option Int :=
  if 0 < len then do
    let half := len >>> (1 : Nat)
    let mid := from_ + half
    if ← right mid then search right (mid + 1) (len - half - 1) else search right from_ half
  else some from_
termination_by len.toNat
decreasing_by
  all_goals
    rw [Int.shiftRight_eq_div_pow]
    omega

def upper (a : List T) (cmp : T → T → Int) (from_ to_ val : Int) : Option Int :=
  search (fun mid => do return !((← compare a cmp val mid) < 0)) from_ (to_ - from_)

def lower (a : List T) (cmp : T → T → Int) (from_ to_ val : Int) : Option Int :=
  search (fun mid => do return (← compare a cmp mid val) < 0) from_ (to_ - from_)

def gcd (m n : Int) : Int := if n = 0 then m else gcd n (m.tmod n)
termination_by n.natAbs
decreasing_by
  rw [Int.natAbs_tmod]
  exact Nat.mod_lt _ (by omega)

/-- The inner loop of `rotate`, with the place that it leaves free. -/
def cycle (start to_ shift from_ : Int) : Nat → List T → Int → Int → Option (List T × Int)
  | 0, _, _, _ => none
  | fuel + 1, a, p1, p2 =>
    if p2 ≠ start then do
      let a ← write a p1 (← read a p2)
      cycle start to_ shift from_ fuel a p2
        (if to_ - p2 > shift then p2 + shift else from_ + (shift - (to_ - p2)))
    else some (a, p1)

/-- The outer loop of `rotate`. -/
def cycles (fuel : Nat) (from_ mid to_ : Int) : Nat → List T → Option (List T)
  | 0, a => some a
  | n + 1, a => do
    let val ← read a (from_ + n)
    let shift := mid - from_
    let left ← cycle (from_ + n) to_ shift from_ fuel a (from_ + n) (from_ + n + shift)
    cycles fuel from_ mid to_ n (← write left.1 left.2 val)

def rotate (fuel : Nat) (a : List T) (from_ mid to_ : Int) : Option (List T) :=
  if from_ = mid ∨ mid = to_ then some a
  else cycles fuel from_ mid to_ (gcd (to_ - from_) (mid - from_)).toNat a

/-- Where `doMerge` cuts the two blocks. -/
structure Cuts where
  first_cut : Int
  second_cut : Int
  len11 : Int
  len22 : Int

def cuts (a : List T) (cmp : T → T → Int) (from_ pivot to_ len1 len2 : Int) : Option Cuts :=
  if len1 > len2 then do
    let len11 := len1 >>> (1 : Nat)
    let first_cut := from_ + len11
    let second_cut ← lower a cmp pivot to_ first_cut
    return ⟨first_cut, second_cut, len11, second_cut - pivot⟩
  else do
    let len22 := len2 >>> (1 : Nat)
    let second_cut := pivot + len22
    let first_cut ← upper a cmp from_ pivot second_cut
    return ⟨first_cut, second_cut, first_cut - from_, len22⟩

def doMerge (cmp : T → T → Int) :
    Nat → List T → (from_ pivot to_ len1 len2 : Int) → Option (List T)
  | 0, _, _, _, _, _, _ => none
  | fuel + 1, a, from_, pivot, to_, len1, len2 =>
    if len1 = 0 ∨ len2 = 0 then some a
    else if len1 + len2 = 2 then do
      if (← compare a cmp pivot from_) < 0 then swap a pivot from_ else some a
    else do
      let c ← cuts a cmp from_ pivot to_ len1 len2
      let a ← rotate fuel a c.first_cut pivot c.second_cut
      let new_mid := c.first_cut + c.len22
      let a ← doMerge cmp fuel a from_ c.first_cut new_mid c.len11 c.len22
      doMerge cmp fuel a new_mid c.second_cut to_ (len1 - c.len11) (len2 - c.len22)

/-- The inner loop on a short part of the array. -/
def sink (cmp : T → T → Int) (from_ : Int) (a : List T) (j : Int) : Option (List T) :=
  if j > from_ then do
    if (← compare a cmp j (j - 1)) < 0 then sink cmp from_ (← swap a (j - 1) j) (j - 1)
    else some a
  else some a
termination_by (j - from_).toNat
decreasing_by omega

/-- The outer loop on a short part of the array. -/
def insertion (cmp : T → T → Int) (from_ to_ : Int) (a : List T) (i : Int) : Option (List T) :=
  if i < to_ then do
    insertion cmp from_ to_ (← sink cmp from_ a i) (i + 1)
  else some a
termination_by (to_ - i).toNat
decreasing_by omega

/-- `rec` -/
def sortPart (cmp : T → T → Int) : Nat → List T → (from_ to_ : Int) → Option (List T)
  | 0, _, _, _ => none
  | fuel + 1, a, from_, to_ =>
    let middle := wrap (from_ + to_) >>> (1 : Nat)
    if wrap (to_ - from_) < 12 then
      if to_ ≤ from_ then some a else insertion cmp from_ to_ a (from_ + 1)
    else do
      let a ← sortPart cmp fuel a from_ middle
      let a ← sortPart cmp fuel a middle to_
      doMerge cmp fuel a from_ middle to_ (middle - from_) (to_ - middle)

/-- `sort`, each loop with some fuel. -/
def sort (fuel : Nat) (a : List T) (cmp : T → T → Int) : Option (List T) :=
  sortPart cmp fuel a 0 a.length

end Haxe.Source.ArraySort

/-!
## The rotation of `ArraySort`

`rotate` exchanges two adjacent blocks, each of its cycles following the steps of a rotation.
-/

namespace Haxe.Source.ArraySort

open Theory.Rotation

variable {T : Type}

theorem read_natCast (a : List T) (n : Nat) : read a n = a[n]? := by
  unfold read
  rw [if_neg (by omega), Int.toNat_natCast]

theorem read_block (pre post : List T) {block : List T} {q : Nat} (bound : q < block.length)
    {i : Int} (at_ : i = pre.length + q) : read (pre ++ block ++ post) i = block[q]? := by
  have natural : i = ((pre.length + q : Nat) : Int) := by omega
  rw [natural, read_natCast, List.append_assoc, List.getElem?_append_right (by omega),
    Nat.add_sub_cancel_left, List.getElem?_append_left bound]

theorem write_block (pre post : List T) {block : List T} {q : Nat} (bound : q < block.length)
    {i : Int} (at_ : i = pre.length + q) (x : T) :
    write (pre ++ block ++ post) i x = some (pre ++ block.set q x ++ post) := by
  have inside : 0 ≤ i ∧ i < (pre ++ block ++ post).length := by
    rw [List.length_append, List.length_append]
    omega
  have natural : i.toNat = pre.length + q := by omega
  unfold write
  rw [if_pos inside, natural, List.append_assoc, List.set_append_right _ _ (by omega),
    Nat.add_sub_cancel_left, List.set_append_left _ _ bound, List.append_assoc]

theorem gcd_natCast (m n : Nat) : gcd m n = Nat.gcd m n := by
  induction n using Nat.strong_induction_on generalizing m with
  | _ n ih =>
    rw [gcd]
    by_cases zero : n = 0
    · rw [if_pos (by omega), zero, Nat.gcd_zero_right]
    · rw [if_neg (by omega), ← Int.ofNat_tmod, ih _ (Nat.mod_lt _ (by omega)), Nat.gcd_comm m n,
        Nat.gcd_rec n m, Nat.gcd_comm]

section

variable {L k g n : Nat} {pre post block now : List T}

theorem offset_lt {c : Nat} (residue : n < g) (bound : c < L) : n + g * c < L * g := by
  calc n + g * c < g + g * c := by omega
    _ = g * (c + 1) := by rw [Nat.mul_succ, Nat.add_comm]
    _ ≤ g * L := Nat.mul_le_mul_left g bound
    _ = L * g := Nat.mul_comm g L

/-- The next place of the source is the next place of the cycle. -/
theorem next_place (residue : n < g) (less : k < L) (t : Nat) {p2 : Int}
    (at_ : p2 = pre.length + (n + g * place L k t : Nat)) :
    (if (pre.length + (L * g : Nat) : Int) - p2 > (k * g : Nat) then p2 + (k * g : Nat)
      else (pre.length : Int) + ((k * g : Nat) - (pre.length + (L * g : Nat) - p2))) =
      pre.length + (n + g * place L k (t + 1) : Nat) := by
  have bound := @place_lt L k (by omega) t
  have sum : g * (place L k t + k) = g * place L k t + k * g := by
    rw [Nat.mul_add, Nat.mul_comm k g]
  rw [at_, place_succ]
  by_cases inside : place L k t + k < L
  · have := @offset_lt L g n _ residue inside
    rw [Nat.mod_eq_of_lt inside, if_pos (by omega)]
    omega
  · have back : g * (place L k t + k - L) + L * g = g * (place L k t + k) := by
      rw [Nat.mul_comm L g, ← Nat.mul_add]
      congr 1
      omega
    rw [Nat.mod_eq_sub_mod (by omega), Nat.mod_eq_of_lt (by omega), if_neg (by omega)]
    omega

/-- The inner loop leaves the last place of its cycle free. -/
theorem cycle_ok (coprime : L.Coprime k) (less : k < L) (residue : n < g)
    (size : block.length = L * g) {fuel t : Nat} (round : t < L) (enough : L ≤ t + fuel)
    (follows : Follows (k * g) (Reached L k g n t) block now) {p1 p2 : Int}
    (p1_is : p1 = pre.length + (n + g * place L k t : Nat))
    (p2_is : p2 = pre.length + (n + g * place L k (t + 1) : Nat)) :
    ∃ now', cycle (pre.length + n) (pre.length + (L * g : Nat)) (k * g : Nat) pre.length fuel
        (pre ++ now ++ post) p1 p2 =
          some (pre ++ now' ++ post, (pre.length : Int) + (n + g * place L k (L - 1) : Nat)) ∧
      Follows (k * g) (Reached L k g n (L - 1)) block now' := by
  induction fuel generalizing t now p1 p2 with
  | zero => omega
  | succ fuel ih =>
    rw [cycle]
    by_cases back : place L k (t + 1) = 0
    · -- the cycle is closed, so it has made all its steps
      have divides := (place_eq_zero_iff coprime _).mp back
      have := Nat.le_of_dvd (by omega) divides
      have last : t = L - 1 := by omega
      rw [back, Nat.mul_zero] at p2_is
      rw [if_neg (by omega), p1_is, last]
      exact ⟨now, rfl, last ▸ follows⟩
    · have notLast : t + 1 < L := by
        by_contra last
        have whole : t + 1 = L := by omega
        exact back ((place_eq_zero_iff coprime _).mpr (Dvd.intro 1 (by omega)))
      have bound := @place_lt L k (by omega) t
      have bound' := @place_lt L k (by omega) (t + 1)
      have inside := @offset_lt L g n _ residue bound
      have inside' := @offset_lt L g n _ residue bound'
      have positive : 0 < g * place L k (t + 1) := Nat.mul_pos (by omega) (by omega)
      rw [if_pos (by omega), read_block pre post (by rw [follows.length_eq]; omega) p2_is]
      have fresh : ¬Reached L k g n t (n + g * place L k (t + 1)) := by
        intro reached
        exact Reached.fresh coprime residue notLast ((Reached.step n t _).mpr (.inl reached))
      rw [follows.kept_eq _ (by omega) fresh]
      obtain ⟨x, element⟩ : ∃ x, block[n + g * place L k (t + 1)]? = some x :=
        ⟨_, List.getElem?_eq_getElem (by omega)⟩
      have target : block[(n + g * place L k t + k * g) % block.length]? = some x := by
        rw [size, step_offset residue, ← place_succ, element]
      have moved := follows.set (by omega) target (Reached.step n t)
      rw [element]
      dsimp only [Bind.bind, Option.bind]
      rw [write_block pre post (by rw [follows.length_eq]; omega) p1_is]
      dsimp only
      exact ih notLast (by omega) moved p2_is (next_place residue less (t + 1) p2_is)

/-- The outer loop moves the places of one residue after another. -/
theorem cycles_ok (coprime : L.Coprime k) (less : k < L) (size : block.length = L * g)
    {fuel : Nat} (enough : L ≤ fuel) (most : n ≤ g)
    (follows : Follows (k * g) (fun q => n ≤ q % g) block now) :
    cycles fuel pre.length (pre.length + (k * g : Nat)) (pre.length + (L * g : Nat)) n
      (pre ++ now ++ post) = some (pre ++ block.rotate (k * g) ++ post) := by
  induction n generalizing now with
  | zero =>
    rw [cycles, follows.rotated (fun q _ => Nat.zero_le _)]
  | succ n ih =>
    have inside : n + g * 0 < L * g := offset_lt (by omega) (by omega)
    rw [cycles, read_block pre post (by rw [follows.length_eq]; omega) rfl,
      follows.kept_eq n (by omega) (by rw [Nat.mod_eq_of_lt (by omega)]; omega)]
    obtain ⟨x, element⟩ : ∃ x, block[n]? = some x := ⟨_, List.getElem?_eq_getElem (by omega)⟩
    have shift : (pre.length : Int) + (k * g : Nat) - pre.length = (k * g : Nat) := by omega
    have started : Follows (k * g) (Reached L k g n 0) block now :=
      follows.congr fun q _ => Reached.none
    have first : place L k 1 = k := by
      unfold place
      rw [Nat.one_mul, Nat.mod_eq_of_lt less]
    obtain ⟨now', done, follows'⟩ := @cycle_ok T L k g n pre post block now coprime less (by omega)
      size fuel 0 (by omega) (by omega) started (pre.length + n) (pre.length + n + (k * g : Nat))
      (by rw [place_zero, Nat.mul_zero]; omega)
      (by rw [first, Nat.mul_comm g k]; omega)
    have bound := @place_lt L k (by omega) (L - 1)
    have last := @offset_lt L g n _ (by omega) bound
    have target : block[(n + g * place L k (L - 1) + k * g) % block.length]? = some x := by
      have whole : place L k (L - 1 + 1) = 0 :=
        (place_eq_zero_iff coprime _).mpr (Dvd.intro 1 (by omega))
      rw [size, step_offset (by omega), ← place_succ, whole, Nat.mul_zero, Nat.add_zero, element]
    have moved := follows'.set (by omega) target (Reached.step n (L - 1))
    rw [element]
    dsimp only [Bind.bind, Option.bind]
    rw [shift, done]
    dsimp only
    rw [write_block pre post (by rw [follows'.length_eq]; omega) rfl]
    dsimp only
    apply ih (by omega)
    apply moved.congr
    intro q inside'
    have count : L - 1 + 1 = L := by omega
    rw [count, Reached.whole coprime (by omega) (by omega)]

end

/-- `rotate` exchanges two adjacent blocks. -/
theorem rotate_ok (pre post front back : List T) {fuel : Nat}
    (enough : front.length + back.length ≤ fuel) :
    rotate fuel (pre ++ front ++ back ++ post) pre.length (pre.length + front.length)
      (pre.length + front.length + back.length) = some (pre ++ back ++ front ++ post) := by
  unfold rotate
  by_cases empty : front = [] ∨ back = []
  · rcases empty with rfl | rfl
    · rw [if_pos (.inl (by simp))]
      simp
    · rw [if_pos (.inr (by simp))]
      simp
  · rw [not_or] at empty
    have frontPos := List.length_pos_iff.mpr empty.1
    have backPos := List.length_pos_iff.mpr empty.2
    rw [if_neg (by omega)]
    have size' : (pre.length : Int) + front.length + back.length - pre.length =
        (front.length + back.length : Nat) := by omega
    have mid : (pre.length : Int) + front.length - pre.length = front.length := by omega
    rw [size', mid, gcd_natCast, Int.toNat_natCast]
    have positive : 0 < Nat.gcd (front.length + back.length) front.length :=
      Nat.gcd_pos_of_pos_right _ frontPos
    have coprime := Nat.coprime_div_gcd_div_gcd positive
    have wholeIs := Nat.div_mul_cancel (Nat.gcd_dvd_left (front.length + back.length) front.length)
    have shiftIs := Nat.div_mul_cancel
      (Nat.gcd_dvd_right (front.length + back.length) front.length)
    generalize Nat.gcd (front.length + back.length) front.length = g at *
    generalize (front.length + back.length) / g = L at *
    generalize front.length / g = k at *
    have less : k < L := by
      by_contra reached
      have := Nat.mul_le_mul_right g (by omega : L ≤ k)
      omega
    have most : L ≤ L * g := Nat.le_mul_of_pos_right _ positive
    have size : (front ++ back).length = L * g := by
      rw [List.length_append, wholeIs]
    have rotated := @cycles_ok T L k g g pre post (front ++ back) (front ++ back) coprime less size
      fuel (by omega) (by omega)
      (Follows.start fun q _ above => by
        have := Nat.mod_lt q positive
        omega)
    have to' : (pre.length : Int) + front.length + back.length = pre.length + (L * g : Nat) := by
      omega
    rw [shiftIs, List.rotate_append_length_eq, ← to', ← List.append_assoc,
      ← List.append_assoc] at rotated
    exact rotated

end Haxe.Source.ArraySort
