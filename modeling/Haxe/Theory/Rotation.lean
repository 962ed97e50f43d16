import Mathlib.Data.Int.GCD
import Mathlib.Data.List.Rotate

/-!
# Rotation along cycles

A block of `L * g` places is rotated by `k * g` places, one cycle after another. Cycle `n < g`
goes through the places `n + g * c`, and since `L` and `k` are coprime it meets every one.
-/

namespace Haxe.Theory.Rotation

variable {L k g : Nat}

/-- Where `i` steps by `k` lead on a circle of `L` places. -/
def place (L k i : Nat) : Nat := i * k % L

theorem place_lt (positive : 0 < L) (i : Nat) : place L k i < L := Nat.mod_lt _ positive

theorem place_zero : place L k 0 = 0 := by
  unfold place
  rw [Nat.zero_mul, Nat.zero_mod]

theorem place_succ (i : Nat) : place L k (i + 1) = (place L k i + k) % L := by
  unfold place
  rw [Nat.succ_mul, Nat.mod_add_mod]

theorem place_eq_zero_iff (coprime : L.Coprime k) (i : Nat) : place L k i = 0 ↔ L ∣ i := by
  unfold place
  rw [← Nat.dvd_iff_mod_eq_zero]
  exact ⟨coprime.dvd_of_dvd_mul_right, fun divides => Dvd.dvd.mul_right divides k⟩

/-- A cycle does not meet a place twice. -/
theorem place_inj (coprime : L.Coprime k) {i j : Nat} (before : i < j) (round : j < L) :
    place L k i ≠ place L k j := by
  intro same
  have divides : L ∣ j * k - i * k :=
    Nat.dvd_of_mod_eq_zero (Nat.sub_mod_eq_zero_of_mod_eq same.symm)
  rw [← Nat.sub_mul] at divides
  have := Nat.le_of_dvd (by omega) (coprime.dvd_of_dvd_mul_right divides)
  omega

/-- A cycle meets every place. -/
theorem place_surj (coprime : L.Coprime k) {c : Nat} (bound : c < L) :
    ∃ i, i < L ∧ place L k i = c := by
  by_cases one : L = 1
  · exact ⟨0, by omega, by rw [place_zero]; omega⟩
  · obtain ⟨m, -, inverse⟩ := Nat.exists_mul_mod_eq_one_of_coprime coprime.symm (by omega : 1 < L)
    refine ⟨m * c % L, Nat.mod_lt _ (by omega), ?_⟩
    unfold place
    calc m * c % L * k % L = k * m * c % L := by
          rw [Nat.mod_mul_mod, Nat.mul_right_comm, Nat.mul_comm m k]
      _ = c := by rw [← Nat.mod_mul_mod, inverse, Nat.one_mul, Nat.mod_eq_of_lt bound]

/-- A step of a cycle, inside the block. -/
theorem step_offset {n c : Nat} (residue : n < g) :
    (n + g * c + k * g) % (L * g) = n + g * ((c + k) % L) := by
  have sum : n + g * c + k * g = n + g * (c + k) := by
    rw [Nat.mul_add, Nat.mul_comm k g, Nat.add_assoc]
  rw [sum, Nat.mul_comm L g, Nat.mod_mul, Nat.add_mul_mod_self_left, Nat.mod_eq_of_lt residue,
    Nat.add_mul_div_left _ _ (by omega), Nat.div_eq_of_lt residue, Nat.zero_add]

variable {T : Type}

/-- The second list is the first with the elements of some places already moved. -/
structure Follows (shift : Nat) (moved : Nat → Prop) (block now : List T) : Prop where
  length_eq : now.length = block.length
  moved_eq : ∀ q < block.length, moved q → now[q]? = block[(q + shift) % block.length]?
  kept_eq : ∀ q < block.length, ¬moved q → now[q]? = block[q]?

variable {shift : Nat} {moved moved' : Nat → Prop} {block now : List T}

theorem Follows.start (none_moved : ∀ q < block.length, ¬moved q) :
    Follows shift moved block block :=
  ⟨rfl, fun q bound yes => absurd yes (none_moved q bound), fun _ _ _ => rfl⟩

theorem Follows.set (follows : Follows shift moved block now) {q : Nat} (bound : q < block.length)
    {x : T} (element : block[(q + shift) % block.length]? = some x)
    (more : ∀ q', moved' q' ↔ moved q' ∨ q' = q) : Follows shift moved' block (now.set q x) where
  length_eq := (List.length_set ..).trans follows.length_eq
  moved_eq := by
    intro q' bound' yes
    rw [List.getElem?_set, follows.length_eq]
    by_cases same : q = q'
    · rw [if_pos same, if_pos bound, ← same, element]
    · rw [if_neg same]
      exact follows.moved_eq q' bound' (((more q').mp yes).resolve_right (Ne.symm same))
  kept_eq := by
    intro q' bound' no
    rw [more, not_or] at no
    rw [List.getElem?_set, if_neg (Ne.symm no.2)]
    exact follows.kept_eq q' bound' no.1

theorem Follows.congr (follows : Follows shift moved block now)
    (same : ∀ q < block.length, moved' q ↔ moved q) : Follows shift moved' block now where
  length_eq := follows.length_eq
  moved_eq q bound yes := follows.moved_eq q bound ((same q bound).mp yes)
  kept_eq q bound no := follows.kept_eq q bound (mt (same q bound).mpr no)

theorem Follows.rotated (follows : Follows shift moved block now)
    (all : ∀ q < block.length, moved q) : now = block.rotate shift := by
  apply List.ext_getElem?
  intro q
  by_cases bound : q < block.length
  · rw [follows.moved_eq q bound (all q bound), List.getElem?_rotate bound]
  · rw [List.getElem?_eq_none (by rw [follows.length_eq]; omega),
      List.getElem?_eq_none (by rw [List.length_rotate]; omega)]

/-- The places that are moved when cycle `n` has made `t` steps and those above are done. -/
def Reached (L k g n t : Nat) (q : Nat) : Prop :=
  n < q % g ∨ ∃ i, i < t ∧ q = n + g * place L k i

theorem offset_mod {n c : Nat} (residue : n < g) : (n + g * c) % g = n := by
  rw [Nat.add_mul_mod_self_left, Nat.mod_eq_of_lt residue]

theorem offset_inj {n c c' : Nat} (residue : n < g) (same : n + g * c = n + g * c') : c = c' :=
  Nat.eq_of_mul_eq_mul_left (by omega : 0 < g) (by omega)

theorem Reached.fresh (coprime : L.Coprime k) {n t : Nat} (residue : n < g) (round : t < L) :
    ¬Reached L k g n t (n + g * place L k t) := by
  rintro (above | ⟨i, before, same⟩)
  · rw [offset_mod residue] at above
    omega
  · exact place_inj coprime before round (offset_inj residue same).symm

theorem Reached.step (n t q : Nat) :
    Reached L k g n (t + 1) q ↔ Reached L k g n t q ∨ q = n + g * place L k t := by
  unfold Reached
  rw [or_assoc]
  apply or_congr_right
  constructor
  · rintro ⟨i, before, same⟩
    by_cases last : i = t
    · exact .inr (last ▸ same)
    · exact .inl ⟨i, by omega, same⟩
  · rintro (⟨i, before, same⟩ | same)
    · exact ⟨i, by omega, same⟩
    · exact ⟨t, by omega, same⟩

/-- A whole cycle has moved the places of its residue. -/
theorem Reached.whole (coprime : L.Coprime k) {n q : Nat} (residue : n < g)
    (bound : q < L * g) : Reached L k g n L q ↔ n ≤ q % g := by
  have split := Nat.mod_add_div q g
  constructor
  · rintro (above | ⟨i, -, same⟩)
    · omega
    · rw [same, offset_mod residue]
  · intro least
    by_cases above : n < q % g
    · exact .inl above
    · obtain ⟨i, before, at_⟩ := place_surj coprime
        (Nat.div_lt_of_lt_mul (by rwa [Nat.mul_comm]) : q / g < L)
      exact .inr ⟨i, before, by rw [at_]; omega⟩

theorem Reached.none {n q : Nat} : Reached L k g n 0 q ↔ n < q % g := by
  unfold Reached
  simp

end Haxe.Theory.Rotation
