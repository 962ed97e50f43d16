import Haxe.Source.Std.UnserializerEnds

/-!
# Unserializing ends

A call of `unserialize` ends and never moves back exactly if it consumes no string whose length is
negative.
-/

namespace Haxe.Guarantees.UnserializerTermination

open Theory.InterruptedRuns Source.DynamicValues Source.Unserializer

variable {F C E : Type} {buf : List Char}

/-- A state between two calls: nothing is recorded yet of the run that begins. -/
def Fresh (s : State F C E) : Prop := s.moves = [s.pos] ∧ s.consumed = []

/-- The call returns or throws after finitely many steps. -/
def Terminates (platform : Platform F C E) (buf : List Char) (s : State F C E) : Prop :=
  ∃ fuel, ∀ fuel', fuel ≤ fuel' → (unserialize platform buf fuel' s).1 ≠ .exhausted

/-- At every point of the call the position has never moved back, each token that was consumed has
moved it on, and so has the call itself once it returns. -/
def MovesOn (platform : Platform F C E) (buf : List Char) (s : State F C E) : Prop :=
  ∀ fuel, Straight (unserialize platform buf fuel s).2 ∧
    ∀ v, (unserialize platform buf fuel s).1 = .returned v →
      s.pos < (unserialize platform buf fuel s).2.pos

/-- No string of a negative length is consumed. -/
def Forward (platform : Platform F C E) (buf : List Char) (s : State F C E) : Prop :=
  ∀ fuel, ∀ token ∈ (unserialize platform buf fuel s).2.consumed, ¬Backward buf token.1

theorem Fresh.coherent {s : State F C E} (fresh : Fresh s) : Coherent s := by
  unfold Coherent
  rw [fresh.1]
  rfl

theorem Fresh.straight {s : State F C E} (fresh : Fresh s) : Straight s := by
  unfold Straight
  rw [fresh.1, fresh.2]
  exact ⟨List.pairwise_singleton .., List.forall_mem_nil _⟩

/-- The run is straight at a point exactly if no token before it moved back. -/
theorem straight_iff (platform : Platform F C E) {s : State F C E} (fresh : Fresh s) (fuel : Nat) :
    Straight (unserialize platform buf fuel s).2 ↔
      ∀ token ∈ (unserialize platform buf fuel s).2.consumed, ¬Backward buf token.1 := by
  obtain ⟨-, -, tokens, consumed, straight⟩ :=
    @unserialize_logged F C E buf platform fuel s fresh.coherent
  rw [straight, consumed, fresh.2, List.append_nil]
  exact and_iff_right fresh.straight

/-- Every call that never moves back ends. -/
theorem terminates_of_forward (platform : Platform F C E) {s : State F C E} (fresh : Fresh s)
    (forward : Forward platform buf s) : Terminates platform buf s := by
  refine ⟨2 * room buf s + 1, ?_⟩
  intro fuel enough exhausted
  exact (unserialize_reads platform fuel).halts fresh.coherent enough exhausted
    ((straight_iff platform fresh fuel).mpr (forward fuel))

theorem unserialize_terminates_iff (platform : Platform F C E) (buf : List Char)
    {s : State F C E} (fresh : Fresh s) :
    Terminates platform buf s ∧ MovesOn platform buf s ↔ Forward platform buf s := by
  constructor
  · rintro ⟨-, moves⟩ fuel
    exact (straight_iff platform fresh fuel).mp (moves fuel).1
  · intro forward
    refine ⟨terminates_of_forward platform fresh forward, ?_⟩
    intro fuel
    have straight := (straight_iff platform fresh fuel).mpr (forward fuel)
    refine ⟨straight, ?_⟩
    intro v returned
    exact (unserialize_reads platform fuel).moves_on (Prod.ext returned rfl) straight

/-- A target that resolves no name. -/
def bare : Platform Unit Unit Unit where
  nan := ()
  negativeInfinity := ()
  positiveInfinity := ()
  parseFloat _ := ()
  dateFromString _ := none
  urlDecode text := text
  resolveClass _ := none
  resolveEnum _ := none
  constructs _ := []
  enumError _ _ _ := none
  text _ _ := ""

/-- The array of one string is read to its end, without a step back. -/
theorem array_terminates :
    Terminates bare ['a', 'y', '1', ':', 'b', 'h'] new_ ∧
      MovesOn bare ['a', 'y', '1', ':', 'b', 'h'] new_ := by
  have fresh : Fresh (new_ : State Unit Unit Unit) := ⟨rfl, rfl⟩
  apply (unserialize_terminates_iff bare _ fresh).mpr
  intro fuel token _ back
  have inside := charAt_lt back.1
  rw [List.length_cons, List.length_cons, List.length_cons, List.length_cons, List.length_cons,
    List.length_singleton] at inside
  have none_back : ∀ n < 6, ¬Backward ['a', 'y', '1', ':', 'b', 'h'] (n : Nat) := by
    decide +kernel
  apply none_back token.1.toNat (by omega)
  rwa [Int.toNat_of_nonneg inside.1]

/-- An array whose element moves back to where it begins. -/
def looping : List Char := ['a', 'y', '-', '4', ':']

/-- The string of length -4 is returned at the position where it began. -/
theorem string_moves_back (fuel : Nat) {s : State Unit Unit Unit} (at_ : s.pos = 1) :
    ∃ v s', unserialize bare looping (fuel + 1) s = (.returned v, s') ∧ s'.pos = 1 := by
  have begins : (charAt looping s.pos).bind
      (unserializeRest bare looping (unserialize bare looping fuel) fuel) =
        some (readString bare looping) := by
    rw [at_]
    rfl
  have length : digitsAt looping (s.moveTo (s.pos + 1)).pos = (-4, 4) := by
    have behind : (s.moveTo (s.pos + 1)).pos = 2 := congrArg (· + 1) at_
    rw [behind]
    decide +kernel
  obtain ⟨text, returns⟩ := @readString_returns _ _ _ looping bare (s.moveTo (s.pos + 1))
    (by rw [length]; decide)
  rw [unserialize_token begins, Run.bind_returned returns]
  refine ⟨.string text, _, rfl, ?_⟩
  rw [length]
  rfl

theorem array_exhausts (fuel rounds a : Nat) {s : State Unit Unit Unit} (at_ : s.pos = 1) :
    (readArray looping (unserialize bare looping fuel) a rounds s).1 = .exhausted := by
  induction rounds generalizing s with
  | zero => rfl
  | succ rounds ih =>
    have here : charAt looping s.pos = some 'y' := by
      rw [at_]
      rfl
    unfold readArray
    rw [Run.get_bind, here, if_neg (by decide), if_neg (by decide)]
    cases fuel with
    | zero => rfl
    | succ fuel =>
      obtain ⟨v, s', returns, back⟩ := string_moves_back fuel at_
      rw [Run.bind_returned returns]
      exact @ih (s'.update a (.push v)) back

/-- With any fuel, the array takes all of it. -/
theorem array_loops : ∀ fuel, (unserialize bare looping fuel new_).1 = .exhausted := by
  intro fuel
  cases fuel with
  | zero => rfl
  | succ fuel =>
    have begins : (charAt looping (new_ : State Unit Unit Unit).pos).bind
        (unserializeRest bare looping (unserialize bare looping fuel) fuel) =
          some (readInto (.array []) fun a => readArray looping (unserialize bare looping fuel) a
            fuel) := rfl
    have loops := @array_exhausts fuel fuel 0
      (((new_.moveTo 1).allocate (.array [])).cached (.object 0)) rfl
    rw [unserialize_token begins]
    apply Run.bind_exhausted
    exact Run.bind_exhausted loops _

/-- So not every string is unserialized in finitely many steps. -/
theorem looping_never_ends :
    ¬∀ buf : List Char, Terminates bare buf new_ ∧ MovesOn bare buf new_ := by
  intro ends
  obtain ⟨⟨fuel, done⟩, -⟩ := ends looping
  exact done fuel (Nat.le_refl fuel) (array_loops fuel)

end Haxe.Guarantees.UnserializerTermination
