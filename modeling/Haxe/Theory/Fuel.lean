import Mathlib.Logic.Function.Basic

/-!
# Functions with fuel

A recursion that is not structural is written with fuel. `Settles f r` says that it
has the value `r` for every large enough amount. The rules build it along the calls
of a function, so that no proof counts fuel.
-/

namespace Haxe.Theory

variable {α β γ : Type*}

/-- `f` has the value `r` for every large enough amount of fuel. -/
def Settles (f : Nat → α) (r : α) : Prop := ∃ n, ∀ m, n ≤ m → f m = r

namespace Settles

theorem unique {f : Nat → α} {r r' : α} (h : Settles f r) (h' : Settles f r') : r = r' := by
  obtain ⟨n, hn⟩ := h
  obtain ⟨n', hn'⟩ := h'
  calc r = f (max n n') := (hn _ (Nat.le_max_left n n')).symm
    _ = r' := hn' _ (Nat.le_max_right n n')

/-- A function that does not use its fuel any more. -/
theorem const (r : α) : Settles (fun _ => r) r := ⟨0, fun _ _ => rfl⟩

/-- One unfolding of the function. -/
theorem succ {f g : Nat → α} {r : α} (h : ∀ m, f (m + 1) = g m) (hg : Settles g r) :
    Settles f r := by
  obtain ⟨n, hn⟩ := hg
  refine ⟨n + 1, fun m hm => ?_⟩
  obtain ⟨m, rfl⟩ : ∃ k, m = k + 1 := ⟨m - 1, by omega⟩
  rw [h m]
  exact hn m (by omega)

/-- An unfolding after which no fuel is used. -/
theorem done {f : Nat → α} {r : α} (h : ∀ m, f (m + 1) = r) : Settles f r :=
  succ h (const r)

/-- One unfolding that makes one call. -/
theorem step {f : Nat → β} {g : Nat → α} {a : α} {b : β} (hg : Settles g a)
    (h : ∀ m, g m = a → f (m + 1) = b) : Settles f b := by
  obtain ⟨n, hn⟩ := hg
  refine ⟨n + 1, fun m hm => ?_⟩
  obtain ⟨m, rfl⟩ : ∃ k, m = k + 1 := ⟨m - 1, by omega⟩
  exact h m (hn m (by omega))

/-- One unfolding that makes two calls. -/
theorem step₂ {f : Nat → γ} {g : Nat → α} {g' : Nat → β} {a : α} {b : β} {c : γ}
    (hg : Settles g a) (hg' : Settles g' b)
    (h : ∀ m, g m = a → g' m = b → f (m + 1) = c) : Settles f c := by
  obtain ⟨n', hn'⟩ := hg'
  obtain ⟨n, hn⟩ := hg
  refine ⟨max n n' + 1, fun m hm => ?_⟩
  obtain ⟨m, rfl⟩ : ∃ k, m = k + 1 := ⟨m - 1, by omega⟩
  exact h m (hn m (by omega)) (hn' m (by omega))

end Settles

end Haxe.Theory

/-!
## Loops with fuel

A loop is the iteration of a step that either goes on or is done. Rules for its end, by an invariant
and a measure, and for loops that never end.
-/

namespace Haxe.Theory.FueledLoops

variable {σ ρ : Type}

/-- What a step of a loop leads to. -/
inductive Next (σ ρ : Type) where
  | again (s : σ)
  | done (r : ρ)

/-- The result of a loop, if there is enough fuel for it. -/
def loop (step : σ → Next σ ρ) : Nat → σ → Option ρ
  | 0, _ => none
  | fuel + 1, s =>
    match step s with
    | .again s' => loop step fuel s'
    | .done r => some r

variable {step : σ → Next σ ρ}

theorem loop_again {s s' : σ} (again : step s = .again s') (fuel : Nat) :
    loop step (fuel + 1) s = loop step fuel s' := by
  rw [loop, again]

theorem loop_done {s : σ} {r : ρ} (done : step s = .done r) (fuel : Nat) :
    loop step (fuel + 1) s = some r := by
  rw [loop, done]

/-- There is no other result with other fuel. -/
theorem loop_unique {fuel fuel' : Nat} {s : σ} {r r' : ρ} (run : loop step fuel s = some r)
    (run' : loop step fuel' s = some r') : r = r' := by
  induction fuel generalizing fuel' s with
  | zero => cases run
  | succ fuel ih =>
    cases fuel' with
    | zero => cases run'
    | succ fuel' =>
      cases next : step s with
      | again s' =>
        rw [loop_again next] at run run'
        exact ih run run'
      | done r'' =>
        rw [loop_done next] at run run'
        exact Option.some.inj (run.symm.trans run')

/-- A loop ends where each step that goes on keeps an invariant and lowers a measure. -/
theorem loop_ends_within {invariant : σ → Prop} {post : ρ → Prop} (measure : σ → Nat)
    (steps : ∀ s, invariant s →
      (∃ s', step s = .again s' ∧ invariant s' ∧ measure s' < measure s) ∨
        ∃ r, step s = .done r ∧ post r) {s : σ} (holds : invariant s) {fuel : Nat}
    (enough : measure s < fuel) : ∃ r, loop step fuel s = some r ∧ post r := by
  induction fuel generalizing s with
  | zero => cases enough
  | succ fuel ih =>
    obtain ⟨s', again, holds', lower⟩ | ⟨r, done, ends⟩ := steps s holds
    · rw [loop_again again]
      exact ih holds' (Nat.lt_of_lt_of_le lower (Nat.le_of_lt_succ enough))
    · exact ⟨r, loop_done done fuel, ends⟩

theorem loop_ends {invariant : σ → Prop} {post : ρ → Prop} (measure : σ → Nat)
    (steps : ∀ s, invariant s →
      (∃ s', step s = .again s' ∧ invariant s' ∧ measure s' < measure s) ∨
        ∃ r, step s = .done r ∧ post r) {s : σ} (holds : invariant s) :
    ∃ fuel r, loop step fuel s = some r ∧ post r :=
  ⟨measure s + 1, loop_ends_within measure steps holds (Nat.lt_succ_self _)⟩

end Haxe.Theory.FueledLoops
