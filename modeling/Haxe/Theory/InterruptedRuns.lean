/-!
# Runs that may be interrupted

A run changes a state and returns a value, throws, or exhausts its fuel. The state survives in
each case. What every step keeps, a run keeps.
-/

namespace Haxe.Theory.InterruptedRuns

/-- How a run ends. -/
inductive Outcome (ε α : Type) where
  | returned (a : α)
  | thrown (e : ε)
  | exhausted

/-- What goes on with the value that is returned. -/
def Outcome.bind {ε α β : Type} : Outcome ε α → (α → Outcome ε β) → Outcome ε β
  | .returned a, f => f a
  | .thrown e, _ => .thrown e
  | .exhausted, _ => .exhausted

instance {ε : Type} : Monad (Outcome ε) where
  pure := .returned
  bind := .bind

def Run (σ ε α : Type) : Type := σ → Outcome ε α × σ

variable {σ ε α β : Type}

namespace Run

def pure (a : α) : Run σ ε α := fun s => (.returned a, s)

/-- The second run starts where the first one returns. -/
def after (s : σ) (f : α → Run σ ε β) : Outcome ε α → Outcome ε β × σ
  | .returned a => f a s
  | .thrown e => (.thrown e, s)
  | .exhausted => (.exhausted, s)

def bind (r : Run σ ε α) (f : α → Run σ ε β) : Run σ ε β := fun s => after (r s).2 f (r s).1

instance : Monad (Run σ ε) where
  pure := pure
  bind := bind

def throw_ (e : ε) : Run σ ε α := fun s => (.thrown e, s)

def exhaust : Run σ ε α := fun s => (.exhausted, s)

def get : Run σ ε σ := fun s => (.returned s, s)

def modify (f : σ → σ) : Run σ ε Unit := fun s => (.returned (), f s)

theorem bind_apply (r : Run σ ε α) (f : α → Run σ ε β) (s : σ) :
    (r >>= f) s = after (r s).2 f (r s).1 := rfl

theorem get_bind (f : σ → Run σ ε β) (s : σ) : (get >>= f) s = f s s := rfl

theorem bind_returned {r : Run σ ε α} {s s' : σ} {a : α} (first : r s = (.returned a, s'))
    (f : α → Run σ ε β) : (r >>= f) s = f a s' := by
  rw [bind_apply, first]
  rfl

theorem bind_exhausted {r : Run σ ε α} {s : σ} (first : (r s).1 = .exhausted)
    (f : α → Run σ ε β) : ((r >>= f) s).1 = .exhausted := by
  rw [bind_apply, first]
  rfl

end Run

/-- Every run from a state ends in a state related to it. -/
def Keeps (related : σ → σ → Prop) (r : Run σ ε α) : Prop := ∀ s, related s (r s).2

namespace Keeps

variable {related : σ → σ → Prop}

theorem of_same (refl : ∀ s, related s s) {r : Run σ ε α} (same : ∀ s, (r s).2 = s) :
    Keeps related r := by
  intro s
  rw [same]
  exact refl s

theorem modify {f : σ → σ} (step : ∀ s, related s (f s)) :
    Keeps related (Run.modify f : Run σ ε Unit) := step

theorem bind (trans : ∀ {s s' s''}, related s s' → related s' s'' → related s s'')
    {r : Run σ ε α} {f : α → Run σ ε β} (first : Keeps related r)
    (second : ∀ a, Keeps related (f a)) : Keeps related (r >>= f) := by
  intro s
  have kept := first s
  rw [Run.bind_apply]
  cases (r s).1 with
  | returned a => exact trans kept (second a (r s).2)
  | thrown e => exact kept
  | exhausted => exact kept

end Keeps

/-- A run from a state exhausts its fuel only if it ends in a state that is not good. -/
def Halts (good : σ → Prop) (r : Run σ ε α) (s : σ) : Prop :=
  (r s).1 = .exhausted → ¬good (r s).2

namespace Halts

variable {related : σ → σ → Prop} {good : σ → Prop}

theorem thrown {r : Run σ ε α} {s s' : σ} {e : ε} (done : r s = (.thrown e, s')) :
    Halts good r s := by
  intro exhausted
  rw [done] at exhausted
  exact nomatch exhausted

/-- A step back from a good state leads to a good one, so both runs may be looked at in turn. -/
theorem bind {r : Run σ ε α} {f : α → Run σ ε β} {s : σ}
    (back : ∀ {s'}, related (r s).2 s' → good s' → good (r s).2) (first : Halts good r s)
    (keeps : ∀ a, Keeps related (f a))
    (second : ∀ a s', r s = (.returned a, s') → good s' → Halts good (f a) s') :
    Halts good (r >>= f) s := by
  intro exhausted last
  rw [Run.bind_apply] at exhausted last
  cases outcome : (r s).1 with
  | returned a =>
    rw [outcome] at exhausted last
    exact second a (r s).2 (Prod.ext outcome rfl) (back (keeps a _) last) exhausted last
  | thrown e =>
    rw [outcome] at exhausted
    exact nomatch exhausted
  | exhausted =>
    rw [outcome] at last
    exact first outcome last

end Halts

/-- A run that never exhausts its fuel. -/
def Ends (r : Run σ ε α) : Prop := ∀ s, (r s).1 ≠ .exhausted

theorem Ends.halts {good : σ → Prop} {r : Run σ ε α} (ends : Ends r) (s : σ) : Halts good r s :=
  fun exhausted => absurd exhausted (ends s)

theorem Ends.bind {r : Run σ ε α} {f : α → Run σ ε β} (first : Ends r)
    (second : ∀ a, Ends (f a)) : Ends (r >>= f) := by
  intro s
  rw [Run.bind_apply]
  cases outcome : (r s).1 with
  | returned a => exact second a _
  | thrown e => exact fun exhausted => nomatch exhausted
  | exhausted => exact absurd outcome (first s)

end Haxe.Theory.InterruptedRuns
