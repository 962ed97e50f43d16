import Mathlib.Order.Basic

/-!
# Steps that may raise

`Ends Q E` is the postcondition of a computation in `Except`: `Q` of what it returns, `E`
of what it raises. The rules follow `pure`, `bind` and the monadic fold.
-/

namespace Haxe.Theory

universe u

variable {ε ι : Type*} {α β σ : Type u}

/-- `Q` holds of the value returned, or `E` of the error raised. -/
def Ends (Q : α → Prop) (E : ε → Prop) : Except ε α → Prop
  | .ok a => Q a
  | .error e => E e

namespace Ends

variable {Q Q' : α → Prop} {R : β → Prop} {E : ε → Prop}

theorem mono {x : Except ε α} (h : Ends Q E x) (imp : ∀ a, Q a → Q' a) : Ends Q' E x := by
  cases x with
  | ok a => exact imp a h
  | error e => exact h

theorem bind {x : Except ε α} {f : α → Except ε β} (h : Ends Q E x)
    (next : ∀ a, Q a → Ends R E (f a)) : Ends R E (x >>= f) := by
  cases x with
  | ok a => exact next a h
  | error e => exact h

/-- A fold whose steps each establish a fact about their element that later steps keep. -/
theorem foldlM_forall {I : σ → Prop} {R : ι → σ → Prop} {f : σ → ι → Except ε σ} {l : List ι}
    {s : σ}
    (step : ∀ a ∈ l, ∀ s, I s → Ends (fun s' => I s' ∧ R a s' ∧ ∀ b, R b s → R b s') E (f s a))
    (start : I s) : Ends (fun s' => I s' ∧ (∀ a ∈ l, R a s') ∧ ∀ b, R b s → R b s') E
      (l.foldlM f s) := by
  induction l generalizing s with
  | nil => exact ⟨start, by simp, fun _ h => h⟩
  | cons a l ih =>
    rw [List.foldlM_cons]
    refine bind (step a (by simp) s start) fun s' ⟨kept, here, stable⟩ => ?_
    refine (ih (fun b member => step b (List.mem_cons_of_mem a member)) kept).mono ?_
    rintro s'' ⟨kept', rest, stable'⟩
    refine ⟨kept', ?_, fun b h => stable' b (stable b h)⟩
    intro b member
    rcases List.mem_cons.mp member with rfl | member
    · exact stable' b here
    · exact rest b member

end Ends

end Haxe.Theory

/-!
## Steps on a state that may raise

A computation respects a relation of states if it holds between the states before and behind it,
whether it returns or raises. A relation that is a preorder is respected piece by piece.
-/

namespace Haxe.Theory

universe u

variable {ε σ : Type u} {α β : Type u}

/-- The state in which a computation ends. -/
def final : EStateM.Result ε σ α → σ
  | .ok _ s => s
  | .error _ s => s

def Respects (R : σ → σ → Prop) (x : EStateM ε σ α) : Prop := ∀ s, R s (final (x s))

namespace Respects

variable {R R' : σ → σ → Prop} {x : EStateM ε σ α} {f : α → EStateM ε σ β}

theorem pure (refl : ∀ s, R s s) (a : α) : Respects R (Pure.pure a : EStateM ε σ α) :=
  fun s => refl s

theorem throw (refl : ∀ s, R s s) (e : ε) : Respects R (throw e : EStateM ε σ α) :=
  fun s => refl s

/-- A relation that what follows cannot undo. -/
theorem bind_left (keep : ∀ {s t u}, R s t → R' t u → R s u) (first : Respects R x)
    (next : ∀ a, Respects R' (f a)) : Respects R (x >>= f) := by
  intro s
  show R s (final (EStateM.bind x f s))
  have here := first s
  unfold EStateM.bind
  cases ran : x s with
  | ok a t =>
    rw [ran] at here
    exact keep here (next a t)
  | error e t =>
    rw [ran] at here
    exact here

theorem bind (trans : ∀ {s t u}, R s t → R t u → R s u) (first : Respects R x)
    (next : ∀ a, Respects R (f a)) : Respects R (x >>= f) :=
  bind_left trans first next

end Respects

end Haxe.Theory
