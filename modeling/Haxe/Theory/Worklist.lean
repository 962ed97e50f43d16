import Mathlib.Data.Prod.Lex
import Mathlib.Data.List.Chain

/-!
# Work lists that become empty

A loop that takes its work from lists stops when a measure in a well-founded order falls with
every step. The measure here counts what is never undone before what is done again, and the
lengths of the lists last.
-/

namespace Haxe.Theory.Worklist

section Runs

variable {σ : Type*}

/-- The state after some steps. -/
@[grind =] def after (step : σ → Option σ) (s : σ) : Nat → Option σ
  | 0 => some s
  | n + 1 => (after step s n).bind step

/-- The loop comes to a state in which it is done. -/
def Ends (step : σ → Option σ) (done : σ → Prop) (s : σ) : Prop :=
  ∃ n t, after step s n = some t ∧ done t

variable {step : σ → Option σ} {done : σ → Prop} {s t : σ}

theorem after_add (n m : Nat) (start : after step s n = some t) :
    after step s (n + m) = after step t m := by
  induction m with
  | zero => exact start
  | succ m ih =>
    rw [Nat.add_succ, after, after, ih]

theorem Ends.of_after {n : Nat} (start : after step s n = some t) (rest : Ends step done t) :
    Ends step done s := by
  obtain ⟨m, u, reached, finished⟩ := rest
  exact ⟨n + m, u, (after_add n m start).trans reached, finished⟩

/-- States that only lead to each other, none of them done, are on no run that ends. -/
theorem not_ends_of_closed (p : σ → Prop)
    (closed : ∀ s, p s → ¬ done s ∧ ∃ t, step s = some t ∧ p t) (holds : p s) :
    ¬ Ends step done s := by
  have stays : ∀ n t, after step s n = some t → p t := by
    intro n
    induction n with
    | zero =>
      intro t reached
      cases reached
      exact holds
    | succ n ih =>
      intro t reached
      obtain ⟨u, reached, went⟩ := Option.bind_eq_some_iff.mp reached
      obtain ⟨_, t', went', holds'⟩ := closed u (ih u reached)
      rw [went] at went'
      cases went'
      exact holds'
  intro ended
  obtain ⟨n, t, reached, finished⟩ := ended
  exact (closed t (stays n t reached)).1 finished

/-- Every state of a chain but the last one leads to one of the chain. -/
theorem next_of_chain {xs : List σ} {last : σ}
    (chain : (xs ++ [last]).IsChain fun s t => step s = some t) (member : s ∈ xs) :
    ∃ t, step s = some t ∧ t ∈ xs ++ [last] := by
  induction xs with
  | nil => cases member
  | cons x xs ih =>
    obtain here | later := List.mem_cons.mp member
    · subst here
      cases xs with
      | nil =>
        cases chain with
        | cons_cons went _ => exact ⟨last, went, List.mem_cons_of_mem s List.mem_cons_self⟩
      | cons y ys =>
        cases chain with
        | cons_cons went _ => exact ⟨y, went, List.mem_cons_of_mem s List.mem_cons_self⟩
    · obtain ⟨t, went, there⟩ := ih chain.of_cons later
      exact ⟨t, went, List.mem_cons_of_mem x there⟩

/-- A run that comes back to a state does not end. -/
theorem not_ends_of_cycle {xs : List σ} {last : σ}
    (chain : (xs ++ [last]).IsChain fun s t => step s = some t) (back : last ∈ xs)
    (busy : ∀ t ∈ xs, ¬ done t) (member : s ∈ xs) : ¬ Ends step done s := by
  apply not_ends_of_closed (· ∈ xs) _ member
  intro t here
  obtain ⟨u, went, there⟩ := next_of_chain chain here
  refine ⟨busy t here, u, went, ?_⟩
  obtain inside | final := List.mem_append.mp there
  · exact inside
  · exact List.mem_singleton.mp final ▸ back

/-- A measure that falls with every step brings the loop to its end. -/
theorem ends_of_descent {β : Type*} {r : β → β → Prop} (wf : WellFounded r) (measure : σ → β)
    (inv : σ → Prop)
    (descends : ∀ s, inv s → ¬ done s →
      ∃ t, step s = some t ∧ inv t ∧ r (measure t) (measure s)) :
    ∀ s, inv s → Ends step done s := by
  intro s
  induction weighed : measure s using wf.induction generalizing s with
  | _ b ih =>
    intro holds
    by_cases finished : done s
    · exact ⟨0, s, rfl, finished⟩
    · obtain ⟨t, went, holds', below⟩ := descends s holds finished
      exact .of_after (n := 1) (by rw [after, after, Option.bind_some, went])
        (ih (measure t) (weighed ▸ below) t rfl holds')

end Runs

section Measures

/-- The order of measures: the first component counts most. -/
abbrev Measure := ℕ ×ₗ ℕ ×ₗ ℕ ×ₗ ℕ ×ₗ ℕ

def measure (a b c d e : Nat) : Measure := toLex (a, toLex (b, toLex (c, toLex (d, e))))

theorem measure_wf : WellFounded fun m m' : Measure => m < m' := wellFounded_lt

variable {a a' b b' c c' d d' e e' : Nat}

theorem lt_first (lt : a' < a) : measure a' b' c' d' e' < measure a b c d e :=
  Prod.Lex.left _ _ lt

theorem lt_second (same : a' = a) (lt : b' < b) : measure a' b' c' d' e' < measure a b c d e := by
  subst same
  exact Prod.Lex.right _ (Prod.Lex.left _ _ lt)

theorem lt_third (same : a' = a) (same2 : b' = b) (lt : c' < c) :
    measure a' b' c' d' e' < measure a b c d e := by
  subst same same2
  exact Prod.Lex.right _ (Prod.Lex.right _ (Prod.Lex.left _ _ lt))

theorem lt_fourth (same : a' = a) (same2 : b' = b) (same3 : c' = c) (lt : d' < d) :
    measure a' b' c' d' e' < measure a b c d e := by
  subst same same2 same3
  exact Prod.Lex.right _ (Prod.Lex.right _ (Prod.Lex.right _ (Prod.Lex.left _ _ lt)))

theorem lt_fifth (same : a' = a) (same2 : b' = b) (same3 : c' = c) (same4 : d' = d) (lt : e' < e) :
    measure a' b' c' d' e' < measure a b c d e := by
  subst same same2 same3 same4
  exact Prod.Lex.right _ (Prod.Lex.right _ (Prod.Lex.right _ (Prod.Lex.right _ lt)))

/-- The sum of a weight over a list. -/
def total {α : Type*} (weight : α → Nat) : List α → Nat
  | [] => 0
  | x :: xs => weight x + total weight xs

theorem total_le {α : Type*} {xs : List α} {f f' : α → Nat} (le : ∀ y ∈ xs, f' y ≤ f y) :
    total f' xs ≤ total f xs := by
  induction xs with
  | nil => exact Nat.le_refl 0
  | cons x xs ih =>
    exact Nat.add_le_add (le x List.mem_cons_self) (ih fun y later =>
      le y (List.mem_cons_of_mem x later))

/-- Changing one summand for a smaller one makes a sum smaller. -/
theorem total_lt {α : Type*} [DecidableEq α] {xs : List α} {f f' : α → Nat} {x : α}
    (member : x ∈ xs) (lt : f' x < f x) (same : ∀ y, y ≠ x → f' y = f y) :
    total f' xs < total f xs := by
  have le (y : α) : f' y ≤ f y := by
    by_cases eq : y = x
    · rw [eq]
      exact Nat.le_of_lt lt
    · rw [same y eq]
  induction xs with
  | nil => cases member
  | cons y ys ih =>
    obtain here | later := List.mem_cons.mp member
    · subst here
      exact Nat.add_lt_add_of_lt_of_le lt (total_le fun z _ => le z)
    · exact Nat.add_lt_add_of_le_of_lt (le y) (ih later)

/-- A sum depends on the weights of the members only. -/
theorem total_congr {α : Type*} {xs : List α} {f f' : α → Nat} (same : ∀ y ∈ xs, f' y = f y) :
    total f' xs = total f xs :=
  Nat.le_antisymm (total_le fun y member => Nat.le_of_eq (same y member))
    (total_le fun y member => Nat.le_of_eq (same y member).symm)

end Measures

end Haxe.Theory.Worklist
