import Mathlib.Data.List.Nodup
import Mathlib.Tactic.Cases

/-!
# Declarations and references in scopes

A trace lists the declarations and references of a program in the order in which they are
passed, with the regions that may be scopes of their own. Which of them are is a policy.
A reference sees the declarations before it, in its own scope and the scopes around it; a
finer policy shows it fewer of them, in the same order.
-/

namespace Haxe.Theory

variable {V K : Type*}

inductive Trace (V K : Type*) where
  | done
  | declare (v : V) (rest : Trace V K)
  | use (v : V) (rest : Trace V K)
  | scope (k : K) (body rest : Trace V K)
  | loop (body rest : Trace V K)

namespace Trace

@[grind =] def append : Trace V K → Trace V K → Trace V K
  | done, t => t
  | declare v rest, t => declare v (rest.append t)
  | use v rest, t => use v (rest.append t)
  | scope k body rest, t => scope k body (rest.append t)
  | loop body rest, t => loop body (rest.append t)

/-- The traces of a list, one after the other. -/
@[grind =] def concat : List (Trace V K) → Trace V K
  | [] => done
  | t :: l => t.append (concat l)

/-- All variables declared, in order. -/
@[grind =] def declared : Trace V K → List V
  | done => []
  | declare v rest => v :: rest.declared
  | use _ rest => rest.declared
  | scope _ body rest | loop body rest => body.declared ++ rest.declared

/-- What is visible after a trace, latest first. -/
@[grind =] def env (opens : K → Bool) : Trace V K → List V → List V
  | done, E => E
  | declare v rest, E => rest.env opens (v :: E)
  | use _ rest, E => rest.env opens E
  | scope k body rest, E => rest.env opens (if opens k then E else body.env opens E)
  | loop body rest, E => rest.env opens (body.env opens E)

/-- The references of a trace, each with what is visible there, latest first. -/
@[grind =] def references (opens : K → Bool) : Trace V K → List V → List (List V × V)
  | done, _ => []
  | declare v rest, E => rest.references opens (v :: E)
  | use v rest, E => (E, v) :: rest.references opens E
  | scope k body rest, E =>
    body.references opens E ++
      rest.references opens (if opens k then E else body.env opens E)
  | loop body rest, E => body.references opens E ++ rest.references opens (body.env opens E)

/-- A finer policy opens more scopes. -/
def Finer (fine coarse : K → Bool) : Prop := ∀ k, coarse k → fine k

theorem env_append (opens : K → Bool) (t t' : Trace V K) (E : List V) :
    (t.append t').env opens E = t'.env opens (t.env opens E) := by
  induction t generalizing E with
  | done => rfl
  | declare v rest ih | use v rest ih | scope k body rest ihBody ih | loop body rest ihBody ih =>
    exact ih _

theorem references_append (opens : K → Bool) (t t' : Trace V K) (E : List V) :
    (t.append t').references opens E =
      t.references opens E ++ t'.references opens (t.env opens E) := by
  induction t generalizing E with
  | done => rfl
  | declare v rest ih => exact ih _
  | use v rest ih => exact congrArg _ (ih E)
  | scope k body rest ihBody ih | loop body rest ihBody ih =>
    simp only [append, references, env, List.append_assoc]
    exact congrArg _ (ih _)

theorem declared_append (t t' : Trace V K) :
    (t.append t').declared = t.declared ++ t'.declared := by
  induction t with
  | done => rfl
  | declare v rest ih => exact congrArg _ ih
  | use v rest ih => exact ih
  | scope k body rest ihBody ih | loop body rest ihBody ih =>
    simp only [append, declared, List.append_assoc]
    exact congrArg _ ih

theorem env_suffix (opens : K → Bool) (t : Trace V K) (E : List V) :
    E <:+ t.env opens E := by
  induction t generalizing E with
  | done => exact List.suffix_refl E
  | declare v rest ih => exact (List.suffix_cons v E).trans (ih (v :: E))
  | use v rest ih => exact ih E
  | scope k body rest ihBody ih =>
    simp only [env]
    split
    · exact ih E
    · exact (ihBody E).trans (ih _)
  | loop body rest ihBody ih => exact (ihBody E).trans (ih _)

theorem env_sublist {fine coarse : K → Bool} (finer : Finer fine coarse) (t : Trace V K)
    {E E' : List V} (h : E.Sublist E') : (t.env fine E).Sublist (t.env coarse E') := by
  induction t generalizing E E' with
  | done => exact h
  | declare v rest ih => exact ih (h.cons_cons v)
  | use v rest ih => exact ih h
  | scope k body rest ihBody ih =>
    simp only [env]
    apply ih
    by_cases open' : coarse k
    · simp [open', finer k open', h]
    · by_cases openFine : fine k
      · simpa [open', openFine] using h.trans (env_suffix coarse body E').sublist
      · simpa [open', openFine] using ihBody h
  | loop body rest ihBody ih => exact ih (ihBody h)

/-- Only declared variables become visible. -/
theorem env_sublist_declared (opens : K → Bool) (t : Trace V K) (E : List V) :
    (t.env opens E).Sublist (t.declared.reverse ++ E) := by
  induction t generalizing E with
  | done => exact List.Sublist.refl E
  | declare v rest ih => simpa [declared, env] using ih (v :: E)
  | use v rest ih => exact ih E
  | scope k body rest ihBody ih =>
    have step : (if opens k then E else body.env opens E).Sublist (body.declared.reverse ++ E) := by
      split
      · exact List.sublist_append_right _ E
      · exact ihBody E
    simpa [declared, env] using (ih _).trans (step.append_left rest.declared.reverse)
  | loop body rest ihBody ih =>
    simpa [declared, env] using (ih _).trans ((ihBody E).append_left rest.declared.reverse)

/-- Under a finer policy every reference sees a part of what it saw. -/
theorem references_sublist {fine coarse : K → Bool} (finer : Finer fine coarse) (t : Trace V K)
    {E E' : List V} (h : E.Sublist E') :
    List.Forall₂ (fun r r' => r.1.Sublist r'.1 ∧ r.2 = r'.2) (t.references fine E)
      (t.references coarse E') := by
  induction t generalizing E E' with
  | done => exact .nil
  | declare v rest ih => exact ih (h.cons_cons v)
  | use v rest ih => exact .cons ⟨h, rfl⟩ (ih h)
  | scope k body rest ihBody ih =>
    refine List.rel_append (ihBody h) (ih ?_)
    by_cases open' : coarse k
    · simp [open', finer k open', h]
    · by_cases openFine : fine k
      · simpa [open', openFine] using h.trans (env_suffix coarse body E').sublist
      · simpa [open', openFine] using env_sublist finer body h
  | loop body rest ihBody ih => exact List.rel_append (ihBody h) (ih (env_sublist finer body h))

theorem exists_right {α β : Type*} {R : α → β → Prop} {l : List α} {l' : List β}
    (h : List.Forall₂ R l l') {a : α} (member : a ∈ l) : ∃ b ∈ l', R a b := by
  induction h with
  | nil => cases member
  | cons head _ ih =>
    rcases List.mem_cons.mp member with rfl | member
    · exact ⟨_, List.mem_cons_self .., head⟩
    · obtain ⟨b, inside, related⟩ := ih member
      exact ⟨b, List.mem_cons_of_mem _ inside, related⟩

theorem exists_coarse {fine coarse : K → Bool} (finer : Finer fine coarse) {t : Trace V K}
    {E : List V} {r : List V × V} (member : r ∈ t.references fine E) :
    ∃ r' ∈ t.references coarse E, r.1.Sublist r'.1 ∧ r.2 = r'.2 :=
  exists_right (references_sublist finer t (List.Sublist.refl E)) member

theorem exists_fine {fine coarse : K → Bool} (finer : Finer fine coarse) {t : Trace V K}
    {E : List V} {r : List V × V} (member : r ∈ t.references coarse E) :
    ∃ r' ∈ t.references fine E, r'.1.Sublist r.1 ∧ r'.2 = r.2 :=
  exists_right (references_sublist finer t (List.Sublist.refl E)).flip member

/-- The declaration that `name` denotes: the latest visible one of that name. -/
def resolve {N : Type*} [DecidableEq N] (name : V → N) (E : List V) (n : N) : Option V :=
  E.find? fun v => name v = n

/-- A visible variable is found when nothing declared after it has its name. -/
theorem resolve_eq {N : Type*} [DecidableEq N] {name : V → N} {E : List V} {v : V} (visible : v ∈ E)
    (apart : ∀ w, [w, v].Sublist E → w ≠ v → name w ≠ name v) :
    resolve name E (name v) = some v := by
  induction E with
  | nil => cases visible
  | cons w E ih =>
    unfold resolve at ih ⊢
    by_cases same : w = v
    · subst same
      simp
    · have below : v ∈ E := (List.mem_cons.mp visible).resolve_left (Ne.symm same)
      have differ : name w ≠ name v :=
        apart w ((List.singleton_sublist.mpr below).cons_cons w) same
      rw [List.find?_cons_of_neg (by simpa using differ)]
      exact ih below fun x sub => apart x (sub.cons w)

end Trace

end Haxe.Theory
