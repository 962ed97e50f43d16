import Mathlib.Data.List.Basic
import Mathlib.Data.List.Induction
import Mathlib.Tactic.SplitIfs

/-!
# Steps along a path

A path is walked from left to right over a stack of names, or read from right to left with a
count of the names that are still to be skipped.
-/

namespace Haxe.Theory.PathSteps

variable {α : Type}

inductive Step (α : Type) where
  | stay
  | up
  | down (name : α)
  deriving DecidableEq, Repr

/-- The names below the root after a step; going up at the root has no effect. -/
@[grind =] def move (names : List α) : Step α → List α
  | .stay => names
  | .up => names.dropLast
  | .down name => names ++ [name]

def walk (names : List α) (steps : List (Step α)) : List α := steps.foldl move names

/-- What reading from the right keeps, and how many names before it are skipped. -/
structure Backward (α : Type) where
  kept : List α
  skip : Nat
  deriving DecidableEq, Repr

def readBack (seen : Backward α) : Step α → Backward α
  | .stay => seen
  | .up => { seen with skip := seen.skip + 1 }
  | .down name =>
    if seen.skip > 0 then { seen with skip := seen.skip - 1 }
    else { seen with kept := name :: seen.kept }

def backward (steps : List (Step α)) : Backward α :=
  steps.reverse.foldl readBack ⟨[], 0⟩

theorem walk_append (names : List α) (first last : List (Step α)) :
    walk names (first ++ last) = walk (walk names first) last := List.foldl_append

theorem backward_cons (step : Step α) (steps : List (Step α)) :
    backward (step :: steps) = readBack (backward steps) step := by
  rw [backward, List.reverse_cons, List.foldl_append]
  rfl

/-- The names without the last ones. -/
def above (names : List α) (count : Nat) : List α := names.take (names.length - count)

theorem above_dropLast (names : List α) (count : Nat) :
    above names.dropLast count = above names (count + 1) := by
  rw [above, above, List.length_dropLast, List.dropLast_eq_take, List.take_take]
  congr 1
  omega

theorem above_append (names : List α) (name : α) (count : Nat) :
    above (names ++ [name]) (count + 1) = above names count := by
  rw [above, above, List.length_append, List.length_singleton, Nat.add_sub_add_right,
    List.take_append_of_le_length (Nat.sub_le _ _)]

@[simp] theorem above_zero (names : List α) : above names 0 = names := List.take_length

@[simp] theorem above_nil (count : Nat) : above ([] : List α) count = [] := List.take_nil

/-- A walk goes up by what is left to skip, and then down to what has been kept. -/
theorem walk_backward (names : List α) (steps : List (Step α)) :
    walk names steps = above names (backward steps).skip ++ (backward steps).kept := by
  induction steps generalizing names with
  | nil => exact (List.append_nil _).symm.trans (congrArg (· ++ []) (above_zero names).symm)
  | cons step steps ih =>
    rw [backward_cons, show walk names (step :: steps) = walk (move names step) steps from rfl,
      ih]
    cases step with
    | stay => rfl
    | up => rw [move, above_dropLast]; rfl
    | down name =>
      rw [move, readBack]
      by_cases some : (backward steps).skip > 0
      · -- the name is one of those to skip
        obtain ⟨count, skip⟩ := Nat.exists_eq_add_of_le' some
        rw [if_pos some, skip, above_append, Nat.add_sub_cancel]
      · have zero : (backward steps).skip = 0 := by omega
        rw [if_neg some, zero, above_zero, List.append_assoc]
        exact congrArg (· ++ _) (above_zero names).symm

theorem walk_root (steps : List (Step α)) : walk [] steps = (backward steps).kept := by
  rw [walk_backward, above_nil, List.nil_append]

/-- A walk down ends below where it starts. -/
theorem walk_down (names below : List α) : walk names (below.map .down) = names ++ below := by
  induction below generalizing names with
  | nil => exact (List.append_nil names).symm
  | cons name below ih =>
    rw [List.map_cons, show walk names (.down name :: below.map .down) =
      walk (names ++ [name]) (below.map .down) from rfl, ih, List.append_assoc]
    rfl

/-- What holds of the names and of every step down holds of the names that are reached. -/
theorem walk_all {P : α → Prop} {names : List α} {steps : List (Step α)}
    (start : ∀ name ∈ names, P name) (down : ∀ name, .down name ∈ steps → P name) :
    ∀ name ∈ walk names steps, P name := by
  induction steps generalizing names with
  | nil => exact start
  | cons step steps ih =>
    have moved : ∀ name ∈ move names step, P name := by
      intro name member
      cases step with
      | stay => exact start name member
      | up => exact start name (List.dropLast_subset names member)
      | down last =>
        cases List.mem_append.mp member with
        | inl before => exact start name before
        | inr same =>
          rw [List.mem_singleton.mp same]
          exact down last List.mem_cons_self
    exact ih moved fun name member => down name (List.mem_cons_of_mem step member)

/-- Where steps lead from anywhere: so far up, and then down to the names. -/
structure Reached (α : Type) where
  ups : Nat
  names : List α
  deriving DecidableEq, Repr

@[grind =] def advance (reached : Reached α) : Step α → Reached α
  | .stay => reached
  | .up =>
    if reached.names = [] then { reached with ups := reached.ups + 1 }
    else { reached with names := reached.names.dropLast }
  | .down name => { reached with names := reached.names ++ [name] }

def reach (steps : List (Step α)) : Reached α := steps.foldl advance ⟨0, []⟩

theorem reach_append (first last : List (Step α)) :
    reach (first ++ last) = last.foldl advance (reach first) := List.foldl_append

theorem dropLast_above (names : List α) (count : Nat) :
    (above names count).dropLast = above names (count + 1) := by
  rw [above, above, List.dropLast_eq_take, List.take_take, List.length_take]
  congr 1
  omega

theorem walk_reached (names : List α) (reached : Reached α) (steps : List (Step α)) :
    walk (above names reached.ups ++ reached.names) steps =
      above names (steps.foldl advance reached).ups ++ (steps.foldl advance reached).names := by
  induction steps generalizing reached with
  | nil => rfl
  | cons step steps ih =>
    rw [List.foldl_cons, ← ih]
    show walk (move _ step) steps = _
    refine congrArg (fun names => walk names steps) ?_
    cases step with
    | stay => rfl
    | up =>
      by_cases none : reached.names = []
      · rw [move, advance, if_pos none, none, List.append_nil, List.append_nil, dropLast_above]
      · rw [move, advance, if_neg none, List.dropLast_append_of_ne_nil none]
    | down name =>
      rw [move, advance, List.append_assoc]

theorem walk_reach (names : List α) (steps : List (Step α)) :
    walk names steps = above names (reach steps).ups ++ (reach steps).names := by
  have walked := walk_reached names ⟨0, []⟩ steps
  rw [above_zero, List.append_nil] at walked
  exact walked

/-- So far up and then down leads there. -/
theorem reach_ups_names (ups : Nat) (names : List α) :
    reach (List.replicate ups .up ++ names.map .down) = ⟨ups, names⟩ := by
  have up : ∀ count, (List.replicate count (Step.up (α := α))).foldl advance ⟨0, []⟩ =
      ⟨count, []⟩ := by
    intro count
    induction count with
    | zero => rfl
    | succ count ih =>
      rw [List.replicate_succ', List.foldl_append, ih]
      rfl
  have down : ∀ front : List α, (names.map Step.down).foldl advance ⟨ups, front⟩ =
      ⟨ups, front ++ names⟩ := by
    induction names with
    | nil => exact fun front => congrArg (Reached.mk ups) (List.append_nil front).symm
    | cons name names ih =>
      intro front
      have later := ih (front ++ [name])
      rw [List.append_assoc] at later
      exact later
  rw [reach_append, reach, up]
  exact down []

end Haxe.Theory.PathSteps

/-!
## Stacks that tokens are pushed on
-/

namespace Haxe.Theory.PathSteps

variable {α : Type} {push : List α → α → List α}

/-- A token is pushed, or it takes the last one back, or it leaves the stack as it is. -/
def StackLike (push : List α → α → List α) : Prop :=
  ∀ stack token, push stack token = stack ++ [token] ∨ push stack token = stack.dropLast ∨
    push stack token = stack

/-- What lies on the stack at the end was pushed at some time, and has stayed since. -/
theorem pushed_at (like : StackLike push) {tokens base rest : List α} {x : α}
    (final : tokens.foldl push [] = base ++ x :: rest) :
    ∃ before after, tokens = before ++ x :: after ∧ before.foldl push [] = base ∧
      push base x = base ++ [x] ∧
      ∀ pre post, after = pre ++ post → (base ++ [x]) <+: pre.foldl push (base ++ [x]) := by
  induction tokens using List.reverseRecOn generalizing rest with
  | nil =>
    exact absurd final.symm (List.append_ne_nil_of_right_ne_nil base (List.cons_ne_nil x rest))
  | append_singleton tokens token ih =>
    rw [List.foldl_append, List.foldl_cons, List.foldl_nil] at final
    -- one more token behind those that have left the base alone
    have more : ∀ {rest'}, tokens.foldl push [] = base ++ x :: rest' →
        ∃ before after, tokens ++ [token] = before ++ x :: after ∧ before.foldl push [] = base ∧
          push base x = base ++ [x] ∧
          ∀ pre post, after = pre ++ post → (base ++ [x]) <+: pre.foldl push (base ++ [x]) := by
      intro rest' earlier
      obtain ⟨before, after, split, at_, pushes, stays⟩ := ih earlier
      refine ⟨before, after ++ [token], by rw [split, List.append_assoc]; rfl, at_, pushes, ?_⟩
      intro pre post parts
      rcases List.eq_nil_or_concat' post with rfl | ⟨post, last, rfl⟩
      · rw [List.append_nil] at parts
        rw [← parts, List.foldl_append, List.foldl_cons, List.foldl_nil]
        have whole : after.foldl push (base ++ [x]) = base ++ x :: rest' := by
          rw [split, List.foldl_append, at_, List.foldl_cons, pushes] at earlier
          exact earlier
        rw [split, List.foldl_append, at_, List.foldl_cons, pushes] at final
        rw [final]
        exact ⟨rest, List.append_assoc ..⟩
      · rw [← List.append_assoc] at parts
        exact stays pre post (List.append_inj_left' parts rfl)
    rcases like (tokens.foldl push []) token with pushed | popped | left_
    · rw [pushed] at final
      rcases List.eq_nil_or_concat' rest with rfl | ⟨rest, last, rfl⟩
      · obtain ⟨same, last⟩ := List.append_inj' final rfl
        obtain rfl := List.singleton_inj.mp last
        refine ⟨tokens, [], rfl, same, ?_, ?_⟩
        · rw [← same, pushed]
        · intro pre post parts
          rw [(List.append_eq_nil_iff.mp parts.symm).1]
          exact List.prefix_refl _
      · rw [← List.cons_append, ← List.append_assoc] at final
        exact more (List.append_inj_left' final rfl)
    · rw [popped] at final
      rcases List.eq_nil_or_concat' (tokens.foldl push []) with empty | ⟨front, last, eq⟩
      · rw [empty] at final
        exact absurd final.symm (List.append_ne_nil_of_right_ne_nil base (List.cons_ne_nil x rest))
      · rw [eq, List.dropLast_concat] at final
        rw [final, List.append_assoc, List.cons_append] at eq
        exact more eq
    · rw [left_] at final
      exact more final

end Haxe.Theory.PathSteps
