import Haxe.Source.Codegen.Overloads

/-!
# Picking overloads

The resolution keeps the candidates one after another and compares each with the last ones only,
by rates that stand in the order of the declaration only as long as every rest argument comes
behind as many others. It picks the undominated candidates in every order exactly if each of them
is better than every dominated one and the order of the rates makes no difference to which these
are.
-/

namespace Haxe.Source.Overloads

open Theory BestCandidates

variable {Ty Expr : Type} {types : Types Ty Expr}

/-- The candidates that the tie-breaks leave are rated, all with as many rates. -/
structure Comparable (types : Types Ty Expr) (compatible : List (Candidate Ty Expr)) : Prop where
  rated : AllRated types (survivors types compatible)
  lengths : ∀ x ∈ survivors types compatible, ∀ y ∈ survivors types compatible,
    (ratesIn (ratesOf types x)).length = (ratesIn (ratesOf types y)).length

/-- Whatever the order of the candidates, those are picked whose rates, in the order of the
declaration, are not dominated. -/
def PicksUndominated (types : Types Ty Expr) (compatible : List (Candidate Ty Expr)) : Prop :=
  ∀ listed, (survivors types listed).Perm (survivors types compatible) →
    ∃ picked, reduceCompatible types listed = some picked ∧ ∀ x, x ∈ picked ↔
      x ∈ survivors types compatible ∧
        Undominated (Beats (declaredOf types)) (survivors types compatible) x

/-- The condition: the undominated candidates are better than all others, and they are the same
in the order of the declaration. -/
structure Decisive (types : Types Ty Expr) (compatible : List (Candidate Ty Expr)) : Prop where
  separated : Separated (Beats (ratesOf types)) (survivors types compatible)
  aligned : ∀ x ∈ survivors types compatible,
    Undominated (Beats (ratesOf types)) (survivors types compatible) x ↔
      Undominated (Beats (declaredOf types)) (survivors types compatible) x

theorem allRated_of_perm {all order : List (Candidate Ty Expr)} (every : AllRated types all)
    (perm : order.Perm all) : AllRated types order :=
  fun x member => every x (perm.mem_iff.mp member)

/-- The lists of candidates are the orders of those that the tie-breaks leave. -/
theorem picksUndominated_iff_orders {compatible : List (Candidate Ty Expr)}
    (symmetric : Symmetric types) (comparable : Comparable types compatible) :
    PicksUndominated types compatible ↔
      ∀ order : List (Candidate Ty Expr), order.Perm (survivors types compatible) →
        ∀ x, x ∈ keep (Beats (ratesOf types)) [] order ↔ x ∈ survivors types compatible ∧
          Undominated (Beats (declaredOf types)) (survivors types compatible) x := by
  constructor
  · intro picks order perm
    have back := (List.reverse_perm order).trans perm
    have left := survivors_perm symmetric back
    have every := allRated_of_perm comparable.rated (left.symm ▸ back)
    obtain ⟨picked, same, exactly⟩ := picks order.reverse (left.symm ▸ back)
    rw [reduceCompatible_keep every, left, List.reverse_reverse] at same
    rw [Option.some.inj same]
    exact exactly
  · intro orders listed perm
    have every := allRated_of_perm comparable.rated perm
    exact ⟨_, reduceCompatible_keep every, orders _ ((List.reverse_perm _).trans perm)⟩

theorem picksUndominated_iff {compatible : List (Candidate Ty Expr)} (symmetric : Symmetric types)
    (comparable : Comparable types compatible) :
    PicksUndominated types compatible ↔ Decisive types compatible := by
  rw [picksUndominated_iff_orders symmetric comparable, keep_iff (beats_strict _)]
  constructor
  · rintro ⟨separated, aligned⟩
    exact ⟨separated, aligned⟩
  · rintro ⟨separated, aligned⟩
    exact ⟨separated, aligned⟩

/-! ## Distances between classes

A type is the numbers of classes between what is asked for and what is passed. -/

def distances : Types (List Nat) Unit where
  iseq s t := s = t
  tfun t := some (t.map fun n => ⟨"arg", false, [n]⟩)
  follow t := t
  isRest _ := false
  restParam _ := none
  rateArg t _ := some (t.headD 0, 0)

def call (t : List Nat) : Candidate (List Nat) Unit := ⟨[(), ()], t⟩

theorem distances_symmetric : Symmetric distances := fun _ _ => decide_eq_decide.mpr eq_comm

theorem call_rated (n m : Nat) :
    ratesOf distances (call [n, m]) = .ok [(m, 0), (n, 0)] := rfl

theorem comparable_of_calls {listed : List (List Nat)}
    {compatible : List (Candidate (List Nat) Unit)}
    (left : survivors distances compatible = listed.map call)
    (two : ∀ t ∈ listed, ∃ n m, t = [n, m]) : Comparable distances compatible := by
  have rated : ∀ x ∈ survivors distances compatible, ∃ n m, x = call [n, m] := by
    rw [left]
    intro x member
    obtain ⟨t, inside, rfl⟩ := List.mem_map.mp member
    obtain ⟨n, m, rfl⟩ := two t inside
    exact ⟨n, m, rfl⟩
  refine ⟨fun x member => ?_, fun x member y other => ?_⟩
  · obtain ⟨n, m, rfl⟩ := rated x member
    exact ⟨_, call_rated n m⟩
  · obtain ⟨n, m, rfl⟩ := rated x member
    obtain ⟨n', m', rfl⟩ := rated y other
    rfl

/-- Of two candidates the closer one is picked. -/
theorem picksUndominated_closer :
    PicksUndominated distances [call [1, 0], call [2, 0]] := by
  have left : survivors distances [call [1, 0], call [2, 0]] =
      [[1, 0], [2, 0]].map call := by decide
  have decisive : Decisive distances [call [1, 0], call [2, 0]] :=
    ⟨by unfold Separated Undominated; decide, by unfold Undominated; decide⟩
  exact (picksUndominated_iff distances_symmetric
    (comparable_of_calls left (by simp))).mpr decisive

/-- The last candidate is kept although the first one is closer: it is compared with the second
one only. -/
theorem keeps_dominated :
    Comparable distances [call [2, 0], call [0, 1], call [1, 0]] ∧
      ¬PicksUndominated distances [call [2, 0], call [0, 1], call [1, 0]] := by
  have left : survivors distances [call [2, 0], call [0, 1], call [1, 0]] =
      [[2, 0], [0, 1], [1, 0]].map call := by decide
  have comparable := comparable_of_calls left (by simp)
  refine ⟨comparable, fun picks => ?_⟩
  obtain ⟨picked, same, exactly⟩ := picks _ (List.Perm.refl _)
  have run : picked = [call [2, 0], call [0, 1], call [1, 0]] := by
    rw [reduceCompatible_keep comparable.rated, left] at same
    rw [← Option.some.inj same]
    decide
  have kept := (exactly (call [2, 0])).mp (run ▸ List.mem_cons_self)
  rw [left] at kept
  exact kept.2 (call [1, 0]) (by decide) (by decide)

end Haxe.Source.Overloads
