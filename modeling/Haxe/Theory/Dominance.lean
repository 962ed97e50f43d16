import Mathlib.Logic.Relation
import Mathlib.Data.List.Basic

/-!
# Dominance in a rooted directed graph

A vertex dominates another one when every walk from the root to the second
passes through the first. Nothing here assumes a finite graph or an executable
edge relation, so the same notions serve graphs of basic blocks and their
numbered spanning trees.
-/

namespace Haxe.Theory

variable {V : Type*}

/-- Walks from the root, listed with the vertex reached last in front. -/
inductive Walk (edge : V → V → Prop) (root : V) : List V → V → Prop
  | start : Walk edge root [root] root
  | step {p : List V} {v w : V} (walk : Walk edge root p v) (along : edge v w) :
      Walk edge root (w :: p) w

variable {edge : V → V → Prop} {root : V}

theorem Walk.head_mem {p : List V} {v : V} (walk : Walk edge root p v) : v ∈ p := by
  cases walk <;> simp

/-- Some walk from the root ends in the vertex. -/
def Reachable (edge : V → V → Prop) (root v : V) : Prop := ∃ p, Walk edge root p v

def Dominates (edge : V → V → Prop) (root d w : V) : Prop :=
  ∀ p, Walk edge root p w → d ∈ p

def StrictlyDominates (edge : V → V → Prop) (root d w : V) : Prop :=
  Dominates edge root d w ∧ d ≠ w

/-- The closest strict dominator: every other strict dominator dominates it. -/
def ImmediateDominator (edge : V → V → Prop) (root d w : V) : Prop :=
  StrictlyDominates edge root d w ∧
    ∀ e, StrictlyDominates edge root e w → Dominates edge root e d

/-- A strict dominator of a vertex dominates all its predecessors. -/
theorem StrictlyDominates.predecessor {d v w : V} (strict : StrictlyDominates edge root d w)
    (along : edge v w) : Dominates edge root d v := by
  intro p walk
  rcases List.mem_cons.mp (strict.1 _ (walk.step along)) with same | member
  · exact absurd same strict.2
  · exact member

where
  first_visit {p : List V} {v w : V} (walk : Walk edge root p v) (visited : w ∈ p) :
      ∃ p, Walk edge root (w :: p) w ∧ w ∉ p := by
    induction walk with
    | start =>
      obtain rfl := List.mem_singleton.mp visited
      exact ⟨[], .start, by simp⟩
    | @step p v u walk along ih =>
      by_cases earlier : w ∈ p
      · exact ih earlier
      · obtain rfl : w = u := by simpa [earlier] using visited
        exact ⟨p, walk.step along, earlier⟩

end Haxe.Theory
