import Mathlib.Data.List.Basic
import Mathlib.Data.List.Count

/-!
# Exploring a graph from a vertex

A recursive function that marks a vertex, calls itself on the successors and notes after each
call the edge it has gone. Where a vertex has no successors to be known of, it fails.
-/

namespace Haxe.Theory

variable {V : Type*}

/-- The vertices that have been seen and the edges that have been gone, the latest first. -/
structure Trail (V : Type*) where
  seen : List V
  edges : List (V × V)

def Trail.go (t : Trail V) (v w : V) : Trail V := { t with edges := (v, w) :: t.edges }

/-- What an exploration adds: vertices whose successors are seen, and their edges. -/
structure Explored (succ : V → Option (List V)) (t t' : Trail V) : Prop where
  seen : t.seen ⊆ t'.seen
  closed : ∀ a ∈ t'.seen, a ∉ t.seen → ∃ ws, succ a = some ws ∧ ws ⊆ t'.seen
  edges : ∀ a b, (a, b) ∈ t'.edges ↔
    (a, b) ∈ t.edges ∨ a ∈ t'.seen ∧ a ∉ t.seen ∧ ∃ ws, succ a = some ws ∧ b ∈ ws

/-- The same while some successors of a vertex have been explored. -/
structure Exploring (succ : V → Option (List V)) (v : V) (ws : List V) (t t' : Trail V) : Prop where
  seen : t.seen ⊆ t'.seen
  gone : ws ⊆ t'.seen
  closed : ∀ a ∈ t'.seen, a ∉ t.seen → ∃ ws, succ a = some ws ∧ ws ⊆ t'.seen
  edges : ∀ a b, (a, b) ∈ t'.edges ↔
    (a, b) ∈ t.edges ∨ (a ∈ t'.seen ∧ a ∉ t.seen ∧ ∃ ws, succ a = some ws ∧ b ∈ ws) ∨
      a = v ∧ b ∈ ws

variable {succ : V → Option (List V)} {t t' t'' : Trail V} {v w : V} {ws : List V}

theorem Explored.refl (t : Trail V) : Explored succ t t where
  seen := List.Subset.refl _
  closed _ member fresh := absurd member fresh
  edges _ _ := ⟨.inl, fun either => either.elim id fun new => absurd new.1 new.2.1⟩

theorem Exploring.start (t : Trail V) : Exploring succ v [] t t where
  seen := List.Subset.refl _
  gone _ member := absurd member List.not_mem_nil
  closed _ member fresh := absurd member fresh
  edges a b := by
    constructor
    · exact .inl
    · intro either
      obtain old | new | none := either
      · exact old
      · exact absurd new.1 new.2.1
      · exact absurd none.2 List.not_mem_nil

/-- One more successor. -/
theorem Exploring.go (before : Exploring succ v ws t t') (here : v ∈ t.seen)
    (more : Explored succ t' t'') (reached : w ∈ t''.seen) :
    Exploring succ v (ws ++ [w]) t (t''.go v w) where
  seen := List.Subset.trans before.seen more.seen
  gone u member := by
    obtain old | new := List.mem_append.mp member
    · exact more.seen (before.gone old)
    · exact List.mem_singleton.mp new ▸ reached
  closed a member fresh := by
    by_cases old : a ∈ t'.seen
    · obtain ⟨ws, known, subset⟩ := before.closed a old fresh
      exact ⟨ws, known, List.Subset.trans subset more.seen⟩
    · exact more.closed a member old
  edges a b := by
    have step := more.edges a b
    have earlier := before.edges a b
    have kept := before.seen
    have grown := more.seen
    constructor
    · intro member
      obtain same | member := List.mem_cons.mp member
      · obtain ⟨rfl, rfl⟩ := Prod.mk.inj same
        exact .inr (.inr ⟨rfl, List.mem_append_right ws List.mem_cons_self⟩)
      · obtain old | ⟨inside, fresh, known⟩ := step.mp member
        · obtain old | ⟨inside, fresh, known⟩ | ⟨same, gone⟩ := earlier.mp old
          · exact .inl old
          · exact .inr (.inl ⟨grown inside, fresh, known⟩)
          · exact .inr (.inr ⟨same, List.mem_append_left [w] gone⟩)
        · exact .inr (.inl ⟨inside, fun old => fresh (kept old), known⟩)
    · intro either
      obtain old | ⟨inside, fresh, known⟩ | ⟨same, gone⟩ := either
      · exact List.mem_cons_of_mem _ (step.mpr (.inl (earlier.mpr (.inl old))))
      · apply List.mem_cons_of_mem
        by_cases old : a ∈ t'.seen
        · exact step.mpr (.inl (earlier.mpr (.inr (.inl ⟨old, fresh, known⟩))))
        · exact step.mpr (.inr ⟨inside, old, known⟩)
      · obtain gone | last := List.mem_append.mp gone
        · exact List.mem_cons_of_mem _
            (step.mpr (.inl (earlier.mpr (.inr (.inr ⟨same, gone⟩)))))
        · rw [same, List.mem_singleton.mp last]
          exact List.mem_cons_self

/-- After the last successor. -/
theorem Exploring.finish (fresh : v ∉ t.seen) (known : succ v = some ws)
    (all : Exploring succ v ws { t with seen := v :: t.seen } t') : Explored succ t t' where
  seen := List.Subset.trans (List.subset_cons_self v t.seen) all.seen
  closed a member new := by
    by_cases same : a = v
    · exact ⟨ws, same ▸ known, all.gone⟩
    · exact all.closed a member fun old => (List.mem_cons.mp old).elim same new
  edges a b := by
    rw [all.edges a b]
    have seen : v ∈ t'.seen := all.seen List.mem_cons_self
    constructor
    · intro either
      obtain old | ⟨inside, new, known⟩ | ⟨same, gone⟩ := either
      · exact .inl old
      · exact .inr ⟨inside, fun old => new (List.mem_cons_of_mem v old), known⟩
      · exact .inr ⟨same ▸ seen, same ▸ fresh, ws, same ▸ known, gone⟩
    · intro either
      obtain old | ⟨inside, new, ws', known', gone⟩ := either
      · exact .inl old
      · by_cases same : a = v
        · rw [same, known] at known'
          cases known'
          exact .inr (.inr ⟨same, gone⟩)
        · exact .inr (.inl ⟨inside, fun old => (List.mem_cons.mp old).elim same new, ws', known',
            gone⟩)

variable [DecidableEq V]

def explore (succ : V → Option (List V)) : Nat → Trail V → V → Option (Trail V)
  | 0, _, _ => none
  | n + 1, t, v =>
    if t.seen.any fun u => u = v then some t
    else (succ v).bind fun ws =>
      ws.foldlM (fun t w => (explore succ n t w).map fun t => t.go v w)
        { t with seen := v :: t.seen }

theorem seen_iff (t : Trail V) (v : V) :
    (t.seen.any fun u => u = v) = true ↔ v ∈ t.seen := by
  rw [List.any_eq_true]
  constructor
  · intro found
    obtain ⟨u, member, same⟩ := found
    exact of_decide_eq_true same ▸ member
  · intro member
    exact ⟨v, member, decide_eq_true rfl⟩

theorem explore_explored (n : Nat) (explores : explore succ n t v = some t') :
    Explored succ t t' ∧ v ∈ t'.seen := by
  induction n generalizing t v t' with
  | zero => cases explores
  | succ n ih =>
    rw [explore] at explores
    by_cases old : v ∈ t.seen
    · rw [if_pos ((seen_iff t v).mpr old)] at explores
      cases explores
      exact ⟨.refl _, old⟩
    · rw [if_neg (mt (seen_iff t v).mp old)] at explores
      obtain ⟨ws, known, explores⟩ := Option.bind_eq_some_iff.mp explores
      have fold : ∀ (rest done : List V) (u : Trail V),
          Exploring succ v done { t with seen := v :: t.seen } u →
          rest.foldlM (fun t w => (explore succ n t w).map fun t => t.go v w) u = some t' →
          Exploring succ v (done ++ rest) { t with seen := v :: t.seen } t' := by
        intro rest
        induction rest with
        | nil =>
          intro done u before folds
          cases folds
          rw [List.append_nil]
          exact before
        | cons w rest ih' =>
          intro done u before folds
          rw [List.foldlM_cons] at folds
          obtain ⟨u', goes, folds⟩ := Option.bind_eq_some_iff.mp folds
          obtain ⟨u'', explores, same⟩ := Option.map_eq_some_iff.mp goes
          subst same
          obtain ⟨more, reached⟩ := ih explores
          have after := ih' (done ++ [w]) (u''.go v w)
            (before.go List.mem_cons_self more reached) folds
          rwa [List.append_assoc] at after
      have all := fold ws [] _ (.start _) explores
      exact ⟨all.finish old known, all.seen List.mem_cons_self⟩

/-- What is seen is where the exploration began, or the end of an edge that has been gone. -/
theorem explore_reached (n : Nat) (explores : explore succ n t v = some t') {a : V}
    (member : a ∈ t'.seen) : a ∈ t.seen ∨ a = v ∨ ∃ b, (b, a) ∈ t'.edges := by
  induction n generalizing t v t' with
  | zero => cases explores
  | succ n ih =>
    rw [explore] at explores
    by_cases old : v ∈ t.seen
    · rw [if_pos ((seen_iff t v).mpr old)] at explores
      cases explores
      exact .inl member
    · rw [if_neg (mt (seen_iff t v).mp old)] at explores
      obtain ⟨ws, known, explores⟩ := Option.bind_eq_some_iff.mp explores
      have fold : ∀ (rest : List V) (u : Trail V),
          (a ∈ u.seen → a ∈ t.seen ∨ a = v ∨ ∃ b, (b, a) ∈ u.edges) →
          rest.foldlM (fun t w => (explore succ n t w).map fun t => t.go v w) u = some t' →
          a ∈ t.seen ∨ a = v ∨ ∃ b, (b, a) ∈ t'.edges := by
        intro rest
        induction rest with
        | nil =>
          intro u before folds
          cases folds
          exact before member
        | cons w rest ih' =>
          intro u before folds
          rw [List.foldlM_cons] at folds
          obtain ⟨u', goes, folds⟩ := Option.bind_eq_some_iff.mp folds
          obtain ⟨u'', explores, same⟩ := Option.map_eq_some_iff.mp goes
          subst same
          refine ih' (u''.go v w) (fun inside => ?_) folds
          obtain earlier | here | gone := ih explores inside
          · obtain old | start | gone := before earlier
            · exact .inl old
            · exact .inr (.inl start)
            · obtain ⟨b, edge⟩ := gone
              have kept := ((explore_explored n explores).1.edges b a).mpr (.inl edge)
              exact .inr (.inr ⟨b, List.mem_cons_of_mem _ kept⟩)
          · exact .inr (.inr ⟨v, here ▸ List.mem_cons_self⟩)
          · obtain ⟨b, edge⟩ := gone
            exact .inr (.inr ⟨b, List.mem_cons_of_mem _ edge⟩)
      exact fold ws _ (fun inside => (List.mem_cons.mp inside).elim (.inr ∘ .inl) .inl) explores

section Fuel

/-- How many of the vertices have not been seen. -/
def unexplored (vs seen : List V) : Nat := vs.countP fun v => !seen.any fun u => u = v

theorem unexplored_le {vs seen seen' : List V} (subset : seen ⊆ seen') :
    unexplored vs seen' ≤ unexplored vs seen := by
  apply List.countP_mono_left
  intro v _ new
  rw [Bool.not_eq_true', List.any_eq_false] at new ⊢
  exact fun u member => new u (subset member)

/-- A stronger test, failed by a member that passes the weaker one, counts fewer. -/
theorem countP_lt {α : Type*} {p p' : α → Bool} {xs : List α} {x : α}
    (stronger : ∀ y ∈ xs, p' y = true → p y = true) (member : x ∈ xs) (passes : p x = true)
    (fails : p' x = false) : xs.countP p' < xs.countP p := by
  induction xs with
  | nil => cases member
  | cons y ys ih =>
    have rest : ys.countP p' ≤ ys.countP p :=
      List.countP_mono_left fun z later => stronger z (List.mem_cons_of_mem y later)
    rw [List.countP_cons, List.countP_cons]
    obtain here | later := List.mem_cons.mp member
    · subst here
      rw [passes, fails, if_pos rfl, if_neg Bool.false_ne_true]
      omega
    · have less := ih (fun z later => stronger z (List.mem_cons_of_mem y later)) later
      have head := stronger y List.mem_cons_self
      split
      · rename_i strong
        rw [if_pos (head strong)]
        omega
      · split <;> omega

theorem unexplored_lt {vs seen : List V} (member : v ∈ vs) (fresh : v ∉ seen) :
    unexplored vs (v :: seen) < unexplored vs seen := by
  apply countP_lt _ member
  · rw [Bool.not_eq_true', List.any_eq_false]
    intro u inside same
    exact fresh (of_decide_eq_true same ▸ inside)
  · simp
  · intro u _ new
    rw [List.any_cons, Bool.not_or, Bool.and_eq_true] at new
    exact new.2

/-- The exploration succeeds inside a list of vertices that is closed, with enough fuel. -/
theorem explore_some (vs : List V)
    (closed : ∀ a ∈ vs, ∃ ws, succ a = some ws ∧ ws ⊆ vs) (n : Nat) (member : v ∈ vs)
    (enough : unexplored vs t.seen < n) : ∃ t', explore succ n t v = some t' := by
  induction n generalizing t v with
  | zero => exact absurd enough (Nat.not_lt_zero _)
  | succ n ih =>
    rw [explore]
    by_cases old : v ∈ t.seen
    · rw [if_pos ((seen_iff t v).mpr old)]
      exact ⟨t, rfl⟩
    · rw [if_neg (mt (seen_iff t v).mp old)]
      obtain ⟨ws, known, subset⟩ := closed v member
      rw [known, Option.bind_some]
      have fold : ∀ (rest : List V) (u : Trail V), rest ⊆ vs → v :: t.seen ⊆ u.seen →
          ∃ t', rest.foldlM (fun t w => (explore succ n t w).map fun t => t.go v w) u =
            some t' := by
        intro rest
        induction rest with
        | nil => exact fun u _ _ => ⟨u, rfl⟩
        | cons w rest ih' =>
          intro u inside grown
          have less := unexplored_lt member old
          have fuel : unexplored vs u.seen ≤ unexplored vs (v :: t.seen) := unexplored_le grown
          obtain ⟨u', explores⟩ := ih (t := u) (inside List.mem_cons_self) (by omega)
          have more := (explore_explored n explores).1.seen
          obtain ⟨t', folds⟩ := ih' (u'.go v w) (fun x later => inside (.tail w later))
            (List.Subset.trans grown more)
          refine ⟨t', ?_⟩
          rw [List.foldlM_cons, explores]
          exact folds
      exact fold ws _ subset (List.Subset.refl _)

end Fuel

end Haxe.Theory
