import Mathlib.Logic.Relation
import Haxe.Source.Compiler.Server

/-!
# What a check leaves

A check moves marks to the current one and adds dirty flags. If it answers that the module can be
reused, the modules that it marked have their dependencies marked as well, and none is dirty; a
dirty flag is only set where a changed or dirty module is reached.
-/

namespace Haxe.Source.Server

open Relation

variable {Module Decls : Type} [DecidableEq Module] [DecidableEq Decls]
variable {w : World Module Decls} {mark startMark : Nat}

/-- A dependency that the check of a module follows. -/
def Follows (w : World Module Decls) (m d : Module) : Prop :=
  d ∈ (w.extra m).deps ∧ w.hasPolicy m .noCheckDependencies = false

abbrev Reaches (w : World Module Decls) : Module → Module → Prop := ReflTransGen (Follows w)

structure Moves (mark : Nat) (s s' : State Module) : Prop where
  markLoop : s'.markLoop = s.markLoop
  compilationMark : s'.compilationMark = s.compilationMark
  marks : ∀ x, s'.mark x = s.mark x ∨ s'.mark x = mark
  dirty : ∀ x p, s.dirty x = some p → s'.dirty x = some p

/-- The path of a dirty module is that of a module it reaches, which was dirty or has changed. -/
def Sound (w : World Module Decls) (s s' : State Module) : Prop :=
  ∀ x p, s'.dirty x = some p → ∃ y, Reaches w x y ∧
    (s.dirty y = some p ∨ w.checkSources y = .error .notFound ∧ p = y)

/-- A module that was marked in this compilation and has changed is dirty. -/
def Settled (w : World Module Decls) (startMark : Nat) (s : State Module) : Prop :=
  ∀ x, startMark < s.mark x → w.checkSources x = .error .notFound → s.dirty x ≠ none

/-- The modules marked between two states are not dirty, and their dependencies are marked. -/
structure Closed (w : World Module Decls) (mark startMark : Nat) (s s' : State Module) :
    Prop where
  dirty : s'.dirty = s.dirty
  clean : ∀ x, s.mark x ≠ mark → s'.mark x = mark →
    s.dirty x = none ∧ (s.mark x ≤ startMark → w.checkSources x = .ok ())
  follows : ∀ x d, s.mark x ≠ mark → s'.mark x = mark → Follows w x d →
    s'.mark d = mark ∧ s.dirty d = none

namespace Moves

variable {s s' s'' : State Module}

omit [DecidableEq Module] in
theorem refl (mark : Nat) (s : State Module) : Moves mark s s :=
  ⟨rfl, rfl, fun _ => Or.inl rfl, fun _ _ found => found⟩

omit [DecidableEq Module] in
theorem trans (first : Moves mark s s') (second : Moves mark s' s'') : Moves mark s s'' where
  markLoop := second.markLoop.trans first.markLoop
  compilationMark := second.compilationMark.trans first.compilationMark
  marks x := by
    rcases second.marks x with same | marked
    · rw [same]
      exact first.marks x
    · exact Or.inr marked
  dirty x p found := second.dirty x p (first.dirty x p found)

omit [DecidableEq Module] in
theorem marked (moves : Moves mark s s') {x : Module} (before : s.mark x = mark) :
    s'.mark x = mark := by
  rcases moves.marks x with same | marked
  · rw [same, before]
  · exact marked

theorem setMark (s : State Module) (m : Module) : Moves mark s (s.setMark m mark) where
  markLoop := rfl
  compilationMark := rfl
  marks x := by
    unfold State.setMark
    dsimp only
    split
    · exact Or.inr rfl
    · exact Or.inl rfl
  dirty _ _ found := found

theorem setDirty {m : Module} (clean : s.dirty m = none) (moves : Moves mark s s')
    (path : Module) : Moves mark s (s'.setDirty m path) where
  markLoop := moves.markLoop
  compilationMark := moves.compilationMark
  marks := moves.marks
  dirty x p found := by
    unfold State.setDirty
    dsimp only
    rw [if_neg]
    · exact moves.dirty x p found
    · rintro rfl
      rw [clean] at found
      cases found

end Moves

namespace Sound

variable {s s' s'' : State Module}

omit [DecidableEq Module] in
theorem refl (w : World Module Decls) (s : State Module) : Sound w s s :=
  fun x _ found => ⟨x, .refl, Or.inl found⟩

omit [DecidableEq Module] in
theorem trans (first : Sound w s s') (second : Sound w s' s'') : Sound w s s'' := by
  intro x p found
  obtain ⟨y, reached, origin⟩ := second x p found
  rcases origin with dirty | changed
  · obtain ⟨z, further, origin⟩ := first y p dirty
    exact ⟨z, reached.trans further, origin⟩
  · exact ⟨y, reached, Or.inr changed⟩

theorem setDirty {m path : Module} (sound : Sound w s s') (origin : ∃ y, Reaches w m y ∧
    (s.dirty y = some path ∨ w.checkSources y = .error .notFound ∧ path = y)) :
    Sound w s (s'.setDirty m path) := by
  intro x p found
  unfold State.setDirty at found
  dsimp only at found
  split at found
  · rename_i same
    obtain rfl := Option.some.inj found
    rw [same]
    exact origin
  · exact sound x p found

end Sound

namespace Closed

variable {s s' s'' : State Module}

omit [DecidableEq Module] in
theorem refl (w : World Module Decls) (mark startMark : Nat) (s : State Module) :
    Closed w mark startMark s s where
  dirty := rfl
  clean _ unmarked marked := absurd marked unmarked
  follows _ _ unmarked marked := absurd marked unmarked

omit [DecidableEq Module] in
theorem trans (first : Closed w mark startMark s s') (second : Closed w mark startMark s' s'')
    (moves : Moves mark s s') (moves' : Moves mark s' s'') :
    Closed w mark startMark s s'' where
  dirty := second.dirty.trans first.dirty
  clean x unmarked marked := by
    by_cases between : s'.mark x = mark
    · exact first.clean x unmarked between
    · have same := (moves.marks x).resolve_right between
      have clean := second.clean x between marked
      rw [first.dirty, same] at clean
      exact clean
  follows x d unmarked marked follows := by
    by_cases between : s'.mark x = mark
    · obtain ⟨at', clean⟩ := first.follows x d unmarked between follows
      exact ⟨moves'.marked at', clean⟩
    · have reached := second.follows x d between marked follows
      rw [first.dirty] at reached
      exact reached

end Closed

theorem Settled.setMark {s : State Module} {m : Module} (settled : Settled w startMark s)
    (unchanged : startMark < mark → w.checkSources m = .error .notFound → s.dirty m ≠ none) :
    Settled w startMark (s.setMark m mark) := by
  intro x late changed
  unfold State.setMark at late ⊢
  dsimp only at late ⊢
  split at late
  · rename_i same
    rw [same] at changed ⊢
    exact unchanged late changed
  · exact settled x late changed

theorem Settled.setDirty {s : State Module} (settled : Settled w startMark s) (m path : Module) :
    Settled w startMark (s.setDirty m path) := by
  intro x late changed
  unfold State.setDirty
  dsimp only
  split
  · exact Option.some_ne_none path
  · exact settled x late changed

section

variable [Fintype Module]

/-- The modules that the check can still mark. -/
def unmarked (mark : Nat) (s : State Module) : Nat :=
  (Finset.univ.filter fun x => s.mark x ≠ mark).card

omit [DecidableEq Module] in
theorem Moves.unmarked_le {s s' : State Module} (moves : Moves mark s s') :
    unmarked mark s' ≤ unmarked mark s := by
  apply Finset.card_le_card
  intro x member
  rw [Finset.mem_filter] at member ⊢
  exact ⟨member.1, fun before => member.2 (moves.marked before)⟩

theorem unmarked_setMark {s : State Module} {m : Module} (new : s.mark m ≠ mark) :
    unmarked mark (s.setMark m mark) < unmarked mark s := by
  apply Finset.card_lt_card
  rw [Finset.ssubset_iff_of_subset]
  · refine ⟨m, ?_, ?_⟩
    · rw [Finset.mem_filter]
      exact ⟨Finset.mem_univ m, new⟩
    · simp [State.setMark]
  · intro x member
    rw [Finset.mem_filter] at member ⊢
    refine ⟨member.1, fun before => member.2 ?_⟩
    exact (Moves.setMark s m).marked before

/-- A check whose exception is not handled, of a module that is not marked in this compilation. -/
def Raises (w : World Module Decls) (startMark : Nat) (s : State Module) (m : Module) : Prop :=
  ∃ y, Reaches w m y ∧ w.checkSources y = .error .other ∧ s.mark y ≤ startMark

/-- What a check of a module leaves. -/
structure Checked (w : World Module Decls) (mark startMark fuel : Nat) (s : State Module)
    (m : Module) (r : Answer Module × State Module) : Prop where
  moves : Moves mark s r.2
  sound : Sound w s r.2
  settled : Settled w startMark s → Settled w startMark r.2
  reusable : r.1 = .reusable →
    Closed w mark startMark s r.2 ∧ r.2.mark m = mark ∧ s.dirty m = none
  dirty : ∀ p, r.1 = .dirty p → r.2.dirty m = some p
  raised : r.1 = .raised → Raises w startMark s m
  fuel : unmarked mark s < fuel → r.1 ≠ .outOfFuel

/-- What the checks of a list of modules leave. -/
structure AllChecked (w : World Module Decls) (mark startMark fuel : Nat) (s : State Module)
    (deps : List Module) (r : Answer Module × State Module) : Prop where
  moves : Moves mark s r.2
  sound : Sound w s r.2
  settled : Settled w startMark s → Settled w startMark r.2
  reusable : r.1 = .reusable →
    Closed w mark startMark s r.2 ∧ ∀ d ∈ deps, r.2.mark d = mark ∧ s.dirty d = none
  dirty : ∀ p, r.1 = .dirty p → ∃ d ∈ deps, r.2.dirty d = some p
  raised : r.1 = .raised → ∃ d ∈ deps, Raises w startMark s d
  fuel : unmarked mark s < fuel → r.1 ≠ .outOfFuel

omit [DecidableEq Module] [Fintype Module] in
theorem Raises.of_moves {s s' : State Module} {m : Module} (current : startMark < mark)
    (moves : Moves mark s s') (raises : Raises w startMark s' m) : Raises w startMark s m := by
  obtain ⟨y, reached, raised, early⟩ := raises
  refine ⟨y, reached, raised, ?_⟩
  rcases moves.marks y with same | marked
  · rw [← same]
    exact early
  · omega

omit [DecidableEq Module] in
theorem checkDependencies_spec {fuel : Nat} (current : startMark < mark)
    {one : Module → State Module → Answer Module × State Module}
    (each : ∀ m s, Checked w mark startMark fuel s m (one m s)) (deps : List Module)
    (s : State Module) :
    AllChecked w mark startMark fuel s deps (checkDependencies one deps s) := by
  induction deps generalizing s with
  | nil =>
    exact ⟨.refl mark s, .refl w s, id,
      fun _ => ⟨.refl w mark startMark s, fun d none => absurd none List.not_mem_nil⟩,
      fun p impossible => absurd impossible (by simp [checkDependencies]),
      fun impossible => absurd impossible (by simp [checkDependencies]),
      fun _ => by simp [checkDependencies]⟩
  | cons m2 deps ih =>
    have first := each m2 s
    rw [checkDependencies]
    generalize one m2 s = r at first ⊢
    obtain ⟨answer, s'⟩ := r
    cases answer with
    | reusable =>
      have rest := ih s'
      obtain ⟨closed, marked, clean⟩ := first.reusable rfl
      refine ⟨first.moves.trans rest.moves, first.sound.trans rest.sound,
        fun settled => rest.settled (first.settled settled), fun answer => ?_, fun p answer => ?_,
        fun answer => ?_, fun enough => ?_⟩
      · obtain ⟨closed', others⟩ := rest.reusable answer
        refine ⟨closed.trans closed' first.moves rest.moves, fun d member => ?_⟩
        rcases List.mem_cons.mp member with rfl | other
        · exact ⟨rest.moves.marked marked, clean⟩
        · have both := others d other
          rw [closed.dirty] at both
          exact both
      · obtain ⟨d, member, dirty⟩ := rest.dirty p answer
        exact ⟨d, List.mem_cons_of_mem _ member, dirty⟩
      · obtain ⟨d, member, raises⟩ := rest.raised answer
        exact ⟨d, List.mem_cons_of_mem _ member, raises.of_moves current first.moves⟩
      · exact rest.fuel (Nat.lt_of_le_of_lt first.moves.unmarked_le enough)
    | dirty path =>
      exact ⟨first.moves, first.sound, first.settled, fun answer => absurd answer (by simp),
        fun p answer => ⟨m2, List.mem_cons_self, first.dirty p answer⟩,
        fun answer => absurd answer (by simp), fun _ => by simp⟩
    | raised =>
      exact ⟨first.moves, first.sound, first.settled, fun answer => absurd answer (by simp),
        fun p answer => absurd answer (by simp),
        fun answer => ⟨m2, List.mem_cons_self, first.raised answer⟩, fun _ => by simp⟩
    | outOfFuel =>
      exact ⟨first.moves, first.sound, first.settled, fun answer => absurd answer (by simp),
        fun p answer => absurd answer (by simp), fun answer => absurd answer (by simp), first.fuel⟩

omit [DecidableEq Module] [Fintype Module] in
theorem Raises.of_follows {s : State Module} {m d : Module} (follows : Follows w m d)
    (raises : Raises w startMark s d) : Raises w startMark s m := by
  obtain ⟨y, reached, rest⟩ := raises
  exact ⟨y, .head follows reached, rest⟩

omit [Fintype Module] in
/-- The sources of a module are checked when it is marked for the first time in a compilation. -/
theorem settled_mark {s : State Module} {m : Module} {answer : Except Failure Unit}
    (once : (if s.mark m ≤ startMark then w.checkSources m else .ok ()) = answer)
    (unchanged : answer ≠ .error .notFound) (settled : Settled w startMark s) :
    Settled w startMark (s.setMark m mark) := by
  apply settled.setMark
  intro _ changed
  by_cases early : s.mark m ≤ startMark
  · rw [if_pos early] at once
    exact absurd (once.symm.trans changed) unchanged
  · exact settled m (by omega) changed

omit [DecidableEq Module] [Fintype Module] in
theorem failed_once {s : State Module} {m : Module} {failure : Failure}
    (once : (if s.mark m ≤ startMark then w.checkSources m else .ok ()) = .error failure) :
    s.mark m ≤ startMark ∧ w.checkSources m = .error failure := by
  by_cases early : s.mark m ≤ startMark
  · rw [if_pos early] at once
    exact ⟨early, once⟩
  · rw [if_neg early] at once
    cases once

omit [Fintype Module] in
/-- The module itself beside what the checks of its dependencies leave. -/
theorem Closed.of_setMark {s s' : State Module} {m : Module} (clean : s.dirty m = none)
    (once : (if s.mark m ≤ startMark then w.checkSources m else .ok ()) = .ok ())
    (closed : Closed w mark startMark (s.setMark m mark) s')
    (reached : ∀ d, Follows w m d → s'.mark d = mark ∧ s.dirty d = none) :
    Closed w mark startMark s s' := by
  have kept : ∀ x, x ≠ m → (s.setMark m mark).mark x = s.mark x := fun x other => if_neg other
  refine ⟨closed.dirty, fun x before after => ?_, fun x d before after follows => ?_⟩
  · by_cases same : x = m
    · rw [same]
      refine ⟨clean, fun early => ?_⟩
      rw [if_pos early] at once
      exact once
    · have rest := closed.clean x (by rw [kept x same]; exact before) after
      rw [kept x same] at rest
      exact rest
  · by_cases same : x = m
    · rw [same] at follows
      exact reached d follows
    · exact closed.follows x d (by rw [kept x same]; exact before) after follows

namespace Checked

variable {s : State Module} {m : Module} {fuel : Nat}

omit [DecidableEq Module] in
theorem of_dirty {path : Module} (dirty : s.dirty m = some path) :
    Checked w mark startMark (fuel + 1) s m (.dirty path, s) where
  moves := .refl mark s
  sound := .refl w s
  settled := id
  reusable answer := absurd answer (by simp)
  dirty p answer := by
    rw [← Answer.dirty.inj answer]
    exact dirty
  raised answer := absurd answer (by simp)
  fuel _ := by simp

omit [DecidableEq Module] in
theorem of_marked (clean : s.dirty m = none) (marked : s.mark m = mark) :
    Checked w mark startMark (fuel + 1) s m (.reusable, s) where
  moves := .refl mark s
  sound := .refl w s
  settled := id
  reusable _ := ⟨.refl w mark startMark s, marked, clean⟩
  dirty p answer := absurd answer (by simp)
  raised answer := absurd answer (by simp)
  fuel _ := by simp

theorem of_changed (clean : s.dirty m = none)
    (once : (if s.mark m ≤ startMark then w.checkSources m else .ok ()) = .error .notFound) :
    Checked w mark startMark (fuel + 1) s m (.dirty m, (s.setMark m mark).setDirty m m) where
  moves := (Moves.setMark s m).setDirty clean m
  sound := by
    refine Sound.setDirty ?_ ⟨m, .refl, Or.inr ⟨(failed_once once).2, rfl⟩⟩
    exact fun x p found => ⟨x, .refl, Or.inl found⟩
  settled settled := by
    intro x late changed
    unfold State.setDirty
    dsimp only
    split
    · exact Option.some_ne_none m
    · rename_i other
      unfold State.setDirty State.setMark at late
      dsimp only at late
      rw [if_neg other] at late
      exact settled x late changed
  reusable answer := absurd answer (by simp)
  dirty p answer := by
    rw [← Answer.dirty.inj answer]
    exact if_pos rfl
  raised answer := absurd answer (by simp)
  fuel _ := by simp

theorem of_raised
    (once : (if s.mark m ≤ startMark then w.checkSources m else .ok ()) = .error .other) :
    Checked w mark startMark (fuel + 1) s m (.raised, s.setMark m mark) where
  moves := .setMark s m
  sound x p found := ⟨x, .refl, Or.inl found⟩
  settled := settled_mark once (by simp)
  reusable answer := absurd answer (by simp)
  dirty p answer := absurd answer (by simp)
  raised _ := ⟨m, .refl, (failed_once once).2, (failed_once once).1⟩
  fuel _ := by simp

theorem of_unfollowed (clean : s.dirty m = none)
    (once : (if s.mark m ≤ startMark then w.checkSources m else .ok ()) = .ok ())
    (policy : w.hasPolicy m .noCheckDependencies = true) :
    Checked w mark startMark (fuel + 1) s m (.reusable, s.setMark m mark) where
  moves := .setMark s m
  sound x p found := ⟨x, .refl, Or.inl found⟩
  settled := settled_mark once (by simp)
  reusable _ := by
    refine ⟨(Closed.refl w mark startMark _).of_setMark clean once fun d follows => ?_,
      if_pos rfl, clean⟩
    have followed := follows.2
    rw [policy] at followed
    cases followed
  dirty p answer := absurd answer (by simp)
  raised answer := absurd answer (by simp)
  fuel _ := by simp

/-- The dependencies, with fuel for one call less. -/
theorem of_followed (current : startMark < mark) (clean : s.dirty m = none)
    (new : s.mark m ≠ mark)
    (once : (if s.mark m ≤ startMark then w.checkSources m else .ok ()) = .ok ())
    (policy : w.hasPolicy m .noCheckDependencies = false)
    {r : Answer Module × State Module}
    (deps : AllChecked w mark startMark fuel (s.setMark m mark) (w.extra m).deps r) :
    Checked w mark startMark (fuel + 1) s m (handleDirty m r) := by
  have step : Moves mark s (s.setMark m mark) := .setMark s m
  have enough : unmarked mark s < fuel + 1 → unmarked mark (s.setMark m mark) < fuel :=
    fun enough => Nat.lt_of_lt_of_le (unmarked_setMark new) (Nat.lt_succ_iff.mp enough)
  have settled : Settled w startMark s → Settled w startMark r.2 :=
    fun settled => deps.settled (settled_mark once (by simp) settled)
  obtain ⟨answer, s'⟩ := r
  cases answer with
  | dirty path =>
    obtain ⟨d, member, dirty⟩ := deps.dirty path rfl
    obtain ⟨y, reached, origin⟩ := deps.sound d path dirty
    unfold handleDirty
    exact {
      moves := (step.trans deps.moves).setDirty clean path
      sound := Sound.setDirty deps.sound ⟨y, .head ⟨member, policy⟩ reached, origin⟩
      settled := fun before => (settled before).setDirty m path
      reusable := fun answer => absurd answer (by simp)
      dirty := fun p answer => by
        rw [← Answer.dirty.inj answer]
        exact if_pos rfl
      raised := fun answer => absurd answer (by simp)
      fuel := fun _ => by simp }
  | reusable =>
    unfold handleDirty
    exact {
      moves := step.trans deps.moves
      sound := deps.sound
      settled := settled
      reusable := fun answer => by
        obtain ⟨closed, reached⟩ := deps.reusable rfl
        exact ⟨closed.of_setMark clean once fun d follows => reached d follows.1,
          deps.moves.marked (if_pos rfl), clean⟩
      dirty := fun p answer => absurd answer (by simp)
      raised := fun answer => absurd answer (by simp)
      fuel := fun _ => by simp }
  | raised =>
    unfold handleDirty
    exact {
      moves := step.trans deps.moves
      sound := deps.sound
      settled := settled
      reusable := fun answer => absurd answer (by simp)
      dirty := fun p answer => absurd answer (by simp)
      raised := fun _ => by
        obtain ⟨d, member, raises⟩ := deps.raised rfl
        exact (raises.of_moves current step).of_follows ⟨member, policy⟩
      fuel := fun _ => by simp }
  | outOfFuel =>
    unfold handleDirty
    exact {
      moves := step.trans deps.moves
      sound := deps.sound
      settled := settled
      reusable := fun answer => absurd answer (by simp)
      dirty := fun p answer => absurd answer (by simp)
      raised := fun answer => absurd answer (by simp)
      fuel := fun small => deps.fuel (enough small) }

end Checked

theorem check_spec (current : startMark < mark) (fuel : Nat) (m : Module) (s : State Module) :
    Checked w mark startMark fuel s m (check w mark startMark fuel m s) := by
  induction fuel generalizing m s with
  | zero =>
    exact ⟨.refl mark s, .refl w s, id, fun answer => absurd answer (by simp [check]),
      fun p answer => absurd answer (by simp [check]),
      fun answer => absurd answer (by simp [check]), fun enough => absurd enough (by omega)⟩
  | succ fuel ih =>
    rw [check]
    cases clean : s.dirty m with
    | some path => exact .of_dirty clean
    | none =>
      by_cases marked : s.mark m = mark
      · simp only [if_pos marked]
        exact .of_marked clean marked
      · simp only [if_neg marked]
        cases once : (if s.mark m ≤ startMark then w.checkSources m else .ok ()) with
        | error failure =>
          cases failure with
          | notFound => exact .of_changed clean once
          | other => exact .of_raised once
        | ok =>
          dsimp only
          cases policy : w.hasPolicy m .noCheckDependencies with
          | true =>
            rw [if_pos rfl]
            exact .of_unfollowed clean once policy
          | false =>
            rw [if_neg Bool.false_ne_true]
            exact .of_followed current clean marked once policy
              (checkDependencies_spec current ih (w.extra m).deps (s.setMark m mark))

end

end Haxe.Source.Server
