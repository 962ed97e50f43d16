import Haxe.Source.Compiler.ServerChecks

/-!
# Requests of a compilation

What a sequence of requests keeps from the start of a compilation on, and what a check answers
in a state that such a sequence reaches.
-/

namespace Haxe.Source.Server

open Relation

variable {Module Decls : Type} [DecidableEq Module] [DecidableEq Decls]
variable {w : World Module Decls}

/-- No mark is ahead of the counter, and a changed module that is marked is dirty. -/
structure Ready (w : World Module Decls) (s : State Module) : Prop where
  marks : ∀ x, s.mark x ≤ s.markLoop
  begun : s.compilationMark ≤ s.markLoop
  settled : Settled w s.compilationMark s

/-- A later state of the same compilation. -/
structure Continues (w : World Module Decls) (s s' : State Module) : Prop where
  compilationMark : s'.compilationMark = s.compilationMark
  sound : Sound w s s'
  dirty : ∀ x p, s.dirty x = some p → s'.dirty x = some p

omit [DecidableEq Module] in
theorem Continues.refl (w : World Module Decls) (s : State Module) : Continues w s s :=
  ⟨rfl, .refl w s, fun _ _ found => found⟩

omit [DecidableEq Module] in
theorem Continues.trans {s s' s'' : State Module} (first : Continues w s s')
    (second : Continues w s' s'') : Continues w s s'' where
  compilationMark := second.compilationMark.trans first.compilationMark
  sound := first.sound.trans second.sound
  dirty x p found := second.dirty x p (first.dirty x p found)

/-- Whether a module is to be checked does not depend on what was added. -/
structure SameMarks (s s' : State Module) : Prop where
  markLoop : s'.markLoop = s.markLoop
  compilationMark : s'.compilationMark = s.compilationMark
  mark : s'.mark = s.mark
  dirty : s'.dirty = s.dirty

omit [DecidableEq Decls] in
theorem addModules_same (w : World Module Decls) (m0 : Module) (fuel : Nat) (m : Module)
    (s : State Module) : SameMarks s (addModules w m0 fuel m s) := by
  induction fuel generalizing m s with
  | zero => exact ⟨rfl, rfl, rfl, rfl⟩
  | succ fuel ih =>
    have all : ∀ (deps : List Module) (s : State Module),
        SameMarks s (deps.foldl (fun s m2 => addModules w m0 fuel m2 s) s) := by
      intro deps
      induction deps with
      | nil => exact fun s => ⟨rfl, rfl, rfl, rfl⟩
      | cons d deps rest =>
        intro s
        have first := ih d s
        have others := rest (addModules w m0 fuel d s)
        exact ⟨others.markLoop.trans first.markLoop,
          others.compilationMark.trans first.compilationMark, others.mark.trans first.mark,
          others.dirty.trans first.dirty⟩
    have added := all (w.extra m).deps (s.setAdded m)
    rw [addModules]
    split
    · split
      · exact ⟨rfl, rfl, rfl, rfl⟩
      · exact ⟨rfl, rfl, rfl, rfl⟩
      · exact ⟨added.markLoop, added.compilationMark, added.mark, added.dirty⟩
    · exact ⟨rfl, rfl, rfl, rfl⟩

omit [DecidableEq Module] in
theorem Ready.of_same {s s' : State Module} (ready : Ready w s) (same : SameMarks s s') :
    Ready w s' where
  marks x := by
    rw [same.mark, same.markLoop]
    exact ready.marks x
  begun := by
    rw [same.compilationMark, same.markLoop]
    exact ready.begun
  settled := by
    unfold Settled
    rw [same.compilationMark, same.mark, same.dirty]
    exact ready.settled

omit [DecidableEq Module] in
theorem Continues.of_same {s s' : State Module} (same : SameMarks s s') : Continues w s s' where
  compilationMark := same.compilationMark
  sound x _ found := ⟨x, .refl, Or.inl (same.dirty ▸ found)⟩
  dirty _ _ found := same.dirty ▸ found

omit [DecidableEq Module] in
theorem Ready.nextMark {s : State Module} (ready : Ready w s) : Ready w s.nextMark where
  marks x := Nat.le_succ_of_le (ready.marks x)
  begun := Nat.le_succ_of_le ready.begun
  settled := ready.settled

variable [Fintype Module]

theorem checkModule_spec {s : State Module} (ready : Ready w s) (m : Module) :
    Checked w s.nextMark.markLoop s.compilationMark (Fintype.card Module + 1) s.nextMark m
      (checkModule w m s.nextMark) :=
  check_spec (Nat.lt_succ_of_le ready.begun) _ m _

theorem ready_checkModule {s : State Module} (ready : Ready w s) (m : Module) :
    Ready w (checkModule w m s.nextMark).2 ∧ Continues w s (checkModule w m s.nextMark).2 := by
  have checked := checkModule_spec ready m
  have moves := checked.moves
  refine ⟨⟨fun x => ?_, ?_, ?_⟩, moves.compilationMark, checked.sound, moves.dirty⟩
  · rw [moves.markLoop]
    rcases moves.marks x with same | marked
    · rw [same]
      exact ready.nextMark.marks x
    · exact Nat.le_of_eq marked
  · rw [moves.markLoop, moves.compilationMark]
    exact ready.nextMark.begun
  · rw [moves.compilationMark]
    exact checked.settled ready.settled

theorem ready_typeModule {s : State Module} (ready : Ready w s) (found : Option Module) :
    Ready w (typeModule w found s).2 ∧ Continues w s (typeModule w found s).2 := by
  cases found with
  | none => exact ⟨ready.nextMark, rfl, .refl w s, fun _ _ found => found⟩
  | some m =>
    obtain ⟨after, continues⟩ := ready_checkModule ready m
    unfold typeModule
    dsimp only
    generalize checkModule w m s.nextMark = r at after continues ⊢
    obtain ⟨answer, s'⟩ := r
    cases answer with
    | reusable =>
      have same := addModules_same w m (Fintype.card Module + 1) m s'
      exact ⟨after.of_same same, continues.trans (.of_same same)⟩
    | dirty path => exact ⟨after, continues⟩
    | raised => exact ⟨after, continues⟩
    | outOfFuel => exact ⟨after, continues⟩

/-- What a sequence of requests keeps. -/
theorem ready_requests {s : State Module} (ready : Ready w s) (found : List (Option Module)) :
    Ready w (requests w s found) ∧ Continues w s (requests w s found) := by
  induction found generalizing s with
  | nil => exact ⟨ready, .refl w s⟩
  | cons first found ih =>
    obtain ⟨after, continues⟩ := ready_typeModule ready first
    obtain ⟨final, rest⟩ := ih after
    exact ⟨final, continues.trans rest⟩

theorem checkModule_ends {s : State Module} (ready : Ready w s) (m : Module) :
    (checkModule w m s.nextMark).1 ≠ .outOfFuel := by
  apply (checkModule_spec ready m).fuel
  exact Nat.lt_succ_of_le (Finset.card_filter_le _ _)

/-- All modules that are reached are marked by a check that ends well. -/
theorem reached_marked {s : State Module} (ready : Ready w s) {m x : Module}
    (answer : (checkModule w m s.nextMark).1 = .reusable) (reached : Reaches w m x) :
    (checkModule w m s.nextMark).2.mark x = s.nextMark.markLoop ∧ s.dirty x = none := by
  obtain ⟨closed, marked, clean⟩ := (checkModule_spec ready m).reusable answer
  induction reached with
  | refl => exact ⟨marked, clean⟩
  | tail _ follows ih =>
    exact closed.follows _ _ (Nat.ne_of_lt (Nat.lt_succ_of_le (ready.marks _))) ih.1 follows

/-- A module can be reused exactly if no module that is reached is dirty, and each one's sources
are unchanged or their check, made earlier in the compilation, has raised. -/
theorem checkModule_reusable_iff {s : State Module} (ready : Ready w s) (m : Module) :
    (checkModule w m s.nextMark).1 = .reusable ↔ ∀ x, Reaches w m x → s.dirty x = none ∧
      (w.checkSources x = .ok () ∨
        w.checkSources x = .error .other ∧ s.compilationMark < s.mark x) := by
  have checked := checkModule_spec ready m
  constructor
  · intro answer x reached
    obtain ⟨marked, clean⟩ := reached_marked ready answer reached
    refine ⟨clean, ?_⟩
    have before : s.nextMark.mark x ≠ s.nextMark.markLoop :=
      Nat.ne_of_lt (Nat.lt_succ_of_le (ready.marks x))
    have unchanged := ((checked.reusable answer).1.clean x before marked).2
    by_cases early : s.mark x ≤ s.compilationMark
    · exact Or.inl (unchanged early)
    · cases sources : w.checkSources x with
      | ok => exact Or.inl rfl
      | error failure =>
        cases failure with
        | notFound => exact absurd clean (ready.settled x (by omega) sources)
        | other => exact Or.inr ⟨rfl, by omega⟩
  · intro all
    cases answer : (checkModule w m s.nextMark).1 with
    | reusable => rfl
    | outOfFuel => exact absurd answer (checkModule_ends ready m)
    | dirty path =>
      obtain ⟨y, reached, origin⟩ := checked.sound m path (checked.dirty path answer)
      obtain ⟨clean, sources⟩ := all y reached
      rcases origin with dirty | ⟨changed, -⟩
      · rw [show s.nextMark.dirty y = s.dirty y from rfl, clean] at dirty
        cases dirty
      · rw [changed] at sources
        simp at sources
    | raised =>
      obtain ⟨y, reached, raised, early⟩ := checked.raised answer
      obtain ⟨-, sources⟩ := all y reached
      rw [raised] at sources
      rcases sources with unchanged | ⟨-, late⟩
      · cases unchanged
      · exact absurd late (Nat.not_lt.mpr early)

/-- The start of a compilation, which takes the counter as the mark to compare with. -/
structure Compilation (Module : Type) where
  state : State Module
  begun : state.compilationMark = state.markLoop
  marks : ∀ x, state.mark x ≤ state.markLoop

namespace Compilation

/-- The first compilation of a server. -/
def first : Compilation Module where
  state := ⟨0, 1, 0, fun _ => 0, fun _ => none, fun _ => 0⟩
  begun := rfl
  marks _ := Nat.le_refl 0

omit [DecidableEq Module] [Fintype Module] in
theorem ready (c : Compilation Module) : Ready w c.state where
  marks := c.marks
  begun := Nat.le_of_eq c.begun
  settled x late _ := absurd (c.marks x) (by rw [← c.begun]; omega)

/-- The compilation after some requests. Meanwhile modules were typed anew, and modules of changed
files were made dirty. -/
def next (w : World Module Decls) (c : Compilation Module) (found : List (Option Module))
    (retyped tainted : Module → Bool) : Compilation Module where
  state :=
    let s := requests w c.state found
    { s with
      compilationStep := s.compilationStep + 1
      compilationMark := s.markLoop
      mark := fun x => if retyped x then 0 else s.mark x
      dirty := fun x => if tainted x then some x else if retyped x then none else s.dirty x }
  begun := rfl
  marks x := by
    have marks := (ready_requests (c.ready (w := w)) found).1.marks x
    dsimp only
    split
    · exact Nat.zero_le _
    · exact marks

end Compilation

end Haxe.Source.Server
