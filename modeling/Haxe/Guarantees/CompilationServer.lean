import Haxe.Source.Compiler.ServerRequests

/-!
# Reuse of modules by the compilation server

Whatever the requests of a compilation were before, a module is reusable exactly if no module
that it reaches has changed or is dirty, unless a check has raised an exception that it does not
handle: the module keeps the mark of a checked one, and its next check passes.
-/

namespace Haxe.Guarantees.CompilationServer

open Source.Server

variable {Module Decls : Type} [DecidableEq Module] [DecidableEq Decls] [Fintype Module]

/-- No module that is reached was dirty at the start or has changed. -/
def Unchanged (w : World Module Decls) (c : Compilation Module) (m : Module) : Prop :=
  ∀ x, Reaches w m x → c.state.dirty x = none ∧ w.checkSources x = .ok ()

/-- Every module that is reached has a check without an unhandled exception; or one of them makes
the module dirty, or raises now for the first time in the compilation. -/
def Handled (w : World Module Decls) (c : Compilation Module) (s : State Module) (m : Module) :
    Prop :=
  (∀ x, Reaches w m x → w.checkSources x ≠ .error .other) ∨
    ∃ x, Reaches w m x ∧ (c.state.dirty x ≠ none ∨ w.checkSources x = .error .notFound ∨
      w.checkSources x = .error .other ∧ s.mark x ≤ c.state.compilationMark)

/-- What a check answers after some requests, by the state at the start. -/
theorem answer_iff (w : World Module Decls) (c : Compilation Module)
    (found : List (Option Module)) (m : Module) :
    (checkModule w m (requests w c.state found).nextMark).1 = .reusable ↔
      ∀ x, Reaches w m x → c.state.dirty x = none ∧ (w.checkSources x = .ok () ∨
        w.checkSources x = .error .other ∧
          c.state.compilationMark < (requests w c.state found).mark x) := by
  obtain ⟨ready, continues⟩ := ready_requests (c.ready (w := w)) found
  rw [checkModule_reusable_iff ready, continues.compilationMark]
  constructor
  · intro all x reached
    obtain ⟨clean, sources⟩ := all x reached
    refine ⟨?_, sources⟩
    cases before : c.state.dirty x with
    | none => rfl
    | some p =>
      rw [continues.dirty x p before] at clean
      cases clean
  · intro all x reached
    refine ⟨?_, (all x reached).2⟩
    cases after : (requests w c.state found).dirty x with
    | none => rfl
    | some p =>
      obtain ⟨y, further, origin⟩ := continues.sound x p after
      obtain ⟨clean, sources⟩ := all y (reached.trans further)
      rcases origin with dirty | ⟨changed, -⟩
      · rw [clean] at dirty
        cases dirty
      · rw [changed] at sources
        simp at sources

theorem reuse_iff (w : World Module Decls) (c : Compilation Module)
    (found : List (Option Module)) (m : Module) :
    ((((checkModule w m (requests w c.state found).nextMark).1 = .reusable) ↔
        Unchanged w c m) ↔ Handled w c (requests w c.state found) m) ∧
    (∀ x, Reaches w m x → (requests w c.state found).dirty x ≠ none →
      (checkModule w m (requests w c.state found).nextMark).1 ≠ .reusable) ∧
    (∀ p, (checkModule w m (requests w c.state found).nextMark).1 = .dirty p →
      ∃ y, Reaches w m y ∧
        (c.state.dirty y = some p ∨ w.checkSources y = .error .notFound ∧ p = y)) ∧
    ((checkModule w m (requests w c.state found).nextMark).1 = .raised →
      ∃ y, Reaches w m y ∧ w.checkSources y = .error .other) ∧
    (checkModule w m (requests w c.state found).nextMark).1 ≠ .outOfFuel := by
  obtain ⟨ready, continues⟩ := ready_requests (c.ready (w := w)) found
  have checked := checkModule_spec ready m
  have exact' := answer_iff w c found m
  refine ⟨?_, ?_, ?_, ?_, checkModule_ends ready m⟩
  · rw [exact']
    constructor
    · intro property
      by_contra unhandled
      obtain ⟨raises, quiet⟩ := not_or.mp unhandled
      obtain ⟨x, further⟩ := not_forall.mp raises
      obtain ⟨reached, raised⟩ := Classical.not_imp.mp further
      have reused : Unchanged w c m := by
        refine property.mp fun y toY => ?_
        have silent := fun cause => quiet ⟨y, toY, cause⟩
        refine ⟨by_contra fun dirty => silent (Or.inl dirty), ?_⟩
        cases sources : w.checkSources y with
        | ok => exact Or.inl rfl
        | error failure =>
          cases failure with
          | notFound => exact absurd (Or.inr (Or.inl sources)) silent
          | other =>
            refine Or.inr ⟨rfl, ?_⟩
            by_contra early
            exact silent (Or.inr (Or.inr ⟨sources, Nat.not_lt.mp early⟩))
      apply raised
      intro raised
      have unchanged := (reused x reached).2
      rw [raised] at unchanged
      cases unchanged
    · intro handled
      constructor
      · intro all x reached
        obtain ⟨clean, sources⟩ := all x reached
        refine ⟨clean, ?_⟩
        rcases handled with quiet | ⟨y, toY, cause⟩
        · exact sources.resolve_right fun raised => quiet x reached raised.1
        · obtain ⟨clean', sources'⟩ := all y toY
          rcases cause with dirty | changed | ⟨raised, early⟩
          · exact absurd clean' dirty
          · rw [changed] at sources'
            simp at sources'
          · rw [raised] at sources'
            rcases sources' with impossible | ⟨-, late⟩
            · cases impossible
            · exact absurd late (Nat.not_lt.mpr early)
      · intro unchanged x reached
        exact ⟨(unchanged x reached).1, Or.inl (unchanged x reached).2⟩
  · intro x reached dirty answer
    exact dirty (reached_marked ready answer reached).2
  · intro p answer
    obtain ⟨y, reached, origin⟩ := checked.sound m p (checked.dirty p answer)
    rcases origin with dirty | changed
    · obtain ⟨z, further, first⟩ := continues.sound y p dirty
      exact ⟨z, reached.trans further, first⟩
    · exact ⟨y, reached, Or.inr changed⟩
  · intro answer
    obtain ⟨y, reached, raised, -⟩ := checked.raised answer
    exact ⟨y, reached, raised⟩

/-- One module whose content is to be checked, and whose file has changed to one that does not
parse. -/
def unparsed : World Unit String where
  extra _ := ⟨.mCode, 1, [.checkFileContentModification], []⟩
  inMacro := false
  complete := true
  doNotCheckModules := false
  displayMode := false
  isHaxe _ := true
  fileTime _ := 2
  shadowTimes _ _ := []
  loadExternType _ := []
  cachedDecls _ := some "class Main"
  parseModule _ := .error .other

/-- The first request raises, and the second one reuses the module of the old file. -/
theorem unparsed_reused :
    (checkModule unparsed () (@Compilation.first Unit).state.nextMark).1 = .raised ∧
    (checkModule unparsed ()
      (requests unparsed Compilation.first.state [some ()]).nextMark).1 = .reusable ∧
    ¬ Unchanged unparsed Compilation.first () := by
  refine ⟨by decide +kernel, by decide +kernel, fun unchanged => ?_⟩
  have sources := (unchanged () .refl).2
  exact absurd sources (by decide +kernel)

end Haxe.Guarantees.CompilationServer
