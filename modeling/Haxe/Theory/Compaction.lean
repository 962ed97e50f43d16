import Mathlib.Data.List.Basic

/-!
# Compacted code and contracted runs

The positions of a list's elements after some of them are taken out, and machines whose silent
steps are contracted: a map of states under which a silent step does nothing and any other step
is a step of the smaller machine.
-/

namespace Haxe.Theory.Compaction

section Positions

variable {α : Type*} (keep : α → Bool)

/-- How many elements in front of a position are kept. -/
def place (xs : List α) (i : Nat) : Nat := (xs.take i).countP keep

@[simp] theorem place_zero (xs : List α) : place keep xs 0 = 0 := rfl

@[simp] theorem place_nil (i : Nat) : place keep [] i = 0 := by simp [place]

@[simp] theorem place_cons (x : α) (xs : List α) (i : Nat) :
    place keep (x :: xs) (i + 1) = place keep xs i + if keep x then 1 else 0 := by
  simp [place, List.countP_cons]

variable {keep} {xs : List α} {x : α} {i j : Nat}

theorem place_succ (here : xs[i]? = some x) :
    place keep xs (i + 1) = place keep xs i + if keep x then 1 else 0 := by
  rw [place, place, List.take_add_one, here, List.countP_append]
  simp [List.countP_cons]

/-- An element that is kept is found at its place. -/
theorem filter_place (here : xs[i]? = some x) (kept : keep x = true) :
    (xs.filter keep)[place keep xs i]? = some x := by
  induction xs generalizing i with
  | nil => simp at here
  | cons y ys ih =>
    cases i with
    | zero =>
      cases here
      simp [kept]
    | succ i =>
      rw [List.getElem?_cons_succ] at here
      rw [place_cons]
      by_cases first : keep y = true
      · simpa [first] using ih here
      · simpa [first] using ih here

/-- Every kept element stands in the result behind the kept ones in front of it. -/
theorem place_injective (kept : ∃ x, xs[i]? = some x ∧ keep x = true) (lt : i < j) :
    place keep xs i < place keep xs j := by
  obtain ⟨x, here, kept⟩ := kept
  have next : place keep xs (i + 1) = place keep xs i + 1 := by rw [place_succ here, if_pos kept]
  have up : place keep xs (i + 1) ≤ place keep xs j :=
    (List.take_sublist_take_left lt).countP_le
  omega

end Positions

section Contraction

variable {σ τ ε : Type*}

/-- A run of a machine whose steps may be visible, with what is seen of it. -/
inductive Runs (step : σ → Option (Option ε × σ)) : σ → List ε → σ → Prop
  | stop (s : σ) : Runs step s [] s
  | silent {s s' t : σ} {es : List ε} : step s = some (none, s') → Runs step s' es t →
      Runs step s es t
  | seen {s s' t : σ} {e : ε} {es : List ε} : step s = some (some e, s') → Runs step s' es t →
      Runs step s (e :: es) t

/-- A map of states that contracts the silent steps of the first machine. No step of the second
one is silent. -/
structure Contracts {ε' : Type*} (step : σ → Option (Option ε × σ))
    (step' : τ → Option (Option ε' × τ)) (see : ε → ε') (f : σ → τ) (weight : σ → Nat) : Prop where
  silent : ∀ s s', step s = some (none, s') → f s' = f s ∧ weight s' < weight s
  seen : ∀ s e s', step s = some (some e, s') → step' (f s) = some (some (see e), f s')
  ended : ∀ s, step s = none → step' (f s) = none

variable {ε' : Type*} {step : σ → Option (Option ε × σ)} {step' : τ → Option (Option ε' × τ)}
  {see : ε → ε'} {f : σ → τ} {weight : σ → Nat}

/-- A run is a run of the contracted machine. -/
theorem Contracts.forward (contracts : Contracts step step' see f weight) {s t : σ} {es : List ε}
    (run : Runs step s es t) : Runs step' (f s) (es.map see) (f t) := by
  induction run with
  | stop s => exact .stop _
  | silent first _ ih => exact (contracts.silent _ _ first).1 ▸ ih
  | seen first _ ih => exact .seen (contracts.seen _ _ _ first) ih

/-- Silent steps come to an end: a state that maps to one which can go on goes on itself. -/
theorem Contracts.next (contracts : Contracts step step' see f weight) (s : σ) {e' : Option ε'}
    {t' : τ} (first : step' (f s) = some (e', t')) :
    ∃ s' e s'', Runs step s [] s' ∧ f s' = f s ∧ step s' = some (some e, s'') ∧
      e' = some (see e) ∧ t' = f s'' := by
  induction weighed : weight s using Nat.strongRecOn generalizing s with
  | ind n ih =>
    cases went : step s with
    | none => exact absurd first (by simp [contracts.ended s went])
    | some result =>
      obtain ⟨_ | e, s'⟩ := result
      · obtain ⟨same, lighter⟩ := contracts.silent s s' went
        obtain ⟨s'', e, u, silent, maps, rest⟩ :=
          ih _ (weighed ▸ lighter) s' (same ▸ first) rfl
        exact ⟨s'', e, u, .silent went silent, maps.trans same, rest⟩
      · have image := contracts.seen s e s' went
        rw [first] at image
        cases image
        exact ⟨s, e, s', .stop s, rfl, went, rfl, rfl⟩

theorem Runs.append {s t u : σ} {es es' : List ε} (run : Runs step s es t)
    (run' : Runs step t es' u) : Runs step s (es ++ es') u := by
  induction run with
  | stop s => exact run'
  | silent first _ ih => exact .silent first (ih run')
  | seen first _ ih => exact .seen first (ih run')

/-- Every run of the contracted machine comes from one of the machine. -/
theorem Contracts.backward (contracts : Contracts step step' see f weight) {s : σ} {t' : τ}
    {es' : List ε'} (run : Runs step' (f s) es' t') :
    ∃ es t, Runs step s es t ∧ es' = es.map see ∧ t' = f t := by
  generalize start : f s = s' at run
  induction run generalizing s with
  | stop s' => exact ⟨[], s, .stop s, rfl, start.symm⟩
  | silent first rest _ =>
    obtain ⟨_, e, _, _, _, _, same, _⟩ := contracts.next s (start ▸ first)
    cases same
  | seen first rest ih =>
    obtain ⟨s1, e, s2, silent, maps, went, same, image⟩ := contracts.next s (start ▸ first)
    cases same
    obtain ⟨es, t, run, trace, ends⟩ := ih image.symm
    exact ⟨e :: es, t, silent.append (.seen went run), by rw [trace]; rfl, ends⟩

end Contraction

end Haxe.Theory.Compaction
