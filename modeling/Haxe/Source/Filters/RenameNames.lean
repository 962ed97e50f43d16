import Mathlib.Data.Finset.Card
import Mathlib.Data.Finset.Image
import Mathlib.Tactic.Set
import Haxe.Source.Filters.RenameCollect

/-!
# What the second pass names

The counter always finds a free name. A variable gets a name that is not reserved and not
the name of a variable it overlaps with; the names of variables that are renamed before do
not change any more, so every pair ends with two names.
-/

namespace Haxe.Source.Filters.RenameVars

open Core Context

theorem toString_injective {m n : Nat} (h : toString m = toString n) : m = n := by
  have digits : Nat.toDigits 10 m = Nat.toDigits 10 n := by
    have := congrArg String.toList h
    simpa using this
  have := congrArg (Nat.ofDigitChars 10 · 0) digits
  simpa using this

theorem candidate_injective (name : String) : Function.Injective (candidate name) := by
  intro m n h
  have same := congrArg String.toList h
  unfold candidate at same
  split at same <;> split at same
  · omega
  · simp at same
  · simp at same
  · refine toString_injective (String.toList_injective ?_)
    simpa using same

theorem freeName_spec (taken : List String) (name : String) (fuel count : Nat) :
    freeName taken name fuel count ∉ taken ∨
      ∀ i, i ≤ fuel → candidate name (count + i) ∈ taken := by
  induction fuel generalizing count with
  | zero =>
    by_cases free : candidate name count ∈ taken
    · refine Or.inr fun i small => ?_
      obtain rfl : i = 0 := by omega
      exact free
    · exact Or.inl free
  | succ fuel ih =>
    unfold freeName
    split
    · next occupied =>
      rcases ih (count + 1) with free | all
      · exact Or.inl free
      · refine Or.inr fun i small => ?_
        cases i with
        | zero => exact occupied
        | succ i =>
          have := all i (by omega)
          rwa [show count + 1 + i = count + (i + 1) by omega] at this
    · next free => exact Or.inl free

/-- There are more candidates than taken names. -/
theorem freeName_free (taken : List String) (name : String) :
    freeName taken name taken.length 0 ∉ taken := by
  rcases freeName_spec taken name taken.length 0 with free | all
  · exact free
  · exfalso
    have inside : ((Finset.range (taken.length + 1)).image (candidate name)) ⊆ taken.toFinset := by
      intro s member
      obtain ⟨i, small, rfl⟩ := Finset.mem_image.mp member
      have := all i (by have := Finset.mem_range.mp small; omega)
      simpa using this
    have := Finset.card_le_card inside
    rw [Finset.card_image_of_injective _ (candidate_injective name), Finset.card_range] at this
    have := List.toFinset_card_le taken
    omega

variable (rc : RenameContext)

/-- What naming one variable does. -/
structure Renamed (state : List String × Names) (own : TVar × VarSet)
    (state' : List String × Names) : Prop where
  reserved : state.1 ⊆ state'.1
  others : ∀ id, id ≠ own.1.vId → state'.2 id = state.2 id
  named : ∃ name, state'.2 own.1.vId = some name ∧ name ∉ state.1 ∧
    ∀ u, u.vId ≠ own.1.vId → VarSet.has own.2 u → (state.2 u.vId).isSome →
      state.2 u.vId ≠ some name

theorem maybeRenameVar_renamed (state : List String × Names) (own : TVar × VarSet) :
    Renamed state own (maybeRenameVar rc state own) := by
  obtain ⟨reserved, names⟩ := state
  obtain ⟨v, overlaps⟩ := own
  set names₁ := if isGenLocal (vName names v) then
      Function.update names v.vId (some (genLocalName (vName names v)))
    else names with hnames₁
  set taken := reserved ++ overlaps.map (vName names₁) with htaken
  set name := freeName taken (vName names₁ v) taken.length 0 with hname
  have free : name ∉ taken := freeName_free taken _
  have others : ∀ id, id ≠ v.vId → names₁ id = names id := by
    intro id differ
    rw [hnames₁]
    split
    · exact Function.update_of_ne differ ..
    · rfl
  have result : maybeRenameVar rc (reserved, names) (v, overlaps) =
      (if rc.rcNoShadowing || (v.vCaptured && rc.rcHoisting) then name :: reserved else reserved,
        Function.update names₁ v.vId (some name)) := rfl
  rw [result]
  refine ⟨?_, ?_, name, Function.update_self .., ?_, ?_⟩
  · dsimp only
    split
    · exact List.subset_cons_self ..
    · exact List.Subset.refl _
  · intro id differ
    exact (Function.update_of_ne differ ..).trans (others id differ)
  · exact fun inside => free (List.mem_append_left _ inside)
  · intro u differ overlap known same
    obtain ⟨o, inside, sameId⟩ := List.any_eq_true.mp overlap
    have sameId : o.vId = u.vId := by simpa using sameId
    refine free (List.mem_append_right _ (List.mem_map.mpr ⟨o, inside, ?_⟩))
    have current : names₁ o.vId = some name := by
      rw [sameId, others _ differ]
      exact same
    simp [vName, current]

theorem OwnPair.mem {w u : TVar} {anc : List TVar} {own : OwnVars} (h : OwnPair w u anc own) :
    w ∈ ownNames own ∧ u ∈ ownNames own ++ anc := by
  induction own with
  | nil => exact h.elim
  | cons d rest ih =>
    rcases h with ⟨rfl, -, earlier⟩ | h
    · exact ⟨List.mem_cons_self .., List.mem_cons_of_mem _ earlier⟩
    · exact ⟨List.mem_cons_of_mem _ (ih h).1, List.mem_cons_of_mem _ (ih h).2⟩

theorem Scopes.Pair.mem {w u : TVar} {scopes : Scopes} {anc : List TVar}
    (h : scopes.Pair w u anc) : w ∈ scopes.vars ∧ u ∈ scopes.vars ++ anc := by
  induction scopes generalizing anc with
  | none => exact h.elim
  | cons own foreign children rest ihChildren ihRest =>
    unfold Scopes.vars
    rcases h with h | h | h
    · obtain ⟨first, second⟩ := h.mem
      refine ⟨by simp [first], ?_⟩
      rcases List.mem_append.mp second with second | second <;> simp [second]
    · obtain ⟨first, second⟩ := ihChildren h
      refine ⟨by simp [first], ?_⟩
      rcases List.mem_append.mp second with second | second
      · simp [second]
      · rcases List.mem_append.mp second with second | second <;> simp [second]
    · obtain ⟨first, second⟩ := ihRest h
      refine ⟨by simp [first], ?_⟩
      rcases List.mem_append.mp second with second | second <;> simp [second]

/-- The names after a list of variables, oldest first. -/
def renameOwn (state : List String × Names) (own : OwnVars) : List String × Names :=
  own.reverse.foldl (maybeRenameVar rc) state

theorem renameOwn_cons (state : List String × Names) (own : TVar × VarSet) (rest : OwnVars) :
    renameOwn rc state (own :: rest) = maybeRenameVar rc (renameOwn rc state rest) own := by
  simp [renameOwn]

/-- The variables of one scope: only they change, none gets a reserved name, and those that
overlap get different names. -/
theorem renameOwn_spec {anc : List TVar} (state : List String × Names) (own : OwnVars)
    (nodup : ((ownNames own ++ anc).map TVar.vId).Nodup)
    (known : ∀ u ∈ anc, (state.2 u.vId).isSome) :
    state.1 ⊆ (renameOwn rc state own).1 ∧
    (∀ id, id ∉ (ownNames own).map TVar.vId → (renameOwn rc state own).2 id = state.2 id) ∧
    (∀ v ∈ ownNames own, ∃ name, (renameOwn rc state own).2 v.vId = some name ∧ name ∉ state.1) ∧
    ∀ w u, OwnPair w u anc own →
      (renameOwn rc state own).2 w.vId ≠ (renameOwn rc state own).2 u.vId := by
  induction own with
  | nil => exact ⟨List.Subset.refl _, fun _ _ => rfl, by simp [ownNames], fun _ _ h => h.elim⟩
  | cons d rest ih =>
    obtain ⟨v, overlaps⟩ := d
    rw [ownNames, List.map_cons, List.cons_append, List.map_cons, List.nodup_cons] at nodup
    obtain ⟨reserved, others, named, pairs⟩ := ih nodup.2
    rw [renameOwn_cons]
    have step := maybeRenameVar_renamed rc (renameOwn rc state rest) (v, overlaps)
    obtain ⟨name, isNamed, free, apart⟩ := step.named
    have below {u : TVar} (inside : u ∈ ownNames rest ++ anc) : u.vId ≠ v.vId := by
      intro same
      exact nodup.1 (same ▸ List.mem_map_of_mem inside)
    have isKnown {u : TVar} (inside : u ∈ ownNames rest ++ anc) :
        ((renameOwn rc state rest).2 u.vId).isSome := by
      by_cases inRest : u ∈ ownNames rest
      · obtain ⟨n, found, -⟩ := named u inRest
        simp [found]
      · have inAnc := (List.mem_append.mp inside).resolve_left inRest
        rw [others]
        · exact known u inAnc
        · rw [List.map_append] at nodup
          exact fun clash => (List.nodup_append.mp nodup.2).2.2 _ clash _
            (List.mem_map_of_mem inAnc) rfl
    refine ⟨List.Subset.trans reserved step.reserved, ?_, ?_, ?_⟩
    · intro id outside
      simp only [ownNames, List.map_cons, List.mem_cons, not_or] at outside
      exact (step.others id outside.1).trans (others id outside.2)
    · intro u member
      rcases List.mem_cons.mp member with rfl | member
      · exact ⟨name, isNamed, fun inside => free (reserved inside)⟩
      · rw [step.others u.vId (below (List.mem_append_left _ member))]
        exact named u member
    · intro w u pair
      rcases pair with ⟨rfl, overlap, earlier⟩ | pair
      · have differ := below earlier
        rw [isNamed, step.others u.vId differ]
        exact (apart u differ overlap (isKnown earlier)).symm
      · have inRest := pair.mem
        rw [step.others w.vId (below (List.mem_append_left _ inRest.1)),
          step.others u.vId (below inRest.2)]
        exact pairs w u pair

theorem notMem_of_nodup {A B : List TVar} (h : ((A ++ B).map TVar.vId).Nodup) {u : TVar}
    (inB : u ∈ B) : u.vId ∉ A.map TVar.vId := by
  rw [List.map_append] at h
  exact fun inA => (List.nodup_append.mp h).2.2 _ inA _ (List.mem_map_of_mem inB) rfl

theorem scopesVars_perm (own : OwnVars) (foreign : VarSet) (children rest : Scopes)
    (anc : List TVar) : (Scopes.vars (.cons own foreign children rest) ++ anc).Perm
      (rest.vars ++ (children.vars ++ (ownNames own ++ anc))) := by
  rw [Scopes.vars]
  have swap : (ownNames own ++ children.vars ++ rest.vars).Perm
      (rest.vars ++ (children.vars ++ ownNames own)) :=
    List.perm_append_comm.trans (List.perm_append_comm.append_left _)
  simpa only [List.append_assoc] using swap.append_right anc

/-- The names of a list of scopes, when the variables around them have their final names. -/
theorem renameVars_spec (scopes : Scopes) :
    ∀ (anc : List TVar) (names : Names), ((scopes.vars ++ anc).map TVar.vId).Nodup →
      (∀ u ∈ anc, (names u.vId).isSome) →
      (∀ id, id ∉ scopes.vars.map TVar.vId → renameVars rc scopes names id = names id) ∧
      (∀ v ∈ scopes.vars, ∃ name, renameVars rc scopes names v.vId = some name ∧
        name ∉ rc.rcReserved) ∧
      ∀ w u, scopes.Pair w u anc →
        renameVars rc scopes names w.vId ≠ renameVars rc scopes names u.vId := by
  induction scopes with
  | none => exact fun _ _ _ _ => ⟨fun _ _ => rfl, by simp [Scopes.vars], fun _ _ h => h.elim⟩
  | cons own foreign children rest ihChildren ihRest =>
    intro anc names nodup known
    set state : List String × Names := (if rc.rcHoisting || rc.rcNoShadowing then
      foreign.map (vName names) ++ rc.rcReserved else rc.rcReserved, names) with hstate
    have keepsReserved : rc.rcReserved ⊆ state.1 := by
      rw [hstate]
      dsimp only
      split
      · exact List.subset_append_right ..
      · exact List.Subset.refl _
    have run : renameVars rc (.cons own foreign children rest) names =
        renameVars rc rest (renameVars rc children (renameOwn rc state own).2) := rfl
    rw [run]
    have apart : ((rest.vars ++ (children.vars ++ (ownNames own ++ anc))).map TVar.vId).Nodup := by
      refine (List.Perm.nodup_iff (List.Perm.map _ ?_)).mp nodup
      exact scopesVars_perm own foreign children rest anc
    have apartChildren : ((children.vars ++ (ownNames own ++ anc)).map TVar.vId).Nodup :=
      apart.sublist ((List.sublist_append_right ..).map _)
    have apartOwn : ((ownNames own ++ anc).map TVar.vId).Nodup :=
      apartChildren.sublist ((List.sublist_append_right ..).map _)
    have apartRest : ((rest.vars ++ anc).map TVar.vId).Nodup := by
      refine apart.sublist (List.Sublist.map _ (List.Sublist.append_left ?_ _))
      rw [← List.append_assoc]
      exact List.sublist_append_right ..
    obtain ⟨-, othersOwn, namedOwn, pairsOwn⟩ := renameOwn_spec rc state own apartOwn known
    set names₁ := (renameOwn rc state own).2 with hnames₁
    have known₁ : ∀ u ∈ ownNames own ++ anc, (names₁ u.vId).isSome := by
      intro u inside
      rcases List.mem_append.mp inside with inOwn | above
      · obtain ⟨name, found, -⟩ := namedOwn u inOwn
        exact Option.isSome_iff_exists.mpr ⟨name, found⟩
      · rw [othersOwn _ (notMem_of_nodup apartOwn above)]
        exact known u above
    obtain ⟨othersChildren, namedChildren, pairsChildren⟩ :=
      ihChildren (ownNames own ++ anc) names₁ apartChildren known₁
    set names₂ := renameVars rc children names₁ with hnames₂
    -- what is renamed before keeps its name
    have keep₁ {u : TVar} (inside : u ∈ ownNames own ++ anc) : names₂ u.vId = names₁ u.vId :=
      othersChildren _ (notMem_of_nodup apartChildren inside)
    have known₂ : ∀ u ∈ anc, (names₂ u.vId).isSome := by
      intro u above
      rw [keep₁ (List.mem_append_right _ above)]
      exact known₁ u (List.mem_append_right _ above)
    obtain ⟨othersRest, namedRest, pairsRest⟩ := ihRest anc names₂ apartRest known₂
    set names₃ := renameVars rc rest names₂ with hnames₃
    have keep₂ {u : TVar} (inside : u ∈ children.vars ++ (ownNames own ++ anc)) :
        names₃ u.vId = names₂ u.vId :=
      othersRest _ (notMem_of_nodup apart inside)
    have keep {u : TVar} (inside : u ∈ ownNames own ++ anc) : names₃ u.vId = names₁ u.vId :=
      (keep₂ (List.mem_append_right _ inside)).trans (keep₁ inside)
    refine ⟨?_, ?_, ?_⟩
    · intro id outside
      simp only [Scopes.vars, List.map_append, List.mem_append, not_or] at outside
      rw [othersRest id outside.2, othersChildren id outside.1.2, othersOwn id outside.1.1]
    · intro v member
      rcases List.mem_append.mp member with member | inRest
      · rcases List.mem_append.mp member with inOwn | inChildren
        · obtain ⟨name, found, free⟩ := namedOwn v inOwn
          rw [keep (List.mem_append_left _ inOwn)]
          exact ⟨name, found, fun inside => free (keepsReserved inside)⟩
        · rw [keep₂ (List.mem_append_left _ inChildren)]
          exact namedChildren v inChildren
      · exact namedRest v inRest
    · intro w u pair
      rcases pair with pair | pair | pair
      · obtain ⟨inOwn, inside⟩ := pair.mem
        rw [keep (List.mem_append_left _ inOwn), keep inside]
        exact pairsOwn w u pair
      · obtain ⟨inChildren, inside⟩ := pair.mem
        rw [keep₂ (List.mem_append_left _ inChildren), keep₂ inside]
        exact pairsChildren w u pair
      · exact pairsRest w u pair

end Haxe.Source.Filters.RenameVars
