import Haxe.Source.Generators.HlPropagate

/-!
# Aliases and the values of registers

The entries of an array keep their books when an alias is itself no alias and has been noted at
what it is an alias of. An instruction changes the registers it writes, a move copies, and to
convert what is already in the target changes nothing. Each update of the aliases keeps the books
and says of the registers after the instruction only what holds of them.
-/

namespace Haxe.Source.Hl

/-- The bookkeeping: alias chains have length at most one, and an alias is bound. -/
structure Kept (st : RegStates) : Prop where
  root : ∀ r, (st (st r).ralias).ralias = (st r).ralias
  bound : ∀ r, (st r).ralias ≠ r → r ∈ (st (st r).ralias).rbind

/-- What an instruction may do to the values of the registers. -/
structure Effect {V : Type} (op : Opcode) (ρ ρ' : Reg → V) : Prop where
  frame : ∀ r, write r ∉ opcodeFx op → ρ' r = ρ r
  mov : ∀ d a, op = .oMov d a → ρ' d = ρ a
  convert : ∀ d a, op = .oToInt d a ∨ op = .oToSFloat d a → ρ a = ρ d → ρ' d = ρ d

/-- A register and what it is an alias of hold the same value. -/
def Agrees {V : Type} (st : RegStates) (ρ : Reg → V) : Prop := ∀ r, ρ r = ρ (st r).ralias

variable {V : Type} {st st' st2 : RegStates} {ρ ρ' : Reg → V} {r x : Reg}

theorem emptyState_kept : Kept emptyState where
  root _ := rfl
  bound _ other := absurd rfl other

theorem emptyState_agrees (ρ : Reg → V) : Agrees emptyState ρ := fun _ => rfl

/-- The aliases and the bounds of two states are the same. -/
def SameAliases (st st' : RegStates) : Prop :=
  ∀ r, (st r).ralias = (st' r).ralias ∧ (st r).rbind = (st' r).rbind

theorem SameAliases.kept (same : SameAliases st st') (kept : Kept st') : Kept st where
  root r := by
    rw [(same r).1, (same _).1]
    exact kept.root r
  bound r other := by
    rw [(same r).1] at other ⊢
    rw [(same _).2]
    exact kept.bound r other

theorem SameAliases.agrees (same : SameAliases st st') (agrees : Agrees st' ρ) : Agrees st ρ := by
  intro r
  rw [(same r).1]
  exact agrees r

namespace RegStates

theorem set_apply (s : RegState) : st.set r s x = if x = r then s else st x := rfl

theorem setNullcheck_same (value : Bool) : SameAliases (st.setNullcheck r value) st := by
  intro x
  rw [setNullcheck, set_apply]
  split
  · rename_i here
    rw [here]
    exact ⟨rfl, rfl⟩
  · exact ⟨rfl, rfl⟩

theorem unalias_ralias : (st.unalias r x).ralias = if x = r then r else (st x).ralias := by
  unfold unalias
  simp only [set_apply]
  by_cases here : x = r
  · rw [if_pos here, if_pos here]
  · rw [if_neg here, if_neg here]
    split
    · rename_i root
      rw [root]
    · rfl

theorem unalias_rbind {y : Reg} (member : y ∈ (st x).rbind) (other : y ≠ r) :
    y ∈ (st.unalias r x).rbind := by
  have filtered : y ∈ (st x).rbind.filter fun r2 => r2 ≠ r :=
    List.mem_filter.mpr ⟨member, decide_eq_true other⟩
  unfold unalias
  simp only [set_apply]
  by_cases here : x = r
  · subst here
    rw [if_pos rfl]
    dsimp only
    split
    · rename_i root
      rw [← root]
      exact filtered
    · exact member
  · rw [if_neg here]
    split
    · rename_i root
      rw [← root]
      exact filtered
    · exact member

theorem unalias_kept (kept : Kept st) : Kept (st.unalias r) where
  root x := by
    simp only [unalias_ralias]
    by_cases here : x = r
    · rw [if_pos here, if_pos rfl]
    · rw [if_neg here]
      split
      · rename_i root
        exact root.symm
      · exact kept.root x
  bound x other := by
    rw [unalias_ralias] at other ⊢
    by_cases here : x = r
    · rw [if_pos here] at other
      exact absurd here.symm other
    · rw [if_neg here] at other ⊢
      exact unalias_rbind (kept.bound x other) here

theorem unalias_agrees (agrees : Agrees st ρ) : Agrees (st.unalias r) ρ := by
  intro x
  rw [unalias_ralias]
  split
  · rename_i here
    rw [here]
  · exact agrees x

/-- All of a list become roots. -/
theorem resets_apply (l : List Reg) : l.foldl
    (fun st r2 => st.set r2 { st r2 with ralias := r2 }) st x =
      if x ∈ l then { st x with ralias := x } else st x := by
  induction l generalizing st with
  | nil => rfl
  | cons r2 l ih =>
    rw [List.foldl_cons, ih, set_apply]
    by_cases here : x = r2
    · subst here
      simp
    · simp [here]

theorem write_ralias : (st.write r x).ralias =
    if x = r then r else if x ∈ (st r).rbind then x else (st x).ralias := by
  unfold write
  simp only [unalias_ralias, set_apply, resets_apply]
  by_cases here : x = r
  · rw [if_pos here, if_pos here]
  · simp only [if_neg here]
    split <;> rfl

theorem write_rbind {y : Reg} (member : y ∈ (st x).rbind) (other : y ≠ r) (apart : x ≠ r) :
    y ∈ (st.write r x).rbind := by
  unfold write
  apply unalias_rbind _ other
  rw [set_apply, if_neg apart, resets_apply]
  split
  · exact member
  · exact member

/-- After a write nothing else is an alias of the register. -/
theorem write_free (kept : Kept st) (other : x ≠ r) : (st.write r x).ralias ≠ r := by
  rw [write_ralias, if_neg other]
  split
  · exact other
  · rename_i loose
    intro same
    have bound := kept.bound x (same ▸ Ne.symm other)
    rw [same] at bound
    exact loose bound

theorem write_kept (kept : Kept st) : Kept (st.write r) where
  root x := by
    by_cases here : x = r
    · simp only [write_ralias, if_pos here, if_true]
    · have free := write_free kept here
      rw [write_ralias, if_neg free]
      rw [write_ralias, if_neg here] at free ⊢
      split
      · rfl
      · split
        · rfl
        · exact kept.root x
  bound x other := by
    by_cases here : x = r
    · rw [write_ralias, if_pos here] at other
      exact absurd here.symm other
    · have free := write_free kept here
      rw [write_ralias, if_neg here] at free other ⊢
      by_cases loose : x ∈ (st r).rbind
      · rw [if_pos loose] at other
        exact absurd rfl other
      · rw [if_neg loose] at free other ⊢
        exact write_rbind (kept.bound x other) here free

theorem write_agrees (kept : Kept st) (agrees : Agrees st ρ) (frame : ∀ x, x ≠ r → ρ' x = ρ x) :
    Agrees (st.write r) ρ' := by
  intro x
  by_cases here : x = r
  · rw [write_ralias, if_pos here, here]
  · have free := write_free kept here
    rw [write_ralias, if_neg here] at free ⊢
    split
    · rfl
    · rename_i loose
      rw [if_neg loose] at free
      rw [frame x here, frame _ free]
      exact agrees x

theorem bind_ralias {d v : Reg} :
    (st.bind d v x).ralias = if x = d then v else (st x).ralias := by
  unfold bind
  dsimp only
  split
  · rw [set_apply]
    split <;> rfl
  · rw [set_apply]
    split
    · rename_i here
      subst here
      rw [set_apply]
      split <;> rfl
    · rw [set_apply]
      split <;> rfl

theorem bind_bound {d v : Reg} : d ∈ (st.bind d v v).rbind := by
  unfold bind
  dsimp only
  split
  · rename_i bound
    obtain ⟨y, member, same⟩ := List.any_eq_true.mp bound
    exact of_decide_eq_true same ▸ member
  · rw [set_apply, if_pos rfl]
    exact List.mem_cons_self

theorem bind_rbind {d v y : Reg} (member : y ∈ (st x).rbind) : y ∈ (st.bind d v x).rbind := by
  have kept : y ∈ (st.set d { st d with ralias := v, rnullcheck := (st v).rnullcheck } x).rbind := by
    rw [set_apply]
    split
    · rename_i here
      exact here ▸ member
    · exact member
  unfold bind
  dsimp only
  split
  · exact kept
  · rw [set_apply]
    split
    · rename_i here
      exact List.mem_cons_of_mem d (here ▸ kept)
    · exact kept

/-- A move to a register that nothing else is an alias of. -/
theorem bind_kept {d v : Reg} (kept : Kept st) (free : ∀ x, x ≠ d → (st x).ralias ≠ d)
    (root : (st v).ralias = v) (other : v ≠ d) : Kept (st.bind d v) where
  root x := by
    by_cases here : x = d
    · rw [bind_ralias (x := x), if_pos here, bind_ralias, if_neg other, root]
    · rw [bind_ralias (x := x), if_neg here, bind_ralias, if_neg (free x here)]
      exact kept.root x
  bound x apart := by
    by_cases here : x = d
    · rw [bind_ralias, if_pos here, here]
      exact bind_bound
    · rw [bind_ralias, if_neg here] at apart ⊢
      exact bind_rbind (kept.bound x apart)

theorem bind_agrees {d v : Reg} (agrees : Agrees st ρ) (copied : ρ d = ρ v) :
    Agrees (st.bind d v) ρ := by
  intro x
  rw [bind_ralias]
  split
  · rename_i here
    rw [here, copied]
  · exact agrees x

theorem merge_ralias : (st.merge st2 r).ralias =
    if (st r).ralias ≠ (st2 r).ralias then r else (st r).ralias := by
  unfold merge
  dsimp only
  split <;> rfl

/-- A fold that only adds elements keeps those there are. -/
theorem mem_adding {p : Reg → Prop} [DecidablePred p] {l acc : List Reg} (member : x ∈ acc) :
    x ∈ l.foldl (fun acc y => if p y then y :: acc else acc) acc := by
  induction l generalizing acc with
  | nil => exact member
  | cons y l ih =>
    rw [List.foldl_cons]
    apply ih
    split
    · exact List.mem_cons_of_mem y member
    · exact member

theorem merge_rbind {y : Reg} (member : y ∈ (st x).rbind) (stays : (st.merge st2 y).ralias = x) :
    y ∈ (st.merge st2 x).rbind := by
  unfold merge at stays ⊢
  dsimp only at stays ⊢
  apply mem_adding
  refine List.mem_filter.mpr ⟨?_, decide_eq_true stays⟩
  split
  · exact member
  · exact member

theorem merge_kept (kept : Kept st) : Kept (st.merge st2) where
  root r := by
    by_cases differ : (st r).ralias ≠ (st2 r).ralias
    · simp only [merge_ralias, if_pos differ]
    · rw [merge_ralias (r := r), if_neg differ, merge_ralias]
      split
      · rfl
      · exact kept.root r
  bound r other := by
    rw [merge_ralias] at other ⊢
    by_cases differ : (st r).ralias ≠ (st2 r).ralias
    · rw [if_pos differ] at other
      exact absurd rfl other
    · rw [if_neg differ] at other ⊢
      apply merge_rbind (kept.bound r other)
      rw [merge_ralias, if_neg differ]

/-- The part of an access that is about the aliases. -/
def access (st : RegStates) (a : Access) : RegStates := if a.reads then st else st.write a.reg

theorem accesses_hold (l : List Access) (kept : Kept st) (agrees : Agrees st ρ)
    (frame : ∀ x, Hl.write x ∉ l → ρ' x = ρ x) :
    Kept (l.foldl access st) ∧ Agrees (l.foldl access st) ρ' := by
  induction l generalizing st ρ with
  | nil =>
    have same : ρ' = ρ := funext fun x => frame x List.not_mem_nil
    exact ⟨kept, same ▸ agrees⟩
  | cons a l ih =>
    obtain ⟨r, reads⟩ := a
    rw [List.foldl_cons]
    cases reads with
    | true =>
      exact ih kept agrees fun x fresh => frame x fun member =>
        (List.mem_cons.mp member).elim (fun same => by cases same) fresh
    | false =>
      -- the values after this write alone
      let ρ1 : Reg → V := fun x => if x = r then ρ' x else ρ x
      apply ih (ρ := ρ1) (write_kept kept)
      · exact write_agrees kept agrees fun x other => if_neg other
      · intro x fresh
        dsimp only [ρ1]
        split
        · rfl
        · rename_i other
          apply frame
          intro member
          obtain same | later := List.mem_cons.mp member
          · exact other (Access.mk.inj same).1
          · exact fresh later

theorem release_hold (regs : List Ttype) (op : Opcode) (kept : Kept st) (agrees : Agrees st ρ) :
    Kept (st.release regs op) ∧ Agrees (st.release regs op) ρ := by
  have freed (r : Reg) : Kept (st.unalias r) ∧ Agrees (st.unalias r) ρ :=
    ⟨unalias_kept kept, unalias_agrees agrees⟩
  unfold release
  split
  · exact freed _
  · exact freed _
  · exact freed _
  · split
    · split
      · exact ⟨kept, agrees⟩
      · exact freed _
    · exact ⟨kept, agrees⟩
    · exact freed _
    · exact ⟨kept, agrees⟩
  · exact ⟨kept, agrees⟩

end RegStates

/-- The writes of an instruction do not depend on what its operands are replaced by. -/
theorem write_mem_replace {op : Opcode} (noRef : ∀ d a, op ≠ .oRef d a) :
    write x ∈ opcodeFx (st.replace op) ↔ write x ∈ opcodeFx op := by
  unfold RegStates.replace
  cases op
  case oRef d a => exact absurd rfl (noRef d a)
  all_goals simp [opcodeMap, opcodeFx, read, write]

/-- An instruction that the replacement turns into a move of a register to itself. -/
theorem selfMove_replace {op : Opcode} {v : Reg} (self : Pass.selfMove (st.replace op) = some v) :
    ∃ d a, (st a).ralias = d ∧ opcodeFx op = [read a, write d] ∧
      (op = .oMov d a ∨ op = .oToInt d a ∨ op = .oToSFloat d a) := by
  have same {d a : Reg} (self : (if d = (st a).ralias then some (st a).ralias else none) = some v) :
      (st a).ralias = d := by
    by_contra other
    rw [if_neg fun same => other same.symm] at self
    cases self
  cases op
  case oMov d a => exact ⟨d, a, same self, rfl, .inl rfl⟩
  case oToInt d a => exact ⟨d, a, same self, rfl, .inr (.inl rfl)⟩
  case oToSFloat d a => exact ⟨d, a, same self, rfl, .inr (.inr rfl)⟩
  all_goals cases self

theorem mov_of_replace {op : Opcode} {d v : Reg} (moves : st.replace op = .oMov d v) :
    ∃ a, op = .oMov d a ∧ (st a).ralias = v := by
  cases op
  case oMov d' a =>
    cases moves
    exact ⟨a, rfl, rfl⟩
  all_goals cases moves

namespace Pass

variable {s : Pass} {b : Block} {i : Nat}

theorem doAccess_state (a : Access) : (s.doAccess b i a).state = s.state.access a := by
  unfold doAccess RegStates.access
  split <;> rfl

theorem doAccesses_state (l : List Access) :
    (l.foldl (fun s a => s.doAccess b i a) s).state = l.foldl RegStates.access s.state := by
  induction l generalizing s with
  | nil => rfl
  | cons a l ih => rw [List.foldl_cons, ih, doAccess_state, List.foldl_cons]

/-- What an instruction does to the aliases: nothing, a move, or its writes. -/
theorem handle_state (s : Pass) (b : Block) (i : Nat) (op : Opcode) :
    ((∃ v, selfMove op = some v) ∧ (s.handle b i op).state = s.state) ∨
      (∃ d v, op = .oMov d v ∧ v ≠ d ∧
        (s.handle b i op).state = (s.state.write d).bind d v) ∨
      SameAliases (s.handle b i op).state ((opcodeFx op).foldl RegStates.access s.state) := by
  unfold handle
  split
  · rename_i v self
    exact .inl ⟨⟨v, self⟩, rfl⟩
  · rename_i self
    split
    · rename_i d v
      refine .inr (.inl ⟨d, v, rfl, fun same => ?_, rfl⟩)
      rw [selfMove, if_pos same.symm] at self
      cases self
    · exact .inr (.inr fun _ => ⟨rfl, rfl⟩)
    · exact .inr (.inr fun _ => ⟨rfl, rfl⟩)
    · refine .inr (.inr ?_)
      split
      · exact fun _ => ⟨rfl, rfl⟩
      · exact RegStates.setNullcheck_same true
    · exact .inr (.inr (RegStates.setNullcheck_same true))
    · exact .inr (.inr (RegStates.setNullcheck_same _))
    · refine .inr (.inr ?_)
      rw [doAccesses_state]
      exact fun _ => ⟨rfl, rfl⟩

/-- An instruction with its operands replaced keeps the books and the values. -/
theorem handle_hold {op : Opcode} (noRef : ∀ d a, op ≠ .oRef d a) (kept : Kept s.state)
    (agrees : Agrees s.state ρ) (effect : Effect op ρ ρ') :
    Kept (s.handle b i (s.state.replace op)).state ∧
      Agrees (s.handle b i (s.state.replace op)).state ρ' := by
  obtain ⟨⟨v, self⟩, same⟩ | ⟨d, v, moves, other, same⟩ | same :=
    handle_state s b i (s.state.replace op)
  · rw [same]
    refine ⟨kept, ?_⟩
    obtain ⟨d, a, root, accesses, which⟩ := selfMove_replace self
    have held : ρ a = ρ d := root ▸ agrees a
    have copied : ρ' d = ρ d := by
      obtain moves | converts := which
      · exact (effect.mov d a moves).trans held
      · exact effect.convert d a converts held
    have unchanged : ρ' = ρ := by
      funext x
      by_cases here : x = d
      · rw [here, copied]
      · apply effect.frame
        rw [accesses]
        simp [read, write, here]
    rw [unchanged]
    exact agrees
  · rw [same]
    obtain ⟨a, original, root⟩ := mov_of_replace moves
    subst original
    have frame (x : Reg) (apart : x ≠ d) : ρ' x = ρ x := by
      apply effect.frame
      simp [opcodeFx, read, write, apart]
    have source : (s.state.write d v).ralias = v := by
      rw [RegStates.write_ralias, if_neg other]
      split
      · rfl
      · rw [← root]
        exact kept.root a
    have copied : ρ' d = ρ' v := by
      rw [effect.mov d a rfl, frame v other, ← root]
      exact agrees a
    exact ⟨RegStates.bind_kept (RegStates.write_kept kept)
        (fun x apart => RegStates.write_free kept apart) source other,
      RegStates.bind_agrees (RegStates.write_agrees kept agrees frame) copied⟩
  · have held := RegStates.accesses_hold (opcodeFx (s.state.replace op)) kept agrees
      fun x fresh => effect.frame x (mt (write_mem_replace noRef).mpr fresh)
    exact ⟨same.kept held.1, same.agrees held.2⟩

/-- An instruction that ran without exception. -/
theorem visit_hold {regs : List Ttype} {s' : Pass} {op : Opcode} (there : s.code[i]? = some op)
    (noRef : ∀ d a, op ≠ .oRef d a) (visits : visit regs b s i = some s') (kept : Kept s.state)
    (agrees : Agrees s.state ρ) (effect : Effect op ρ ρ') : Kept s'.state ∧ Agrees s'.state ρ' := by
  unfold visit at visits
  rw [there, Option.bind_some] at visits
  split at visits
  · cases visits
    obtain ⟨kept, agrees⟩ := RegStates.release_hold regs op kept agrees
    exact handle_hold noRef kept agrees effect
  · cases visits

end Pass

end Haxe.Source.Hl
