import Haxe.Source.Generators.HlAlias

/-!
# What copy propagation keeps

A path through the blocks reaches an instruction with some values in the registers. Of every
block that is done, each instruction has been visited in a state that agrees with all of them.
The array of a block is its last state for as long as no only successor has taken it over.
-/

namespace Haxe.Source.Hl

/-- What the generator promises of a function, in which no register is referred to. -/
structure ValidCode (f : Fundecl) : Prop where
  leads : Leads f.code
  regs : ∀ op ∈ f.code, ∀ a ∈ opcodeFx op, a.reg < f.regs.length
  noRef : ∀ d a, Opcode.oRef d a ∉ f.code
  marked : ∀ i op targets, f.code[i]? = some op → falls op = false →
    exits op i = some targets → ∀ t ∈ targets, t ≤ i → ∃ unused, f.code[t]? = some (.oLabel unused)

/-- Execution along a path of the block graph reaches an instruction of a block. -/
inductive Reaches {V : Type} (code : List Opcode) (blocks : Nat → Option Block) :
    Block → Nat → (Reg → V) → Prop
  | root {b : Block} (ρ : Reg → V) (root : blocks 0 = some b) : Reaches code blocks b 0 ρ
  | inside {b : Block} {i : Nat} {op : Opcode} {ρ ρ' : Reg → V}
      (before : Reaches code blocks b i ρ) (lt : i < b.bend) (here : code[i]? = some op)
      (effect : Effect op ρ ρ') : Reaches code blocks b (i + 1) ρ'
  | edge {b b' : Block} {c : Nat} {op : Opcode} {ρ ρ' : Reg → V}
      (before : Reaches code blocks b b.bend ρ) (here : code[b.bend]? = some op)
      (effect : Effect op ρ ρ') (next : c ∈ b.bnext) (leads : blocks c = some b') :
      Reaches code blocks b' c ρ'

/-- The state agrees with all values with which a path reaches an instruction. -/
def HoldsAt (V : Type) (code : List Opcode) (blocks : Nat → Option Block) (b : Block) (i : Nat)
    (st : RegStates) : Prop :=
  ∀ ρ : Reg → V, Reaches code blocks b i ρ → Agrees st ρ

/-- The same after the last instruction of a block. -/
def HoldsAfter (V : Type) (code : List Opcode) (blocks : Nat → Option Block) (b : Block)
    (st : RegStates) : Prop :=
  ∀ (op : Opcode) (ρ ρ' : Reg → V), Reaches code blocks b b.bend ρ → code[b.bend]? = some op →
    Effect op ρ ρ' → Agrees st ρ'

/-- Every alias of a state is one of another. -/
def Within (st x : RegStates) : Prop := ∀ r, (st r).ralias = r ∨ (st r).ralias = (x r).ralias

namespace Within

variable {V : Type} {st st2 x : RegStates} {ρ : Reg → V}

theorem refl (st : RegStates) : Within st st := fun _ => .inr rfl

theorem agrees (within : Within st x) (agrees : Agrees x ρ) : Agrees st ρ := by
  intro r
  obtain root | same := within r
  · rw [root]
  · rw [same]
    exact agrees r

theorem merge_left (within : Within st x) : Within (st.merge st2) x := by
  intro r
  rw [RegStates.merge_ralias]
  split
  · exact .inl rfl
  · exact within r

theorem merge_right (st st2 : RegStates) : Within (st.merge st2) st2 := by
  intro r
  rw [RegStates.merge_ralias]
  split
  · exact .inl rfl
  · rename_i same
    exact .inr (Decidable.not_not.mp same)

end Within

section Blocks

variable {V : Type} {f : Fundecl} {g : BlockGraph} (graph : codeGraph f.code = some g)

include graph

theorem find_start {b : Block} {c : Nat} (found : g.find f.code c = some b) : b.bstart = c :=
  (find_found graph found).1

theorem find_inside {b : Block} {c : Nat} (found : g.find f.code c = some b) :
    c < f.code.length := by
  obtain ⟨start, spans⟩ := find_found graph found
  obtain ⟨op, here, _⟩ := spans.spans.last
  have bend := (List.getElem?_eq_some_iff.mp here).1
  have le := spans.spans.le
  dsimp only at le bend
  omega

/-- A block that is no loop head comes after those that lead to it. -/
theorem prev_lt (valid : ValidCode f) {b : Block} {c p : Nat} (found : g.find f.code c = some b)
    (plain : b.bloop = false) (member : p ∈ b.bprev) : p < c := by
  obtain ⟨start, spans⟩ := find_found graph found
  obtain ⟨b', leads, next⟩ := (spans.prev p).mp member
  obtain ⟨start', spans'⟩ := find_found graph leads
  have le := spans'.spans.le
  obtain ⟨op, here, ⟨_, _, only⟩ | ⟨stop, exit⟩⟩ := spans'.spans.last
  · dsimp only at le only
    rw [only, List.mem_singleton] at next
    omega
  · by_contra back
    dsimp only at le exit here
    obtain ⟨unused, label⟩ := valid.marked b'.bend op b'.bnext here stop exit b.bstart next
      (by omega)
    rw [spans.loop unused label] at plain
    cases plain

theorem Reaches.found {b : Block} {i : Nat} {ρ : Reg → V}
    (reaches : Reaches f.code (g.find f.code) b i ρ) :
    g.find f.code b.bstart = some b ∧ b.bstart ≤ i := by
  induction reaches with
  | root ρ root => exact ⟨(find_start graph root).symm ▸ root, Nat.le_of_eq (find_start graph root)⟩
  | inside before lt here effect ih => exact ⟨ih.1, Nat.le_succ_of_le ih.2⟩
  | edge before here effect next leads ih =>
    exact ⟨(find_start graph leads).symm ▸ leads, Nat.le_of_eq (find_start graph leads)⟩

/-- What holds when a block is entered. -/
theorem holdsAt_start {b : Block} {c : Nat} {st : RegStates} (found : g.find f.code c = some b)
    (root : c = 0 → ∀ ρ : Reg → V, Agrees st ρ)
    (edges : ∀ p ∈ b.bprev, ∀ b', g.find f.code p = some b' →
      HoldsAfter V f.code (g.find f.code) b' st) :
    HoldsAt V f.code (g.find f.code) b c st := by
  intro ρ reaches
  have start := find_start graph found
  generalize same : c = i at reaches
  cases reaches with
  | root ρ _ => exact root same ρ
  | inside before lt here effect =>
    have le := (before.found graph).2
    omega
  | edge before here effect next leads =>
    rename_i b' op ρ'
    have from_ := (before.found graph).1
    have prev := ((find_found graph found).2.prev b'.bstart).mpr
      ⟨b', from_, by rw [start, same]; exact next⟩
    exact edges b'.bstart prev b' from_ op ρ' ρ before here effect

end Blocks

section Loop

variable {V : Type} {f : Fundecl} {b : Block} {a i : Nat} {s s' : Analysis}

/-- The state before an instruction of a block, or after the last one. -/
def Ready (V : Type) (code : List Opcode) (blocks : Nat → Option Block) (b : Block) (i : Nat)
    (st : RegStates) : Prop :=
  (i ≤ b.bend → HoldsAt V code blocks b i st) ∧
    (i = b.bend + 1 → HoldsAfter V code blocks b st)

theorem handle_code (s : Pass) (b : Block) (i : Nat) (op : Opcode) {j : Nat} (other : j ≠ i) :
    (s.handle b i op).code[j]? = s.code[j]? := by
  have nop (s : Pass) (why : String) : (s.setNop i why).code[j]? = s.code[j]? :=
    List.getElem?_set_ne (Ne.symm other)
  have accesses (l : List Access) : ∀ s : Pass,
      (l.foldl (fun s a => s.doAccess b i a) s).code = s.code := by
    induction l with
    | nil => exact fun _ => rfl
    | cons a l ih =>
      intro s
      rw [List.foldl_cons, ih]
      unfold Pass.doAccess
      split <;> rfl
  unfold Pass.handle
  split
  · exact nop _ _
  · split
    · rfl
    · rfl
    · rfl
    · split
      · exact nop _ _
      · rfl
    · rfl
    · rfl
    · rw [accesses]

theorem visit_code {regs : List Ttype} {p p' : Pass} (visits : p.visit regs b i = some p') {j : Nat}
    (other : j ≠ i) : p'.code[j]? = p.code[j]? := by
  unfold Pass.visit at visits
  obtain ⟨op, _, visits⟩ := Option.bind_eq_some_iff.mp visits
  split at visits
  · cases visits
    rw [handle_code _ b i _ other]
    exact List.getElem?_set_ne (Ne.symm other)
  · cases visits

theorem visit_some (valid : ValidCode f) {p : Pass} {op : Opcode} (there : p.code[i]? = some op)
    (member : op ∈ f.code) : ∃ p', p.visit f.regs b i = some p' := by
  unfold Pass.visit
  rw [there, Option.bind_some, if_pos]
  · exact ⟨_, rfl⟩
  · rw [List.all_eq_true]
    exact fun a access => decide_eq_true (valid.regs op member a access)

/-- One turn of the loop over a block. -/
theorem visit_turn (valid : ValidCode f) (blocks : Nat → Option Block)
    (starts : ∀ c, blocks c = some b → b.bstart = c) (inside : i < f.code.length)
    (start : b.bstart ≤ i) (le : i ≤ b.bend) (same : s.code[i]? = f.code[i]?)
    (kept : Kept (s.arrays a)) (ready : Ready V f.code blocks b i (s.arrays a)) :
    ∃ s', Analysis.visit f.regs b a s i = some s' ∧ Kept (s'.arrays a) ∧
      Ready V f.code blocks b (i + 1) (s'.arrays a) ∧
      s'.bstate = s.bstate ∧ s'.next = s.next ∧ (∀ a', a' ≠ a → s'.arrays a' = s.arrays a') ∧
      (∀ j, j ≠ i → s'.code[j]? = s.code[j]?) ∧
      s'.visits = ⟨b.bstart, i, s.arrays a, s'.arrays a⟩ :: s.visits := by
  have here : f.code[i]? = some f.code[i] := List.getElem?_eq_getElem inside
  have member : f.code[i] ∈ f.code := List.getElem_mem inside
  have noRef (d a : Reg) : f.code[i] ≠ .oRef d a := fun ref => valid.noRef d a (ref ▸ member)
  obtain ⟨p', visits⟩ := visit_some (b := b) valid (p := ⟨s.code, s.arrays a, s.marks⟩)
    (same.trans here) member
  have hold {W : Type} {ρ ρ' : Reg → W} (agrees : Agrees (s.arrays a) ρ)
      (effect : Effect f.code[i] ρ ρ') : Kept p'.state ∧ Agrees p'.state ρ' :=
    Pass.visit_hold (same.trans here) noRef visits kept agrees effect
  have still : Effect (V := Unit) f.code[i] (fun _ => ()) (fun _ => ()) :=
    ⟨fun _ _ => rfl, fun _ _ _ => rfl, fun _ _ _ _ => rfl⟩
  have kept' : Kept p'.state := (hold (fun _ => rfl) still).1
  refine ⟨{ s.setArray a p'.state with
      code := p'.code
      marks := p'.marks
      visits := ⟨b.bstart, i, s.arrays a, p'.state⟩ :: s.visits }, ?_, ?_⟩
  · unfold Analysis.visit
    rw [visits]
    rfl
  · have array : (s.setArray a p'.state).arrays a = p'.state := if_pos rfl
    dsimp only
    rw [array]
    refine ⟨kept', ⟨fun within ρ' reaches => ?_, fun last op ρ ρ' reaches there effect => ?_⟩, rfl,
      rfl, fun a' other => if_neg other, fun j other => visit_code visits other, rfl⟩
    · generalize position : i + 1 = j at reaches
      cases reaches with
      | root ρ root => omega
      | inside before lt there effect =>
        cases position
        rw [here] at there
        cases there
        exact (hold (ready.1 le _ before) effect).2
      | edge before there effect next leads =>
        have first := starts j leads
        omega
    · have bend : b.bend = i := by omega
      rw [bend] at reaches there
      rw [here] at there
      cases there
      exact (hold (ready.1 le _ reaches) effect).2

/-- What the loop over a block leaves. -/
structure Looped (V : Type) (f : Fundecl) (blocks : Nat → Option Block) (b : Block) (a i : Nat)
    (s s' : Analysis) : Prop where
  kept : Kept (s'.arrays a)
  after : HoldsAfter V f.code blocks b (s'.arrays a)
  bstate : s'.bstate = s.bstate
  next : s'.next = s.next
  arrays : ∀ a', a' ≠ a → s'.arrays a' = s.arrays a'
  code : ∀ j, ¬ (i ≤ j ∧ j ≤ b.bend) → s'.code[j]? = s.code[j]?
  old : s.visits ⊆ s'.visits
  new : ∀ v ∈ s'.visits, v ∈ s.visits ∨ (v.block = b.bstart ∧ i ≤ v.index ∧ v.index ≤ b.bend ∧
    Kept v.before ∧ Kept v.after ∧ HoldsAt V f.code blocks b v.index v.before)
  covers : ∀ j, i ≤ j → j ≤ b.bend → ∃ v ∈ s'.visits, v.block = b.bstart ∧ v.index = j

theorem loop_from (valid : ValidCode f) (blocks : Nat → Option Block)
    (starts : ∀ c, blocks c = some b → b.bstart = c) (inside : b.bend < f.code.length) (k : Nat) :
    ∀ (i : Nat) (s : Analysis), b.bstart ≤ i → i + k = b.bend + 1 →
      (∀ j, i ≤ j → j ≤ b.bend → s.code[j]? = f.code[j]?) → Kept (s.arrays a) →
      Ready V f.code blocks b i (s.arrays a) →
      ∃ s', (List.range' i k).foldlM (Analysis.visit f.regs b a) s = some s' ∧
        Looped V f blocks b a i s s' := by
  induction k with
  | zero =>
    intro i s start count same kept ready
    refine ⟨s, rfl, kept, ready.2 (by omega), rfl, rfl, fun _ _ => rfl, fun _ _ => rfl,
      List.Subset.refl _, fun v member => .inl member, fun j first last => by omega⟩
  | succ k ih =>
    intro i s start count same kept ready
    obtain ⟨s1, turn, kept1, ready1, bstate, next, arrays, code, visits⟩ :=
      visit_turn valid blocks starts (by omega) start (by omega) (same i (Nat.le_refl i) (by omega))
        kept ready
    obtain ⟨s', turns, rest⟩ := ih (i + 1) s1 (by omega) (by omega)
      (fun j first last => (code j (by omega)).trans (same j (by omega) last)) kept1 ready1
    refine ⟨s', ?_, rest.kept, rest.after, rest.bstate.trans bstate, rest.next.trans next,
      fun a' other => (rest.arrays a' other).trans (arrays a' other), fun j outside => ?_, ?_, ?_, ?_⟩
    · rw [List.range'_succ, List.foldlM_cons, turn]
      exact turns
    · exact (rest.code j (by omega)).trans (code j (by omega))
    · exact fun v member => rest.old (visits ▸ List.mem_cons_of_mem _ member)
    · intro v member
      obtain earlier | ⟨where_, first, last, held⟩ := rest.new v member
      · rw [visits] at earlier
        obtain now | old := List.mem_cons.mp earlier
        · subst now
          exact .inr ⟨rfl, Nat.le_refl i, by dsimp only; omega, kept, kept1, ready.1 (by omega)⟩
        · exact .inl old
      · exact .inr ⟨where_, by omega, last, held⟩
    · intro j first last
      by_cases here : j = i
      · exact ⟨_, rest.old (visits ▸ List.mem_cons_self), rfl, here.symm⟩
      · exact rest.covers j (by omega) last

end Loop

end Haxe.Source.Hl
