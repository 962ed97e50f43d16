import Haxe.Source.Generators.HlPropagation

/-!
# Running copy propagation

What holds of the blocks that are done, kept when one more block is, and so by the recursion
through the graph. A block takes over an array only when it is the only successor of the block
that has it, so no array of a block that others still have to read is written.
-/

namespace Haxe.Source.Hl

open Theory

/-- No only successor has taken over the array of a block. -/
def Open (blocks : Nat → Option Block) (s : Analysis) (p : Nat) : Prop :=
  ∀ b c, blocks p = some b → b.bnext = [c] → s.bstate c = none

structure Inv (V : Type) (f : Fundecl) (blocks : Nat → Option Block) (s : Analysis) : Prop where
  code : ∀ i, (∀ p b, s.bstate p ≠ none → blocks p = some b → ¬ (b.bstart ≤ i ∧ i ≤ b.bend)) →
    s.code[i]? = f.code[i]?
  addr : ∀ p a, s.bstate p = some a → a < s.next
  known : ∀ p, s.bstate p ≠ none → ∃ b, blocks p = some b
  owner : ∀ p p' a, s.bstate p = some a → s.bstate p' = some a → Open blocks s p →
    Open blocks s p' → p = p'
  exit : ∀ p a b, s.bstate p = some a → Open blocks s p → blocks p = some b →
    Kept (s.arrays a) ∧ HoldsAfter V f.code blocks b (s.arrays a)
  visits : ∀ v ∈ s.visits, Kept v.before ∧ Kept v.after ∧ ∃ b, s.bstate v.block ≠ none ∧
    blocks v.block = some b ∧ b.bstart ≤ v.index ∧ v.index ≤ b.bend ∧
      HoldsAt V f.code blocks b v.index v.before
  covered : ∀ p b, s.bstate p ≠ none → blocks p = some b → ∀ i, b.bstart ≤ i → i ≤ b.bend →
    ∃ v ∈ s.visits, v.block = p ∧ v.index = i

section Entering

variable {V : Type} {f : Fundecl} {blocks : Nat → Option Block}
  {getState : Analysis → Nat → Option (Analysis × Nat)} {s : Analysis} {a : Nat}

/-- An array is merged with those of some blocks that are done. -/
theorem merges_some (got : ∀ s p a, s.bstate p = some a → getState s p = some (s, a))
    (b2 : Nat) (l : List Nat) (bases : RegStates → Prop) (kept : Kept (s.arrays a))
    (within : ∀ x, bases x → Within (s.arrays a) x)
    (addr : ∀ p ∈ l, ∃ ap, s.bstate p = some ap ∧ (ap = a → p = b2)) :
    ∃ s', l.foldlM (fun s p => (getState s p).map fun got =>
        got.1.setArray a ((got.1.arrays a).merge (got.1.arrays got.2))) s = some s' ∧
      Kept (s'.arrays a) ∧ (∀ x, bases x → Within (s'.arrays a) x) ∧
      (∀ p ∈ l, p = b2 ∨ ∃ ap, s.bstate p = some ap ∧ Within (s'.arrays a) (s.arrays ap)) ∧
      s'.bstate = s.bstate ∧ s'.code = s.code ∧ s'.visits = s.visits ∧ s'.next = s.next ∧
      ∀ a', a' ≠ a → s'.arrays a' = s.arrays a' := by
  induction l generalizing s bases with
  | nil =>
    exact ⟨s, rfl, kept, within, fun p member => absurd member List.not_mem_nil, rfl, rfl, rfl, rfl,
      fun _ _ => rfl⟩
  | cons p l ih =>
    obtain ⟨ap, done, reused⟩ := addr p List.mem_cons_self
    let s1 := s.setArray a ((s.arrays a).merge (s.arrays ap))
    have array : s1.arrays a = (s.arrays a).merge (s.arrays ap) := if_pos rfl
    have others (a' : Nat) (other : a' ≠ a) : s1.arrays a' = s.arrays a' := if_neg other
    obtain ⟨s', folds, kept', within', rest, bstate, code, visits, next, arrays⟩ :=
      ih (s := s1) (fun x => bases x ∨ x = s.arrays ap)
        (array ▸ RegStates.merge_kept kept)
        (fun x either => by
          rw [array]
          obtain base | same := either
          · exact (within x base).merge_left
          · rw [same]
            exact .merge_right _ _)
        (fun p' later => addr p' (List.mem_cons_of_mem p later))
    refine ⟨s', ?_, kept', fun x base => within' x (.inl base), ?_, bstate, code, visits, next,
      fun a' other => (arrays a' other).trans (others a' other)⟩
    · rw [List.foldlM_cons, got s p ap done]
      exact folds
    · intro p' member
      obtain same | later := List.mem_cons.mp member
      · exact .inr ⟨ap, same ▸ done, within' _ (.inr rfl)⟩
      · obtain first | ⟨ap', done', held⟩ := rest p' later
        · exact .inl first
        · by_cases here : ap' = a
          · obtain ⟨ap'', done'', reused''⟩ := addr p' (List.mem_cons_of_mem p later)
            have same : ap'' = ap' := Option.some.inj (done''.symm.trans done')
            exact .inl (reused'' (same.trans here))
          · exact .inr ⟨ap', done', others ap' here ▸ held⟩

/-- What entering a block leaves. -/
structure Entered (V : Type) (f : Fundecl) (blocks : Nat → Option Block) (b : Block) (c a : Nat)
    (s s' : Analysis) : Prop where
  kept : Kept (s'.arrays a)
  holds : HoldsAt V f.code blocks b c (s'.arrays a)
  bstate : s'.bstate = s.bstate
  code : s'.code = s.code
  visits : s'.visits = s.visits
  next : s.next ≤ s'.next
  lt : a < s'.next
  arrays : ∀ a', a' < s.next → a' ≠ a → s'.arrays a' = s.arrays a'
  origin : a = s.next ∨ ∃ p b', s.bstate p = some a ∧ Open blocks s p ∧ blocks p = some b' ∧
    b'.bnext = [c]

theorem alloc_array (s : Analysis) (st : RegStates) : (s.alloc st).1.arrays (s.alloc st).2 = st :=
  if_pos rfl

theorem alloc_other (s : Analysis) (st : RegStates) {a : Nat} (old : a < s.next) :
    (s.alloc st).1.arrays a = s.arrays a :=
  if_neg (Nat.ne_of_lt old)

theorem entered_empty {b : Block} {c : Nat} (s : Analysis) :
    Entered V f blocks b c (s.alloc emptyState).2 s (s.alloc emptyState).1 where
  kept := by
    rw [alloc_array]
    exact emptyState_kept
  holds ρ _ := by
    rw [alloc_array]
    exact emptyState_agrees ρ
  bstate := rfl
  code := rfl
  visits := rfl
  next := Nat.le_succ _
  lt := Nat.lt_succ_self _
  arrays _ old _ := alloc_other s emptyState old
  origin := .inl rfl

end Entering

section Graph

variable {V : Type} {f : Fundecl} {g : BlockGraph} {s : Analysis}
  {getState : Analysis → Nat → Option (Analysis × Nat)}
  (graph : codeGraph f.code = some g)

include graph

/-- The blocks that lead to one that is not done have their arrays to themselves. -/
theorem open_prev {b : Block} {c p : Nat} (found : g.find f.code c = some b)
    (fresh : s.bstate c = none) (member : p ∈ b.bprev) : Open (g.find f.code) s p := by
  intro b' c' leads only
  obtain ⟨start, spans⟩ := find_found graph found
  obtain ⟨b'', leads', next⟩ := (spans.prev p).mp member
  rw [leads] at leads'
  cases leads'
  rw [only, List.mem_singleton, start] at next
  exact next ▸ fresh

/-- Entering a block whose predecessors are done, or that is a loop head. -/
theorem enter_some (valid : ValidCode f) (inv : Inv V f (g.find f.code) s) {b : Block} {c : Nat}
    (found : g.find f.code c = some b) (fresh : s.bstate c = none)
    (done : b.bloop = false → ∀ p ∈ b.bprev, ∃ a, s.bstate p = some a)
    (got : ∀ s p a, s.bstate p = some a → getState s p = some (s, a)) :
    ∃ s' a, Analysis.enter (g.find f.code) getState s b = some (s', a) ∧
      Entered V f (g.find f.code) b c a s s' := by
  unfold Analysis.enter
  cases loop : b.bloop with
  | true => exact ⟨_, _, rfl, entered_empty s⟩
  | false =>
    rw [if_neg Bool.false_ne_true]
    cases prev : b.bprev with
    | nil => exact ⟨_, _, rfl, entered_empty s⟩
    | cons b2 l =>
      obtain ⟨start, spans⟩ := find_found graph found
      have first : b2 ∈ b.bprev := prev ▸ List.mem_cons_self
      obtain ⟨a2, done2⟩ := done loop b2 first
      obtain ⟨block2, found2, next2⟩ := (spans.prev b2).mp first
      rw [start] at next2
      have opens (p : Nat) (member : p ∈ b.bprev) : Open (g.find f.code) s p :=
        open_prev graph found fresh member
      dsimp only
      rw [got s b2 a2 done2, Option.bind_some, found2, Option.bind_some]
      -- the array is the one of the first predecessor or a copy of it
      obtain ⟨s0, a, shares, array, bstate, code, visits, next, lt, arrays, origin⟩ :
          ∃ s0 a, Analysis.share s a2 block2.bnext = some (s0, a) ∧ s0.arrays a = s.arrays a2 ∧
            s0.bstate = s.bstate ∧ s0.code = s.code ∧ s0.visits = s.visits ∧ s.next ≤ s0.next ∧
            a < s0.next ∧ (∀ a', a' < s.next → a' ≠ a → s0.arrays a' = s.arrays a') ∧
            (a = s.next ∨ a = a2 ∧ block2.bnext = [c]) := by
        cases nexts : block2.bnext with
        | nil =>
          rw [nexts] at next2
          cases next2
        | cons x rest =>
          cases rest with
          | nil =>
            rw [nexts, List.mem_singleton] at next2
            exact ⟨s, a2, rfl, rfl, rfl, rfl, rfl, Nat.le_refl _, inv.addr b2 a2 done2,
              fun _ _ _ => rfl, .inr ⟨rfl, next2 ▸ rfl⟩⟩
          | cons y rest =>
            exact ⟨_, _, rfl, alloc_array s _, rfl, rfl, rfl, Nat.le_succ _, Nat.lt_succ_self _,
              fun a' old _ => alloc_other s _ old, .inl rfl⟩
      rw [shares, Option.bind_some]
      have addr (p : Nat) (member : p ∈ l) : ∃ ap, s0.bstate p = some ap ∧ (ap = a → p = b2) := by
        have member : p ∈ b.bprev := prev ▸ List.mem_cons_of_mem b2 member
        obtain ⟨ap, donep⟩ := done loop p member
        refine ⟨ap, bstate ▸ donep, fun same => ?_⟩
        obtain new | ⟨old, _⟩ := origin
        · have lt := inv.addr p ap donep
          omega
        · exact inv.owner p b2 ap donep (by rw [same, old, done2]) (opens p member) (opens b2 first)
      obtain ⟨s', folds, kept, within, rest, bstate', code', visits', next', arrays'⟩ :=
        merges_some got b2 l (fun x => x = s.arrays a2)
          (array ▸ (inv.exit b2 a2 block2 done2 (opens b2 first) found2).1)
          (fun x same => by rw [same, array]; exact .refl _) addr
      refine ⟨s', a, by dsimp only; rw [folds]; rfl, kept, ?_, bstate'.trans bstate,
        code'.trans code, visits'.trans visits, next'.symm ▸ next, next'.symm ▸ lt,
        fun a' old other => (arrays' a' other).trans (arrays a' old other), ?_⟩
      · apply holdsAt_start graph found
        · intro root
          have lt := prev_lt graph valid found loop first
          omega
        · intro p member b' leads op ρ ρ' reaches here effect
          obtain ⟨ap, donep⟩ := done loop p member
          have after := (inv.exit p ap b' donep (opens p member) leads).2 op ρ ρ' reaches here effect
          have head (same : p = b2) : Agrees (s'.arrays a) ρ' := by
            subst same
            rw [done2] at donep
            cases donep
            exact (within _ rfl).agrees after
          rw [prev] at member
          obtain same | later := List.mem_cons.mp member
          · exact head same
          · obtain same | ⟨ap', done', held⟩ := rest p later
            · exact head same
            · rw [bstate, donep] at done'
              cases done'
              by_cases here : ap = a
              · obtain ⟨ap'', done'', reused⟩ := addr p later
                rw [bstate, donep] at done''
                cases done''
                exact head (reused here)
              · rw [arrays ap (inv.addr p ap donep) here] at held
                exact held.agrees after
      · obtain new | ⟨old, only⟩ := origin
        · exact .inl new
        · exact .inr ⟨b2, block2, old ▸ done2, opens b2 first, found2, only⟩

omit graph in
/-- A block that has been entered and looped over is done. -/
theorem done_inv (inv : Inv V f (g.find f.code) s) {b : Block} {c a : Nat} {s1 s2 : Analysis}
    (found : g.find f.code c = some b) (start : b.bstart = c) (fresh : s.bstate c = none)
    (entered : Entered V f (g.find f.code) b c a s s1)
    (looped : Looped V f (g.find f.code) b a b.bstart s1 s2) :
    Inv V f (g.find f.code) (s2.setState c a) := by
  have old (p : Nat) (other : p ≠ c) : (s2.setState c a).bstate p = s.bstate p :=
    (if_neg other).trans (by rw [looped.bstate, entered.bstate])
  have now : (s2.setState c a).bstate c = some a := if_pos rfl
  have doneStill (p : Nat) (done : s.bstate p ≠ none) : (s2.setState c a).bstate p ≠ none := by
    by_cases here : p = c
    · rw [here, now]
      exact Option.some_ne_none a
    · rw [old p here]
      exact done
  have openBefore (p : Nat) (opens : Open (g.find f.code) (s2.setState c a) p) :
      Open (g.find f.code) s p := by
    intro b' c' leads only
    by_contra done
    exact doneStill c' done (opens b' c' leads only)
  -- an older block that is still open does not have the array
  have apart (p ap : Nat) (other : p ≠ c) (done : s.bstate p = some ap)
      (opens : Open (g.find f.code) (s2.setState c a) p) : ap ≠ a := by
    intro same
    obtain new | ⟨p', b', done', opens', leads, only⟩ := entered.origin
    · have lt := inv.addr p ap done
      omega
    · have one := inv.owner p p' a (same ▸ done) done' (openBefore p opens) opens'
      have taken := opens b' c (one ▸ leads) only
      rw [now] at taken
      cases taken
  refine ⟨?_, ?_, ?_, ?_, ?_, ?_, ?_⟩
  · intro i outside
    have away : ¬ (b.bstart ≤ i ∧ i ≤ b.bend) :=
      outside c b (by rw [now]; exact Option.some_ne_none a) found
    refine (looped.code i away).trans ?_
    rw [entered.code]
    exact inv.code i fun p b' done leads => outside p b' (doneStill p done) leads
  · intro p ap done
    have next : (s2.setState c a).next = s1.next := looped.next
    rw [next]
    by_cases here : p = c
    · rw [here, now] at done
      cases done
      exact entered.lt
    · rw [old p here] at done
      exact Nat.lt_of_lt_of_le (inv.addr p ap done) entered.next
  · intro p done
    by_cases here : p = c
    · exact ⟨b, here ▸ found⟩
    · rw [old p here] at done
      exact inv.known p done
  · intro p p' ap done done' opens opens'
    by_cases here : p = c
    · by_cases here' : p' = c
      · rw [here, here']
      · rw [here, now] at done
        rw [old p' here'] at done'
        cases done
        exact absurd rfl (apart p' a here' done' opens')
    · rw [old p here] at done
      by_cases here' : p' = c
      · rw [here', now] at done'
        cases done'
        exact absurd rfl (apart p a here done opens)
      · rw [old p' here'] at done'
        exact inv.owner p p' ap done done' (openBefore p opens) (openBefore p' opens')
  · intro p ap b' done opens leads
    by_cases here : p = c
    · subst here
      rw [now] at done
      cases done
      rw [found] at leads
      cases leads
      exact ⟨looped.kept, looped.after⟩
    · rw [old p here] at done
      have other := apart p ap here done opens
      have array : (s2.setState c a).arrays ap = s.arrays ap :=
        (looped.arrays ap other).trans (entered.arrays ap (inv.addr p ap done) other)
      rw [array]
      exact inv.exit p ap b' done (openBefore p opens) leads
  · intro v member
    obtain earlier | ⟨where_, first, last, before, after, holds⟩ := looped.new v member
    · rw [entered.visits] at earlier
      obtain ⟨before, after, b', done, rest⟩ := inv.visits v earlier
      exact ⟨before, after, b', doneStill v.block done, rest⟩
    · rw [start] at where_
      refine ⟨before, after, b, ?_, where_ ▸ found, first, last, holds⟩
      rw [where_, now]
      exact Option.some_ne_none a
  · intro p b' done leads i first last
    by_cases here : p = c
    · subst here
      rw [found] at leads
      cases leads
      obtain ⟨v, member, same⟩ := looped.covers i first last
      exact ⟨v, member, start ▸ same⟩
    · rw [old p here] at done
      obtain ⟨v, member, same⟩ := inv.covered p b' done leads i first last
      exact ⟨v, looped.old (entered.visits ▸ member), same⟩

end Graph

section Recursion

/-- How many positions are not those of blocks that are done. -/
def pending (code : List Opcode) (s : Analysis) : Nat :=
  (List.range code.length).countP fun p => (s.bstate p).isNone

/-- What is done stays done. -/
def Grows (s s' : Analysis) : Prop := ∀ p a, s.bstate p = some a → s'.bstate p = some a

/-- The successors of what has been done in between are done. -/
def Closed (blocks : Nat → Option Block) (s s' : Analysis) : Prop :=
  ∀ p b, s.bstate p = none → s'.bstate p ≠ none → blocks p = some b →
    ∀ c ∈ b.bnext, s'.bstate c ≠ none

variable {V : Type} {f : Fundecl} {g : BlockGraph} {blocks : Nat → Option Block}
  {s s' s'' : Analysis}

theorem Grows.refl (s : Analysis) : Grows s s := fun _ _ done => done

theorem Grows.trans (first : Grows s s') (second : Grows s' s'') : Grows s s'' :=
  fun p a done => second p a (first p a done)

theorem Grows.done (grows : Grows s s') {p : Nat} (done : s.bstate p ≠ none) :
    s'.bstate p ≠ none := by
  obtain ⟨a, known⟩ := Option.ne_none_iff_exists'.mp done
  rw [grows p a known]
  exact Option.some_ne_none a

theorem Closed.refl (s : Analysis) : Closed blocks s s :=
  fun _ _ fresh done => absurd fresh done

theorem Closed.trans (first : Closed blocks s s') (second : Closed blocks s' s'')
    (grows : Grows s' s'') : Closed blocks s s'' := by
  intro p b fresh done leads c member
  by_cases between : s'.bstate p = none
  · exact second p b between done leads c member
  · exact grows.done (first p b fresh between leads c member)

theorem pending_le (code : List Opcode) (grows : Grows s s') :
    pending code s' ≤ pending code s := by
  apply List.countP_mono_left
  intro p _ fresh
  by_contra done
  have known : s.bstate p ≠ none := fun none => done (by rw [none]; rfl)
  rw [Option.isNone_iff_eq_none] at fresh
  exact grows.done known fresh

theorem pending_lt (code : List Opcode) (grows : Grows s s') {c : Nat} (inside : c < code.length)
    (fresh : s.bstate c = none) (done : s'.bstate c ≠ none) :
    pending code s' < pending code s := by
  apply countP_lt _ (List.mem_range.mpr inside)
  · rw [fresh]
    rfl
  · exact Option.isNone_eq_false_iff.mpr (Option.isSome_iff_ne_none.mpr done)
  · intro p _ fresh'
    rw [Option.isNone_iff_eq_none] at fresh' ⊢
    by_contra done'
    exact grows.done done' fresh'

/-- The state of each of some positions is got, one after the other. -/
theorem gets_some {n m : Nat} (ps : List Nat)
    (gets : ∀ s p, Inv V f blocks s → p ∈ ps → pending f.code s ≤ m →
      ∃ s' a, Analysis.getState f.regs blocks n s p = some (s', a) ∧ Inv V f blocks s' ∧
        Grows s s' ∧ Closed blocks s s' ∧ s'.bstate p = some a) :
    ∀ s, Inv V f blocks s → pending f.code s ≤ m →
      ∃ s', ps.foldlM (fun s p => (Analysis.getState f.regs blocks n s p).map Prod.fst) s =
          some s' ∧ Inv V f blocks s' ∧ Grows s s' ∧ Closed blocks s s' ∧
        ∀ p ∈ ps, s'.bstate p ≠ none := by
  induction ps with
  | nil =>
    exact fun s inv _ =>
      ⟨s, rfl, inv, .refl s, .refl s, fun p member => absurd member List.not_mem_nil⟩
  | cons p ps ih =>
    intro s inv le
    obtain ⟨s1, a, got, inv1, grows1, closed1, done⟩ := gets s p inv List.mem_cons_self le
    obtain ⟨s', folds, inv', grows', closed', all⟩ :=
      ih (fun s p inv later le => gets s p inv (List.mem_cons_of_mem _ later) le) s1 inv1
        (Nat.le_trans (pending_le f.code grows1) le)
    refine ⟨s', ?_, inv', grows1.trans grows', closed1.trans closed' grows', ?_⟩
    · rw [List.foldlM_cons, got]
      exact folds
    · intro p' member
      obtain same | later := List.mem_cons.mp member
      · rw [same]
        exact grows'.done (by rw [done]; exact Option.some_ne_none a)
      · exact all p' later

end Recursion

section Runs

variable {V : Type} {f : Fundecl} {g : BlockGraph} {s : Analysis}
  (graph : codeGraph f.code = some g) (valid : ValidCode f) (separated : Separated f.code)

/-- The fuel of a call for a position. -/
def fuelFor (code : List Opcode) (s : Analysis) (c : Nat) : Nat :=
  2 * (pending code s * (code.length + 1) + c)

include graph valid separated

/-- A block is entered and looped over. -/
theorem propagate_done {n : Nat} (inv : Inv V f (g.find f.code) s) {b : Block} {c : Nat}
    (found : g.find f.code c = some b) (fresh : s.bstate c = none)
    (done : b.bloop = false → ∀ p ∈ b.bprev, ∃ a, s.bstate p = some a) :
    ∃ s', Analysis.propagate f.regs (g.find f.code) (n + 2) s b =
        b.bnext.foldlM (fun s p =>
          (Analysis.getState f.regs (g.find f.code) (n + 1) s p).map Prod.fst) s' ∧
      Inv V f (g.find f.code) s' ∧ s'.bstate c ≠ none ∧
      ∀ p, p ≠ c → s'.bstate p = s.bstate p := by
  obtain ⟨start, spans⟩ := find_found graph found
  have got (s : Analysis) (p a : Nat) (known : s.bstate p = some a) :
      Analysis.getState f.regs (g.find f.code) (n + 1) s p = some (s, a) := by
    rw [Analysis.getState, known]
  obtain ⟨s1, a, enters, entered⟩ := enter_some graph valid inv found fresh done got
  obtain ⟨op, last, _⟩ := spans.spans.last
  have inside := (List.getElem?_eq_some_iff.mp last).1
  have le := spans.spans.le
  dsimp only at inside le
  have untouched (j : Nat) (first : b.bstart ≤ j) (last : j ≤ b.bend) :
      s1.code[j]? = f.code[j]? := by
    rw [entered.code]
    apply inv.code
    intro p b' known leads both
    obtain ⟨start', spans'⟩ := find_found graph leads
    have same := block_unique graph separated spans spans' first last both.1 both.2
    rw [start, start'] at same
    exact known (same ▸ fresh)
  obtain ⟨s2, loops, looped⟩ := loop_from (V := V) (b := b) (a := a) valid (g.find f.code)
    (fun c' found' => find_start graph found') inside (b.bend + 1 - b.bstart) b.bstart s1
    (Nat.le_refl _) (by omega) untouched entered.kept
    ⟨fun _ => start ▸ entered.holds, fun late => by omega⟩
  refine ⟨s2.setState c a, ?_, done_inv inv found start fresh entered looped, ?_, ?_⟩
  · rw [Analysis.propagate, enters, Option.bind_some]
    unfold Analysis.loop
    dsimp only
    rw [loops, Option.bind_some, start]
  · exact fun none => Option.some_ne_none a ((if_pos rfl).symm.trans none)
  · exact fun p other => (if_neg other).trans (by rw [looped.bstate, entered.bstate])

theorem propagates (n : Nat) :
    (∀ s c b, Inv V f (g.find f.code) s → g.find f.code c = some b → s.bstate c = none →
      (b.bloop = false → ∀ p ∈ b.bprev, ∃ a, s.bstate p = some a) →
      fuelFor f.code s c + 1 ≤ n →
      ∃ s', Analysis.propagate f.regs (g.find f.code) n s b = some s' ∧
        Inv V f (g.find f.code) s' ∧ Grows s s' ∧ Closed (g.find f.code) s s' ∧
        s'.bstate c ≠ none) ∧
    ∀ s c b, Inv V f (g.find f.code) s → g.find f.code c = some b →
      fuelFor f.code s c + 2 ≤ n →
      ∃ s' a, Analysis.getState f.regs (g.find f.code) n s c = some (s', a) ∧
        Inv V f (g.find f.code) s' ∧ Grows s s' ∧ Closed (g.find f.code) s s' ∧
        s'.bstate c = some a := by
  induction n using Nat.strongRecOn with
  | ind n ih =>
    constructor
    · intro s c b inv found fresh done enough
      have inside := find_inside graph found
      have waiting : 0 < pending f.code s :=
        List.countP_pos_iff.mpr ⟨c, List.mem_range.mpr inside, by rw [fresh]; rfl⟩
      have room : f.code.length + 1 ≤ pending f.code s * (f.code.length + 1) :=
        Nat.le_mul_of_pos_left _ waiting
      unfold fuelFor at enough
      obtain ⟨k, rfl⟩ : ∃ k, n = k + 2 := ⟨n - 2, by omega⟩
      obtain ⟨s1, same, inv1, now, others⟩ :=
        propagate_done graph valid separated (n := k) inv found fresh done
      have grows1 : Grows s s1 := by
        intro p a known
        by_cases here : p = c
        · rw [here, fresh] at known
          cases known
        · rw [others p here, known]
      have less := pending_lt f.code grows1 inside fresh now
      obtain ⟨s', folds, inv', grows', closed', all⟩ :=
        gets_some (n := k + 1) (m := pending f.code s1) b.bnext (fun s p inv member le => by
          obtain ⟨b', found'⟩ := find_some graph ((find_found graph found).2.next member)
          refine (ih (k + 1) (by omega)).2 s p b' inv found' ?_
          have inside' := find_inside graph found'
          have below : pending f.code s + 1 ≤ pending f.code _ := Nat.lt_of_le_of_lt le less
          have product := Nat.mul_le_mul_right (f.code.length + 1) below
          rw [Nat.add_mul] at product
          unfold fuelFor
          omega) s1 inv1 (Nat.le_refl _)
      refine ⟨s', same.trans folds, inv', grows1.trans grows', ?_, grows'.done now⟩
      intro p b' fresh' done' leads c' next
      by_cases here : p = c
      · subst here
        rw [found] at leads
        cases leads
        exact all c' next
      · exact closed' p b' (by rw [others p here, fresh']) done' leads c' next
    · intro s c b inv found enough
      obtain ⟨k, rfl⟩ : ∃ k, n = k + 1 := ⟨n - 1, by omega⟩
      rw [Analysis.getState]
      cases known : s.bstate c with
      | some a => exact ⟨s, a, rfl, inv, .refl s, .refl s, known⟩
      | none =>
        dsimp only
        rw [found, Option.bind_some]
        obtain ⟨s1, folds, inv1, grows1, closed1, all⟩ :=
          gets_some (n := k) (m := pending f.code s) (b.bprev.filter fun p => p < c)
            (fun s' p inv member le => by
              obtain ⟨prev, before⟩ := List.mem_filter.mp member
              obtain ⟨b', found', _⟩ := ((find_found graph found).2.prev p).mp prev
              refine (ih k (by omega)).2 s' p b' inv found' ?_
              have lt := of_decide_eq_true before
              have product := Nat.mul_le_mul_right (f.code.length + 1) le
              unfold fuelFor at enough ⊢
              omega) s inv (Nat.le_refl _)
        rw [folds, Option.bind_some]
        cases known1 : s1.bstate c with
        | some a => exact ⟨s1, a, rfl, inv1, grows1, closed1, known1⟩
        | none =>
          dsimp only
          have product := Nat.mul_le_mul_right (f.code.length + 1) (pending_le f.code grows1)
          obtain ⟨s', runs, inv', grows', closed', done'⟩ := (ih k (by omega)).1 s1 c b inv1 found
            known1 (fun plain p member => by
              have lt := prev_lt graph valid found plain member
              exact Option.ne_none_iff_exists'.mp
                (all p (List.mem_filter.mpr ⟨member, decide_eq_true lt⟩)))
            (by unfold fuelFor at enough ⊢; omega)
          obtain ⟨a, known'⟩ := Option.ne_none_iff_exists'.mp done'
          exact ⟨s', a, by rw [runs, Option.bind_some, known', Option.map_some], inv',
            grows1.trans grows', closed1.trans closed' grows', known'⟩

end Runs

end Haxe.Source.Hl
