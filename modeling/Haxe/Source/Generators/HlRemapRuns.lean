import Haxe.Source.Generators.HlMachine

/-!
# What renumbering does to the code

Every pass of `remap_fun` by itself: the pass that takes instructions out, the one that computes
the offsets again, and the one over the registers.
-/

namespace Haxe.Source.Hl

open Theory.Compaction

def kept (op : Opcode) : Bool := !isNop op

theorem kept_of_isJump {op : Opcode} (jump : isJump op = true) : kept op = true := by
  cases op <;> first | rfl | cases jump

/-- The position behind an instruction that stays. -/
theorem place_kept {code : List Opcode} {i : Nat} {op : Opcode} (here : code[i]? = some op)
    (stays : kept op = true) : place kept code (i + 1) = place kept code i + 1 := by
  rw [place_succ here, if_pos stays]

/-- The position behind an instruction that is taken out. -/
theorem place_dropped {code : List Opcode} {i : Nat} {op : Opcode} (here : code[i]? = some op)
    (dropped : kept op = false) : place kept code (i + 1) = place kept code i := by
  rw [place_succ here, dropped]
  rfl

section Retargeting

theorem mapM_found {α β : Type} {f : α → Option β} {g : α → β} :
    ∀ {xs : List α}, (∀ x ∈ xs, f x = some (g x)) → xs.mapM f = some (xs.map g)
  | [], _ => rfl
  | x :: xs, found => by
    rw [List.mapM_cons, found x List.mem_cons_self,
      mapM_found fun y member => found y (List.mem_cons_of_mem x member)]
    rfl

theorem retarget_found {op : Opcode} {pos : Int → Option Int} {g : Int → Int}
    (jump : isJump op = true) (found : ∀ d ∈ offsets op, pos d = some (g d)) :
    retarget pos op = some (offsetMap g op) := by
  cases op
  case oSwitch r cases_ send =>
    have all := mapM_found fun d member => found d (List.mem_append_left [send] member)
    have last := found send (List.mem_append_right cases_ List.mem_cons_self)
    rw [retarget, all, last]
    rfl
  all_goals
    first
    | rw [retarget, found _ List.mem_cons_self]; rfl
    | cases jump

end Retargeting

section Compacting

variable {rename : Opcode → Option Opcode} {ren : Opcode → Opcode} {debug : List (Int × Int)}
  {size : Nat}

/-- What the pass over the code has written in the end. -/
def compacted (ren : Opcode → Opcode) (debug : List (Int × Int)) (i : Nat) (ops : List Opcode)
    (s : Compacted) : Compacted where
  newPos := s.newPos ++ (List.range ops.length).map fun k => s.outCode.length + place kept ops k
  jumps := (((ops.zipIdx i).filter fun e => isJump e.1).map Prod.snd).reverse ++ s.jumps
  outCode := s.outCode ++ (ops.filter kept).map ren
  newDebug := s.newDebug ++ ((ops.zip (debug.drop i)).filter fun e => kept e.1).map Prod.snd

theorem compact_eq (i : Nat) (ops : List Opcode) (s : Compacted)
    (renames : ∀ op ∈ ops, kept op = true → rename op = some (ren op))
    (lines : i + ops.length ≤ debug.length)
    (fits : s.outCode.length + (ops.filter kept).length ≤ size) :
    compact rename debug size i ops s = some (compacted ren debug i ops s) := by
  induction ops generalizing i s with
  | nil => simp [compact, compacted]
  | cons op ops ih =>
    have later (op' : Opcode) (member : op' ∈ ops) := renames op' (List.mem_cons_of_mem op member)
    have inside : i < debug.length := by
      rw [List.length_cons] at lines
      omega
    have lines' : i + 1 + ops.length ≤ debug.length := by
      rw [List.length_cons] at lines
      omega
    have zipped :
        (op :: ops).zip (debug.drop i) = (op, debug[i]) :: ops.zip (debug.drop (i + 1)) := by
      rw [List.drop_eq_getElem_cons inside]
      rfl
    unfold compact
    cases nop : isNop op with
    | true =>
      have out : kept op = false := by simp [kept, nop]
      have plain : isJump op = false := by
        cases jump : isJump op
        · rfl
        · rw [kept_of_isJump jump] at out
          cases out
      rw [List.filter_cons, out, if_neg Bool.false_ne_true] at fits
      rw [if_pos rfl,
        ih (i + 1) { s with newPos := s.newPos ++ [s.outCode.length] } later lines' fits]
      simp [compacted, List.range_succ_eq_map, Function.comp_def, out, plain, zipped]
    | false =>
      have stays : kept op = true := by simp [kept, nop]
      rw [List.filter_cons, stays, if_pos rfl, List.length_cons] at fits
      have room : s.outCode.length < size := by omega
      have line : debug[i]? = some debug[i] := List.getElem?_eq_getElem inside
      rw [if_neg Bool.false_ne_true, renames op List.mem_cons_self stays, line]
      simp only [Option.bind_eq_bind, Option.bind_some, if_pos room]
      rw [ih _ _ later lines' (by simp only [List.length_append, List.length_singleton]; omega)]
      cases jump : isJump op <;>
        simp [compacted, List.range_succ_eq_map, Function.comp_def, stays, jump, zipped,
          Nat.add_assoc, Nat.add_comm]

end Compacting

section Jumps

/-- The jumps are put right one after the other. Each stands in a place of its own. -/
theorem fixJumps_eq (newPos : List Nat) (g : Nat → Int → Int) (js : List Nat) (out : List Opcode)
    (each : ∀ j ∈ js, ∃ p op, newPos[j]? = some p ∧ out[p]? = some op ∧ isJump op = true ∧
      ∀ d ∈ offsets op, pos newPos j d = some (g j d))
    (apart : js.Pairwise fun j j' => newPos[j]? ≠ newPos[j']?) :
    ∃ out', js.foldlM (fixJump newPos) out = some out' ∧ out'.length = out.length ∧
      (∀ j ∈ js, ∀ p op, newPos[j]? = some p → out[p]? = some op →
        out'[p]? = some (offsetMap (g j) op)) ∧
      ∀ p, (∀ j ∈ js, newPos[j]? ≠ some p) → out'[p]? = out[p]? := by
  induction js generalizing out with
  | nil => exact ⟨out, rfl, rfl, fun j member => absurd member List.not_mem_nil, fun p _ => rfl⟩
  | cons j js ih =>
    obtain ⟨p, op, placed, here, jump, found⟩ := each j List.mem_cons_self
    obtain ⟨others, apart⟩ := List.pairwise_cons.mp apart
    have inside : p < out.length := (List.getElem?_eq_some_iff.mp here).1
    have away (j' : Nat) (member : j' ∈ js) (p' : Nat) (placed' : newPos[j']? = some p') :
        p ≠ p' := by
      intro same
      exact others j' member (by rw [placed, placed', same])
    obtain ⟨out', runs, same, fixed, rest⟩ := ih (out.set p (offsetMap (g j) op)) (by
      intro j' member
      obtain ⟨p', op', placed', here', jump', found'⟩ := each j' (List.mem_cons_of_mem j member)
      refine ⟨p', op', placed', ?_, jump', found'⟩
      rw [List.getElem?_set_ne (away j' member p' placed')]
      exact here') apart
    refine ⟨out', ?_, by rw [same, List.length_set], ?_, ?_⟩
    · rw [List.foldlM_cons, fixJump, placed]
      simp only [Option.bind_eq_bind, Option.bind_some, here, retarget_found jump found]
      exact runs
    · intro j' member p' op' placed' here'
      obtain first | member := List.mem_cons.mp member
      · subst first
        rw [placed] at placed'
        cases placed'
        rw [here] at here'
        cases here'
        rw [rest p fun j' member same => away j' member p same rfl, List.getElem?_set_self inside]
      · refine fixed j' member p' op' placed' ?_
        rw [List.getElem?_set_ne (away j' member p' placed')]
        exact here'
    · intro p' free
      have ne : p ≠ p' := fun same => free j List.mem_cons_self (by rw [placed, same])
      rw [rest p' fun j' member => free j' (List.mem_cons_of_mem j member),
        List.getElem?_set_ne ne]

end Jumps

section Registers

/-- A register map that numbers the registers: no number is given twice, none reaches the count
of the registers used, and the arguments keep theirs. -/
structure Numbering (regMap : List Int) (nregs used nargs : Nat) : Prop where
  length_eq : regMap.length = nregs
  below : ∀ (r : Nat) (p : Int), regMap[r]? = some p → p < used
  distinct : ∀ (r r' : Nat) (p : Int), 0 ≤ p → regMap[r]? = some p → regMap[r']? = some p → r = r'
  arguments : ∀ r : Nat, r < nargs → r < nregs → regMap[r]? = some (r : Int)

variable {regMap : List Int} {nregs used nargs : Nat}

theorem mapped_eq {r : Reg} {p : Int} (entry : regMap[r]? = some p) :
    mapped regMap r = p.toNat := by
  rw [mapped, entry]
  rfl

theorem mapped_argument (numbering : Numbering regMap nregs used nargs) {r : Reg}
    (argument : r < nargs) (lt : r < nregs) : mapped regMap r = r := by
  rw [mapped_eq (numbering.arguments r argument lt)]
  rfl

theorem numberTypes_range (regs : List Ttype)
    (numbering : Numbering regMap regs.length used nargs) (n : Nat) (le : n ≤ regs.length) :
    ∃ newRegs, (List.range n).foldlM (fun newRegs i => do
        let p ← regMap[i]?
        if 0 ≤ p then
          let t ← regs[i]?
          if p.toNat < newRegs.length then some (newRegs.set p.toNat t) else none
        else some newRegs) (List.replicate used Ttype.hVoid) = some newRegs ∧
      newRegs.length = used ∧
      ∀ (r : Nat) (p : Int), r < n → regMap[r]? = some p → 0 ≤ p → newRegs[p.toNat]? = regs[r]? := by
  induction n with
  | zero =>
    exact ⟨List.replicate used .hVoid, rfl, List.length_replicate, fun r p below => by omega⟩
  | succ n ih =>
    obtain ⟨newRegs, runs, same, typed⟩ := ih (by omega)
    have inside : n < regMap.length := by
      rw [numbering.length_eq]
      omega
    have entry : regMap[n]? = some regMap[n] := List.getElem?_eq_getElem inside
    have type : regs[n]? = some regs[n] := List.getElem?_eq_getElem (by omega)
    have below := numbering.below n _ entry
    rw [List.range_succ, List.foldlM_append, runs]
    by_cases numbered : 0 ≤ regMap[n]
    · refine ⟨newRegs.set regMap[n].toNat regs[n], ?_, by rw [List.length_set, same], ?_⟩
      · simp only [Option.bind_eq_bind, Option.bind_some, List.foldlM_cons, List.foldlM_nil, entry,
          type, if_pos numbered]
        rw [if_pos (by omega)]
        rfl
      · intro r p lt found nonneg
        by_cases last : r = n
        · subst last
          rw [entry] at found
          cases found
          rw [List.getElem?_set_self (by omega), type]
        · have ne : regMap[n].toNat ≠ p.toNat := by
            intro same
            have equal : p = regMap[n] := by omega
            exact last (numbering.distinct r n p nonneg found (equal ▸ entry))
          rw [List.getElem?_set_ne ne]
          exact typed r p (by omega) found nonneg
    · refine ⟨newRegs, ?_, same, ?_⟩
      · simp [entry, numbered]
      · intro r p lt found nonneg
        by_cases last : r = n
        · subst last
          rw [entry] at found
          cases found
          exact absurd nonneg numbered
        · exact typed r p (by omega) found nonneg

/-- The types stand under the new numbers. -/
theorem numberTypes_eq {regs : List Ttype} (numbering : Numbering regMap regs.length used nargs) :
    ∃ newRegs, numberTypes regMap regs used = some newRegs ∧ newRegs.length = used ∧
      ∀ (r : Nat) (p : Int), regMap[r]? = some p → 0 ≤ p → newRegs[p.toNat]? = regs[r]? := by
  obtain ⟨newRegs, runs, same, typed⟩ := numberTypes_range regs numbering regs.length (Nat.le_refl _)
  refine ⟨newRegs, runs, same, fun r p entry => typed r p ?_ entry⟩
  rw [← numbering.length_eq]
  exact (List.getElem?_eq_some_iff.mp entry).1

theorem entry_append {p q : Int} {r : Nat} (entry : (regMap ++ [p])[r]? = some q) :
    regMap[r]? = some q ∨ r = regMap.length ∧ p = q := by
  by_cases inside : r < regMap.length
  · rw [List.getElem?_append_left inside] at entry
    exact .inl entry
  · have lt := (List.getElem?_eq_some_iff.mp entry).1
    rw [List.length_append, List.length_singleton] at lt
    have last : r = regMap.length := by omega
    subst last
    rw [List.getElem?_concat_length] at entry
    exact .inr ⟨rfl, Option.some.inj entry⟩

/-- The next number for the next register. -/
theorem Numbering.number (numbering : Numbering regMap nregs used nargs)
    (first : nregs < nargs → used = nregs) :
    Numbering (regMap ++ [(used : Int)]) (nregs + 1) (used + 1) nargs where
  length_eq := by rw [List.length_append, numbering.length_eq, List.length_singleton]
  below r p entry := by
    obtain old | last := entry_append entry
    · have := numbering.below r p old
      omega
    · omega
  distinct r r' p nonneg entry entry' := by
    obtain old | last := entry_append entry
    · obtain old' | last' := entry_append entry'
      · exact numbering.distinct r r' p nonneg old old'
      · have := numbering.below r p old
        omega
    · obtain old' | last' := entry_append entry'
      · have := numbering.below r' p old'
        omega
      · rw [last.1, last'.1]
  arguments r argument lt := by
    obtain lt | last := Nat.lt_succ_iff_lt_or_eq.mp lt
    · rw [List.getElem?_append_left (by rw [numbering.length_eq]; exact lt)]
      exact numbering.arguments r argument lt
    · subst last
      have place : (regMap ++ [(used : Int)])[regMap.length]? = some (used : Int) :=
        List.getElem?_concat_length
      rw [numbering.length_eq] at place
      rw [place, first argument]

/-- A gap for the next register. -/
theorem Numbering.gap (numbering : Numbering regMap nregs used nargs) (beyond : ¬ nregs < nargs) :
    Numbering (regMap ++ [-1]) (nregs + 1) used nargs where
  length_eq := by rw [List.length_append, numbering.length_eq, List.length_singleton]
  below r p entry := by
    obtain old | last := entry_append entry
    · exact numbering.below r p old
    · omega
  distinct r r' p nonneg entry entry' := by
    obtain old | last := entry_append entry
    · obtain old' | last' := entry_append entry'
      · exact numbering.distinct r r' p nonneg old old'
      · omega
    · omega
  arguments r argument lt := by
    rw [List.getElem?_append_left (by rw [numbering.length_eq]; omega)]
    exact numbering.arguments r argument (by omega)

/-- The map that the optimiser builds numbers the registers, and leaves no gap where one is
accessed. -/
theorem buildRegMap_numbering (accessed : Reg → Bool) (nargs n : Nat) :
    Numbering (buildRegMap accessed nargs n).1 n (buildRegMap accessed nargs n).2 nargs ∧
      (n ≤ nargs → (buildRegMap accessed nargs n).2 = n) ∧
      ∀ r, r < n → accessed r = true →
        ∃ p : Int, (buildRegMap accessed nargs n).1[r]? = some p ∧ 0 ≤ p := by
  induction n with
  | zero =>
    refine ⟨⟨rfl, ?_, ?_, fun r _ lt => by omega⟩, fun _ => rfl, fun r lt => by omega⟩
    · intro r p entry
      cases entry
    · intro r r' p _ entry
      cases entry
  | succ n ih =>
    obtain ⟨numbering, first, gapless⟩ := ih
    rw [buildRegMap]
    generalize buildRegMap accessed nargs n = built at *
    obtain ⟨regMap, used⟩ := built
    dsimp only at *
    have length_eq := numbering.length_eq
    by_cases counted : (accessed n || decide (n < nargs)) = true
    · rw [if_pos counted]
      refine ⟨numbering.number fun lt => first (Nat.le_of_lt lt), fun le => ?_, ?_⟩
      · dsimp only
        rw [first (by omega)]
      · intro r lt counts
        obtain lt | last := Nat.lt_succ_iff_lt_or_eq.mp lt
        · rw [List.getElem?_append_left (by omega)]
          exact gapless r lt counts
        · refine ⟨used, ?_, Int.natCast_nonneg used⟩
          rw [last, ← length_eq]
          exact List.getElem?_concat_length
    · rw [if_neg counted]
      have skipped : accessed n = false ∧ ¬ n < nargs := by simpa using counted
      refine ⟨numbering.gap skipped.2, fun le => absurd le skipped.2, ?_⟩
      intro r lt counts
      obtain lt | last := Nat.lt_succ_iff_lt_or_eq.mp lt
      · rw [List.getElem?_append_left (by omega)]
        exact gapless r lt counts
      · rw [last, skipped.1] at counts
        cases counts

end Registers

end Haxe.Source.Hl
