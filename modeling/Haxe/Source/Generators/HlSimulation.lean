import Haxe.Source.Generators.HlRemapRuns

/-!
# The renumbered function runs as the optimised one

A function as the generator emits it has its jumps inside of the code, and its last instruction
is none. What `remap_fun` makes of it is described instruction by instruction, and then one step
of the one function is a step of the other.
-/

namespace Haxe.Source.Hl

open Theory.Compaction

/-- What holds of a function that the generator has emitted. -/
structure WellFormed (f : Fundecl) : Prop where
  function : ∃ args ret, f.ftype = .hFun args ret
  lines : f.debug.length = f.code.length
  inside : ∀ (i : Nat) (op : Opcode), f.code[i]? = some op → ∀ d ∈ offsets op,
    0 ≤ (i : Int) + 1 + d ∧ (i : Int) + 1 + d < f.code.length
  followed : ∀ (i : Nat) (op : Opcode), f.code[i]? = some op → isJump op = true →
    i + 1 < f.code.length
  arguments : nargs f ≤ f.regs.length
  this : ∀ op ∈ f.code, usesThis op = true → 0 < nargs f

/-- The register map numbers the registers that the code mentions. -/
structure Numbered (ctx : Rctx) (f : Fundecl) : Prop where
  numbering : Numbering ctx.regMap f.regs.length ctx.usedRegs (nargs f)
  mentioned : ∀ op ∈ f.code, ∀ access ∈ opcodeFx op, ∃ p : Int,
    ctx.regMap[access.reg]? = some p ∧ 0 ≤ p

/-- The new number of a register. Where as many registers are used as there are, none changes. -/
def renamed (ctx : Rctx) (f : Fundecl) (r : Reg) : Reg :=
  if regRemap ctx f then mapped ctx.regMap r else r

/-- The offset that a jump of an instruction gets. -/
def offsetAt (code : List Opcode) (i : Nat) (d : Int) : Int :=
  (place kept code ((i : Int) + 1 + d).toNat : Int) - (place kept code (i + 1) : Int)

/-- The instructions, their lines and the types of their registers in the renumbered function. -/
structure Renumbered (ren : Reg → Reg) (f out : Fundecl) : Prop where
  length_eq : out.code.length = (f.code.filter kept).length
  code : ∀ (i : Nat) (op : Opcode), f.code[i]? = some op → kept op = true →
    out.code[place kept f.code i]? =
      some (offsetMap (offsetAt f.code i) (opcodeMap ren ren op))
  debug : ∀ (i : Nat) (op : Opcode), f.code[i]? = some op → kept op = true →
    out.debug[place kept f.code i]? = f.debug[i]?
  regs : ∀ op ∈ f.code, ∀ r ∈ operands op, out.regs[ren r]? = f.regs[r]?
  arguments : ∀ r, r < nargs f → ren r = r ∧ out.regs[r]? = f.regs[r]?

section Static

variable {ctx : Rctx} {f : Fundecl}

theorem opcodeMap_id (op : Opcode) : opcodeMap (fun r => r) (fun r => r) op = op := by
  cases op <;> simp [opcodeMap]

theorem operand_entry (formed : WellFormed f) (numbered : Numbered ctx f) {op : Opcode}
    (member : op ∈ f.code) {r : Reg} (operand : r ∈ operands op) :
    ∃ p : Int, ctx.regMap[r]? = some p ∧ 0 ≤ p := by
  rw [operands, List.mem_append] at operand
  obtain this | named := operand
  · split at this
    · rename_i uses
      rw [List.mem_singleton] at this
      subst this
      have called := formed.this op member uses
      have argument := numbered.numbering.arguments 0 called
        (Nat.lt_of_lt_of_le called formed.arguments)
      exact ⟨0, argument, Int.le_refl 0⟩
    · exact absurd this List.not_mem_nil
  · obtain ⟨access, member', same⟩ := List.mem_map.mp named
    subst same
    exact numbered.mentioned op member access member'

theorem numberRegs_eq (numbered : Numbered ctx f) {op : Opcode} (member : op ∈ f.code) :
    numberRegs ctx.regMap op = some (opcodeMap (mapped ctx.regMap) (mapped ctx.regMap) op) := by
  rw [numberRegs, if_pos]
  rw [List.all_eq_true]
  intro access member'
  obtain ⟨p, entry, nonneg⟩ := numbered.mentioned op member access member'
  rw [entry]
  exact decide_eq_true nonneg

/-- The renaming that the pass over the code uses. -/
theorem rename_eq (numbered : Numbered ctx f) {op : Opcode} (member : op ∈ f.code) :
    (if regRemap ctx f then numberRegs ctx.regMap else some) op =
      some (opcodeMap (renamed ctx f) (renamed ctx f) op) := by
  cases remaps : regRemap ctx f with
  | true =>
    have same : renamed ctx f = mapped ctx.regMap := by
      funext r
      rw [renamed, if_pos remaps]
    rw [if_pos rfl, numberRegs_eq numbered member, same]
  | false =>
    have same : renamed ctx f = fun r => r := by
      funext r
      rw [renamed, remaps, if_neg Bool.false_ne_true]
    rw [if_neg Bool.false_ne_true, same, opcodeMap_id]

theorem posAt_places (code : List Opcode) {at_ : Int} (nonneg : 0 ≤ at_)
    (below : at_ < code.length) :
    posAt ((List.range code.length).map (place kept code)) at_ =
      some (place kept code at_.toNat) := by
  have inside : at_.toNat < code.length := by omega
  rw [posAt, if_pos nonneg]
  simp [inside]

theorem pos_places {code : List Opcode} {i : Nat} {d : Int} (nonneg : 0 ≤ (i : Int) + 1 + d)
    (below : (i : Int) + 1 + d < code.length) (followed : i + 1 < code.length) :
    pos ((List.range code.length).map (place kept code)) i d = some (offsetAt code i d) := by
  rw [pos, posAt_places code nonneg below, posAt_places code (by omega) (by omega)]
  rfl

theorem places_get {code : List Opcode} {i : Nat} (inside : i < code.length) :
    ((List.range code.length).map (place kept code))[i]? = some (place kept code i) := by
  simp [inside]

/-- The positions of the jumps, the last of them first. -/
theorem mem_jumps {code : List Opcode} {j : Nat} :
    j ∈ (((code.zipIdx 0).filter fun e => isJump e.1).map Prod.snd).reverse ↔
      ∃ op, code[j]? = some op ∧ isJump op = true := by
  rw [List.mem_reverse, List.mem_map]
  constructor
  · intro found
    obtain ⟨⟨op, j'⟩, member, same⟩ := found
    cases same
    obtain ⟨member, jump⟩ := List.mem_filter.mp member
    exact ⟨op, List.mem_zipIdx_iff_getElem?.mp member, jump⟩
  · intro found
    obtain ⟨op, here, jump⟩ := found
    exact ⟨(op, j), List.mem_filter.mpr ⟨List.mem_zipIdx_iff_getElem?.mpr here, jump⟩, rfl⟩

theorem jumps_pairwise (code : List Opcode) :
    ((((code.zipIdx 0).filter fun e => isJump e.1).map Prod.snd).reverse).Pairwise
      fun j j' => j' < j := by
  have increasing : (((code.zipIdx 0).filter fun e => isJump e.1).map Prod.snd).Pairwise
      fun j j' => j < j' := by
    have all : ((code.zipIdx 0).map Prod.snd).Pairwise fun j j' => j < j' := by
      rw [List.zipIdx_map_snd]
      exact List.pairwise_lt_range'
    exact all.sublist (List.filter_sublist.map Prod.snd)
  exact List.pairwise_reverse.mpr increasing

theorem kept_count (code : List Opcode) :
    code.length - code.countP isNop = (code.filter kept).length := by
  have parts := List.length_eq_countP_add_countP isNop (l := code)
  have others : code.countP kept = code.countP fun op => ¬ isNop op = true := by
    apply List.countP_congr
    intro op _
    simp [kept]
  rw [← List.countP_eq_length_filter]
  omega

theorem remapAssigns_found {code : List Opcode} {assigns : List (Nat × Int)}
    (assigned : ∀ assign ∈ assigns, assign.2 < code.length) :
    ∃ assigns', remapAssigns ((List.range code.length).map (place kept code)) assigns =
      some assigns' := by
  refine ⟨_, mapM_found (g := fun assign =>
    if 0 ≤ assign.2 then (assign.1, (place kept code assign.2.toNat : Int)) else assign) ?_⟩
  intro assign member
  by_cases nonneg : 0 ≤ assign.2
  · rw [if_pos nonneg, if_pos nonneg, posAt_places code nonneg (assigned assign member)]
    rfl
  · rw [if_neg nonneg, if_neg nonneg]

/-- The jumps of the compacted code are put right. -/
theorem jumps_fixed (formed : WellFormed f) (ren : Reg → Reg) :
    ∃ code, ((((f.code.zipIdx 0).filter fun e => isJump e.1).map Prod.snd).reverse).foldlM
        (fixJump ((List.range f.code.length).map (place kept f.code)))
        ((f.code.filter kept).map (opcodeMap ren ren)) = some code ∧
      code.length = (f.code.filter kept).length ∧
      ∀ (i : Nat) (op : Opcode), f.code[i]? = some op → kept op = true →
        code[place kept f.code i]? =
          some (offsetMap (offsetAt f.code i) (opcodeMap ren ren op)) := by
  have placed (j : Nat) (op : Opcode) (here : f.code[j]? = some op) :=
    places_get (List.getElem?_eq_some_iff.mp here).1
  have written (j : Nat) (op : Opcode) (here : f.code[j]? = some op) (stays : kept op = true) :
      ((f.code.filter kept).map (opcodeMap ren ren))[place kept f.code j]? =
        some (opcodeMap ren ren op) := by
    rw [List.getElem?_map, filter_place here stays]
    rfl
  have apart (j j' : Nat) (op : Opcode) (here : f.code[j]? = some op) (stays : kept op = true)
      (lt : j < j') : place kept f.code j ≠ place kept f.code j' :=
    Nat.ne_of_lt (place_injective ⟨op, here, stays⟩ lt)
  obtain ⟨code, runs, same, fixed, rest⟩ := fixJumps_eq
    ((List.range f.code.length).map (place kept f.code)) (offsetAt f.code) _
    ((f.code.filter kept).map (opcodeMap ren ren)) (fun j member => by
      obtain ⟨op, here, jump⟩ := mem_jumps.mp member
      refine ⟨_, _, placed j op here, written j op here (kept_of_isJump jump), ?_, ?_⟩
      · rw [isJump_opcodeMap, jump]
      · intro d offset
        rw [offsets_opcodeMap] at offset
        obtain ⟨nonneg, below⟩ := formed.inside j op here d offset
        exact pos_places nonneg below (formed.followed j op here jump))
    ((jumps_pairwise f.code).imp_of_mem fun {j j'} member member' lt => by
      obtain ⟨op, here, _⟩ := mem_jumps.mp member
      obtain ⟨op', here', jump'⟩ := mem_jumps.mp member'
      rw [placed j op here, placed j' op' here']
      intro equal
      exact apart j' j op' here' (kept_of_isJump jump') lt (Option.some.inj equal).symm)
  refine ⟨code, runs, by rw [same, List.length_map], fun i op here stays => ?_⟩
  cases jump : isJump op with
  | true =>
    exact fixed i (mem_jumps.mpr ⟨op, here, jump⟩) _ _ (placed i op here) (written i op here stays)
  | false =>
    rw [offsetMap_of_no_jump (by rw [isJump_opcodeMap, jump]), rest _ ?_, written i op here stays]
    intro j member equal
    obtain ⟨op', here', jump'⟩ := mem_jumps.mp member
    rw [placed j op' here'] at equal
    have same := Option.some.inj equal
    obtain lt | eq | gt := Nat.lt_trichotomy i j
    · exact apart i j op here stays lt same.symm
    · subst eq
      rw [here] at here'
      cases here'
      rw [jump] at jump'
      cases jump'
    · exact apart j i op' here' (kept_of_isJump jump') gt same

/-- The lines of the instructions that stay. -/
theorem debug_place {code : List Opcode} {debug : List (Int × Int)} {i : Nat} {op : Opcode}
    (here : code[i]? = some op) (stays : kept op = true) (lines : debug.length = code.length) :
    (((code.zip debug).filter fun e => kept e.1).map Prod.snd)[place kept code i]? = debug[i]? := by
  induction code generalizing debug i with
  | nil => cases here
  | cons first code ih =>
    cases debug with
    | nil => cases lines
    | cons line debug =>
      have lines' := Nat.succ.inj lines
      cases i with
      | zero =>
        cases here
        simp [stays]
      | succ i =>
        rw [List.getElem?_cons_succ] at here
        rw [place_cons, List.getElem?_cons_succ, ← ih here lines']
        by_cases keeps : kept first = true
        · simp [keeps]
        · simp [keeps]

theorem debug_length {code : List Opcode} {debug : List (Int × Int)}
    (lines : debug.length = code.length) :
    (((code.zip debug).filter fun e => kept e.1).map Prod.snd).length =
      (code.filter kept).length := by
  induction code generalizing debug with
  | nil => rfl
  | cons first code ih =>
    cases debug with
    | nil => cases lines
    | cons line debug =>
      have rest := ih (Nat.succ.inj lines)
      rw [List.length_map] at rest ⊢
      by_cases keeps : kept first = true
      · simp [keeps, rest]
      · simp [keeps, rest]

theorem compact_code (numbered : Numbered ctx f) (formed : WellFormed f)
    (nops : ctx.nopCount = f.code.countP isNop) :
    compact (if regRemap ctx f then numberRegs ctx.regMap else some) f.debug
        (f.code.length - ctx.nopCount) 0 f.code ⟨[], [], [], []⟩ =
      some (compacted (opcodeMap (renamed ctx f) (renamed ctx f)) f.debug 0 f.code
        ⟨[], [], [], []⟩) := by
  apply compact_eq
  · intro op member _
    exact rename_eq numbered member
  · rw [formed.lines]
    omega
  · rw [nops, kept_count]
    simp

theorem place_of_no_nops {code : List Opcode} (none : code.countP isNop = 0) {i : Nat}
    (le : i ≤ code.length) : place kept code i = i := by
  have count : (code.take i).countP kept = (code.take i).length := by
    rw [List.countP_eq_length]
    intro op member
    have absent := List.countP_eq_zero.mp none op (List.mem_of_mem_take member)
    simpa [kept] using absent
  rw [place, count, List.length_take]
  omega

/-- Where nothing is taken out, every offset stays. -/
theorem offsetMap_of_no_nops (formed : WellFormed f) (none : f.code.countP isNop = 0) {i : Nat}
    {op : Opcode} (here : f.code[i]? = some op) : offsetMap (offsetAt f.code i) op = op := by
  have stays (d : Int) (offset : d ∈ offsets op) : offsetAt f.code i d = d := by
    obtain ⟨nonneg, below⟩ := formed.inside i op here d offset
    have next : i + 1 ≤ f.code.length := (List.getElem?_eq_some_iff.mp here).1
    rw [offsetAt, place_of_no_nops none (by omega), place_of_no_nops none next]
    omega
  cases op
  case oSwitch r cases_ send =>
    have all : cases_.map (offsetAt f.code i) = cases_ :=
      calc cases_.map (offsetAt f.code i) = cases_.map id :=
            List.map_congr_left fun d member => stays d (List.mem_append_left [send] member)
        _ = cases_ := List.map_id cases_
    rw [offsetMap, all, stays send (List.mem_append_right cases_ List.mem_cons_self)]
  all_goals
    first
    | rfl
    | rw [offsetMap, stays _ List.mem_cons_self]

/-- The types of the renumbered function. -/
theorem types_renumbered (numbered : Numbered ctx f) (formed : WellFormed f) :
    ∃ regs, (if regRemap ctx f then numberTypes ctx.regMap f.regs ctx.usedRegs
        else some f.regs) = some regs ∧
      (∀ op ∈ f.code, ∀ r ∈ operands op, regs[renamed ctx f r]? = f.regs[r]?) ∧
      ∀ r, r < nargs f → renamed ctx f r = r ∧ regs[r]? = f.regs[r]? := by
  cases remaps : regRemap ctx f with
  | true =>
    obtain ⟨regs, runs, _, typed⟩ := numberTypes_eq numbered.numbering
    refine ⟨regs, by rw [if_pos rfl, runs], ?_, ?_⟩
    · intro op member r operand
      obtain ⟨p, entry, nonneg⟩ := operand_entry formed numbered member operand
      rw [renamed, if_pos remaps, mapped_eq entry]
      exact typed r p entry nonneg
    · intro r argument
      have inside := Nat.lt_of_lt_of_le argument formed.arguments
      have entry := numbered.numbering.arguments r argument inside
      refine ⟨?_, ?_⟩
      · rw [renamed, if_pos remaps, mapped_argument numbered.numbering argument inside]
      · exact typed r r entry (Int.natCast_nonneg r)
  | false =>
    have same (r : Reg) : renamed ctx f r = r := by
      rw [renamed, remaps, if_neg Bool.false_ne_true]
    refine ⟨f.regs, by rw [if_neg Bool.false_ne_true], ?_, fun r _ => ⟨same r, rfl⟩⟩
    intro op _ r _
    rw [same]

/-- `remap_fun` gives a result, and it is the renumbered function. -/
theorem remapFun_renumbered (formed : WellFormed f) (numbered : Numbered ctx f)
    (nops : ctx.nopCount = f.code.countP isNop) {assigns : List (Nat × Int)}
    (assigned : ∀ assign ∈ assigns, assign.2 < f.code.length) :
    ∃ out, remapFun ctx f assigns = some out ∧ Renumbered (renamed ctx f) f out := by
  obtain ⟨args, ret, type⟩ := formed.function
  obtain ⟨regs, types, typed, arguments⟩ := types_renumbered numbered formed
  by_cases changes : 0 < ctx.nopCount ∨ regRemap ctx f
  · obtain ⟨code, runs, same, placed⟩ := jumps_fixed formed (renamed ctx f)
    obtain ⟨assigns', resolved⟩ := remapAssigns_found assigned
    have enough : ¬ f.code.length < ctx.nopCount := by
      rw [nops]
      exact Nat.not_lt.mpr List.countP_le_length
    have size : f.code.length - ctx.nopCount = (f.code.filter kept).length := by
      rw [nops, kept_count]
    have ran := compact_code numbered formed nops
    refine ⟨⟨f.fpath, f.findex, f.ftype, regs, code,
      (((f.code.zip f.debug).filter fun e => kept e.1).map Prod.snd), assigns'⟩, ?_, ?_⟩
    · have lines := debug_length formed.lines
      unfold remapFun
      simp only [type, if_pos changes, if_neg enough]
      rw [ran]
      simp only [compacted, List.nil_append, List.append_nil, Option.bind_eq_bind,
        Option.bind_some, List.drop_zero, List.length_map, size, Nat.sub_self,
        List.replicate_zero, List.length_nil, Nat.zero_add]
      rw [runs]
      rw [List.length_map] at lines
      simp only [Option.bind_some, resolved, lines, Nat.sub_self, List.replicate_zero,
        List.append_nil]
      cases remaps : regRemap ctx f with
      | true =>
        rw [remaps, if_pos rfl] at types
        rw [if_pos rfl, types]
        rfl
      | false =>
        rw [remaps, if_neg Bool.false_ne_true] at types
        cases types
        rfl
    · exact ⟨same, placed, fun i op here stays => debug_place here stays formed.lines, typed,
        arguments⟩
  · have none : f.code.countP isNop = 0 := by omega
    refine ⟨{ f with assigns := assigns }, ?_, ?_⟩
    · unfold remapFun
      simp only [type, if_neg changes]
    · have remaps : regRemap ctx f = false := by
        cases remaps : regRemap ctx f
        · rfl
        · exact absurd (.inr remaps) changes
      have same : renamed ctx f = fun r => r := by
        funext r
        rw [renamed, remaps, if_neg Bool.false_ne_true]
      have stays {i : Nat} {op : Opcode} (here : f.code[i]? = some op) :
          place kept f.code i = i :=
        place_of_no_nops none (Nat.le_of_lt (List.getElem?_eq_some_iff.mp here).1)
      have all : (f.code.filter kept).length = f.code.length := by
        rw [← kept_count, none, Nat.sub_zero]
      refine ⟨all.symm, fun i op here _ => ?_, fun i op here _ => by rw [stays here], ?_, ?_⟩
      · rw [same, opcodeMap_id, stays here, offsetMap_of_no_nops formed none here, here]
      · intro op _ r _
        rw [same]
      · intro r _
        rw [same]
        exact ⟨rfl, rfl⟩

end Static

section Dynamic

variable {f out : Fundecl} {ren : Reg → Reg} {Cell World : Type*}

/-- The offsets that a control refers to. -/
def controlOffsets : Control → List Int
  | .cJCond d | .cJAlways d | .cTry d => [d]
  | .cSwitch cases => cases
  | _ => []

theorem controlOffsets_subset (op : Opcode) : controlOffsets (control op) ⊆ offsets op := by
  cases op
  case oSwitch r cases_ send => exact List.subset_append_left cases_ [send]
  all_goals exact List.Subset.refl _

theorem land_place (formed : WellFormed f) {pc : Nat} {op : Opcode}
    (here : f.code[pc]? = some op) (stays : kept op = true) {d : Int} (offset : d ∈ offsets op) :
    land (place kept f.code pc) (offsetAt f.code pc d) =
      (land pc d).map (place kept f.code) := by
  have next := place_kept here stays
  obtain ⟨nonneg, _⟩ := formed.inside pc op here d offset
  have target : (place kept f.code pc : Int) + 1 + offsetAt f.code pc d =
      place kept f.code ((pc : Int) + 1 + d).toNat := by
    rw [offsetAt]
    omega
  rw [land, land, target, if_pos nonneg, if_pos (Int.natCast_nonneg _)]
  rfl

/-- The control goes on at the places of the positions where it went on. -/
theorem follow_move (formed : WellFormed f) {pc : Nat} {op : Opcode}
    (here : f.code[pc]? = some op) (stays : kept op = true) (traps : List Nat) (world : World)
    (outcome : Outcome) :
    follow (offsetMap (offsetAt f.code pc) (opcodeMap ren ren op)) (place kept f.code pc)
        (traps.map (place kept f.code)) world outcome =
      (follow op pc traps world outcome).map (Config.move (place kept f.code)) := by
  have next := place_kept here stays
  have lands (d : Int) (offset : d ∈ controlOffsets (control op)) :=
    land_place formed here stays (controlOffsets_subset op offset)
  cases outcome with
  | next =>
    rw [follow, follow, control_offsetMap, control_opcodeMap, isEndTrap_offsetMap,
      isEndTrap_opcodeMap]
    cases passes : control op
    case cTry d =>
      have landed := lands d (by rw [passes]; exact List.mem_cons_self)
      simp only [Control.offsetMap]
      rw [landed]
      cases land pc d <;> simp [Config.move, next]
    all_goals
      cases ends : isEndTrap op <;> simp [Control.offsetMap, Config.move, next]
  | jump =>
    rw [follow, follow, control_offsetMap, control_opcodeMap]
    cases passes : control op
    case cJCond d =>
      have landed := lands d (by rw [passes]; exact List.mem_cons_self)
      simp only [Control.offsetMap]
      rw [landed]
      cases land pc d <;> rfl
    case cJAlways d =>
      have landed := lands d (by rw [passes]; exact List.mem_cons_self)
      simp only [Control.offsetMap]
      rw [landed]
      cases land pc d <;> rfl
    all_goals rfl
  | switchCase k =>
    rw [follow, follow, control_offsetMap, control_opcodeMap]
    cases passes : control op
    case cSwitch cases_ =>
      simp only [Control.offsetMap, List.getElem?_map]
      cases chosen : cases_[k]? with
      | none => simp [Config.move, next]
      | some d =>
        have landed := lands d (by rw [passes]; exact List.mem_of_getElem? chosen)
        simp only [Option.map_some]
        rw [landed]
        cases land pc d <;> rfl
    all_goals rfl
  | ret => rfl
  | throw => cases traps <;> rfl

/-- The operands have the same types and cells under their new numbers. -/
theorem locate_map {regs regs' : List Ttype} {cell cell' : Reg → Cell} {rs : List Reg}
    (typed : ∀ r ∈ rs, regs'[ren r]? = regs[r]?) (laid : ∀ r ∈ rs, cell' (ren r) = cell r) :
    locate regs' cell' (rs.map ren) = locate regs cell rs := by
  induction rs with
  | nil => rfl
  | cons r rs ih =>
    have rest := ih (fun r' member => typed r' (List.mem_cons_of_mem r member))
      fun r' member => laid r' (List.mem_cons_of_mem r member)
    unfold locate at rest ⊢
    rw [List.map_cons, List.mapM_cons, List.mapM_cons, rest, typed r List.mem_cons_self,
      laid r List.mem_cons_self]

variable (m : Machine Cell World) {cell cell' : Reg → Cell}

/-- The step of an instruction that stays. -/
theorem step_move (formed : WellFormed f) (renumbered : Renumbered ren f out)
    (laid : ∀ op ∈ f.code, ∀ r ∈ operands op, cell' (ren r) = cell r) {pc : Nat} {op : Opcode}
    (here : f.code[pc]? = some op) (stays : kept op = true) (traps : List Nat) (world : World) :
    step m out cell' (.running (place kept f.code pc) (traps.map (place kept f.code)) world) =
      (step m f cell (.running pc traps world)).map fun result =>
        (result.1.map (place kept f.code), result.2.move (place kept f.code)) := by
  have member := List.mem_of_getElem? here
  have this (uses : usesThis op = true) : ren 0 = 0 :=
    (renumbered.arguments 0 (formed.this op member uses)).1
  have live : isNop op = false := by simpa [kept] using stays
  have located := locate_map (renumbered.regs op member) (laid op member)
  simp only [step, renumbered.code pc op here stays, here, isNop_offsetMap, isNop_opcodeMap, live,
    operands_moved ren op _ this, skeleton_moved, located, if_neg Bool.false_ne_true]
  cases locate f.regs cell (operands op) with
  | none => rfl
  | some values =>
    simp only [Option.bind_some, follow_move formed here stays]
    cases follow op pc traps (m.exec (skeleton op) values world).1
      (m.exec (skeleton op) values world).2 <;> rfl

/-- The step over an instruction that is taken out. -/
theorem step_nop {pc : Nat} {op : Opcode} (here : f.code[pc]? = some op) (out_ : kept op = false)
    (traps : List Nat) (world : World) :
    step m f cell (.running pc traps world) = some (none, .running (pc + 1) traps world) := by
  have nop : isNop op = true := by simpa [kept] using out_
  simp only [step, here, nop, if_pos]

/-- A step that is seen is one of an instruction that stays. -/
theorem step_kept {pc : Nat} {op : Opcode} (here : f.code[pc]? = some op) (stays : kept op = true)
    {traps : List Nat} {world : World} {e : Option Nat} {c : Config World}
    (went : step m f cell (.running pc traps world) = some (e, c)) : e = some pc := by
  have live : isNop op = false := by simpa [kept] using stays
  simp only [step, here, live, if_neg Bool.false_ne_true] at went
  obtain ⟨values, _, rest⟩ := Option.bind_eq_some_iff.mp went
  obtain ⟨_, _, same⟩ := Option.map_eq_some_iff.mp rest
  exact (congrArg Prod.fst same).symm

/-- Taking instructions out contracts the steps over them. -/
theorem step_contracts (formed : WellFormed f) (renumbered : Renumbered ren f out)
    (laid : ∀ op ∈ f.code, ∀ r ∈ operands op, cell' (ren r) = cell r) :
    Contracts (step m f cell) (step m out cell') (place kept f.code)
      (Config.move (place kept f.code)) (Config.left f.code.length) where
  silent s s' went := by
    cases s with
    | running pc traps world =>
      cases here : f.code[pc]? with
      | none =>
        simp only [step, here] at went
        cases went
      | some op =>
        cases stays : kept op with
        | true =>
          cases step_kept m here stays went
        | false =>
          rw [step_nop m here stays] at went
          cases went
          have inside := (List.getElem?_eq_some_iff.mp here).1
          have same := place_dropped here stays
          refine ⟨by rw [Config.move, Config.move, same], ?_⟩
          rw [Config.left, Config.left]
          omega
    | returned world => cases went
    | thrown world => cases went
  seen s e s' went := by
    cases s with
    | running pc traps world =>
      cases here : f.code[pc]? with
      | none =>
        simp only [step, here] at went
        cases went
      | some op =>
        cases stays : kept op with
        | true =>
          rw [Config.move, step_move m formed renumbered laid here stays, went]
          rfl
        | false =>
          rw [step_nop m here stays] at went
          cases went
    | returned world => cases went
    | thrown world => cases went
  ended s went := by
    cases s with
    | running pc traps world =>
      cases here : f.code[pc]? with
      | none =>
        have beyond := List.getElem?_eq_none_iff.mp here
        have all : place kept f.code pc = out.code.length := by
          rw [renumbered.length_eq, place, List.take_of_length_le beyond,
            List.countP_eq_length_filter]
        have off : out.code[place kept f.code pc]? = none := by
          rw [all]
          exact List.getElem?_eq_none (Nat.le_refl _)
        simp only [Config.move, step, off]
      | some op =>
        cases stays : kept op with
        | true =>
          rw [Config.move, step_move m formed renumbered laid here stays, went]
          rfl
        | false =>
          rw [step_nop m here stays] at went
          cases went
    | returned world => rfl
    | thrown world => rfl

end Dynamic

section Frames

variable {ctx : Rctx} {f : Fundecl} {Cell : Type*}

/-- A register that a run of the function uses. -/
def Used (f : Fundecl) (r : Reg) : Prop := r < nargs f ∨ ∃ op ∈ f.code, r ∈ operands op

theorem renamed_injective (formed : WellFormed f) (numbered : Numbered ctx f) {r r' : Reg}
    (used : Used f r) (used' : Used f r') (same : renamed ctx f r = renamed ctx f r') :
    r = r' := by
  have entry {r : Reg} (used : Used f r) : ∃ p : Int, ctx.regMap[r]? = some p ∧ 0 ≤ p := by
    obtain argument | mentioned := used
    · have inside := Nat.lt_of_lt_of_le argument formed.arguments
      exact ⟨r, numbered.numbering.arguments r argument inside, Int.natCast_nonneg r⟩
    · obtain ⟨op, member, operand⟩ := mentioned
      exact operand_entry formed numbered member operand
  unfold renamed at same
  split at same
  · obtain ⟨p, here, nonneg⟩ := entry used
    obtain ⟨p', here', nonneg'⟩ := entry used'
    rw [mapped_eq here, mapped_eq here'] at same
    have equal : p' = p := by
      have numbers : p.toNat = p'.toNat := same
      omega
    exact numbered.numbering.distinct r r' p nonneg here (equal ▸ here')
  · exact same

/-- The cells of the registers can be laid out under the new numbers. -/
theorem cells_laid (formed : WellFormed f) (numbered : Numbered ctx f) (cell : Reg → Cell) :
    ∃ cell' : Reg → Cell, ∀ r, Used f r → cell' (renamed ctx f r) = cell r := by
  classical
  refine ⟨fun p => if found : ∃ r, Used f r ∧ renamed ctx f r = p then cell found.choose
    else cell p, fun r used => ?_⟩
  have found : ∃ r', Used f r' ∧ renamed ctx f r' = renamed ctx f r := ⟨r, used, rfl⟩
  obtain ⟨used', same⟩ := found.choose_spec
  have back : found.choose = r := renamed_injective formed numbered used' used same
  simp only [dif_pos found]
  exact congrArg cell back

/-- The map that `_optimize` builds numbers the registers of the code, where every register that
the code mentions was counted. -/
theorem buildRegMap_numbered (accessed : Reg → Bool) (nopCount : Nat)
    (counted : ∀ op ∈ f.code, ∀ access ∈ opcodeFx op,
      accessed access.reg = true ∧ access.reg < f.regs.length) :
    Numbered ⟨(buildRegMap accessed (nargs f) f.regs.length).2, nopCount,
      (buildRegMap accessed (nargs f) f.regs.length).1⟩ f where
  numbering := (buildRegMap_numbering accessed (nargs f) f.regs.length).1
  mentioned op member access found := by
    obtain ⟨_, _, gapless⟩ := buildRegMap_numbering accessed (nargs f) f.regs.length
    obtain ⟨counts, inside⟩ := counted op member access found
    exact gapless access.reg inside counts

end Frames

/-- A jump target leads to the first instruction behind it that stays, or to the end. -/
theorem place_lands (code : List Opcode) {t : Nat} (le : t ≤ code.length) :
    ∃ u, t ≤ u ∧ u ≤ code.length ∧ place kept code t = place kept code u ∧
      (∀ k, t ≤ k → k < u → ∃ op, code[k]? = some op ∧ kept op = false) ∧
      (u = code.length ∨ ∃ op, code[u]? = some op ∧ kept op = true) := by
  induction left : code.length - t generalizing t with
  | zero =>
    exact ⟨t, Nat.le_refl t, le, rfl, fun k from_ below => by omega, .inl (by omega)⟩
  | succ n ih =>
    have inside : t < code.length := by omega
    have here : code[t]? = some code[t] := List.getElem?_eq_getElem inside
    cases stays : kept code[t] with
    | true =>
      exact ⟨t, Nat.le_refl t, le, rfl, fun k from_ below => by omega, .inr ⟨_, here, stays⟩⟩
    | false =>
      obtain ⟨u, above, below, same, dropped, ends⟩ := ih inside (by omega)
      have first := place_dropped here stays
      refine ⟨u, by omega, below, first.symm.trans same, fun k from_ lt => ?_, ends⟩
      obtain first | later := Nat.eq_or_lt_of_le from_
      · subst first
        exact ⟨_, here, stays⟩
      · exact dropped k later lt

end Haxe.Source.Hl
