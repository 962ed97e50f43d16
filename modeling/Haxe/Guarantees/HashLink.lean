import Haxe.Source.Generators.HlPropagationRuns
import Haxe.Source.Generators.HlSimulation
import Haxe.Source.Generators.HlDebugInfos
import Haxe.Source.Generators.HlEffects

/-!
# The HashLink optimiser

Taking out the instructions that became `ONop` and numbering the registers anew keeps every run
of a function, on any machine. The aliases of copy propagation hold on every path as long as no
block runs into the beginning of another. The table of register effects agrees with the interpreter
but for `OSetref` and the opcodes on `this`.
-/

namespace Haxe.Guarantees

open Source.Hl
open Theory.Compaction

/-- The one function runs as the other, with the registers renamed: the instructions that stay,
their lines, the types of the registers, where the jumps lead, and the runs. The positions of the
instructions that are executed are what is seen of a run. -/
structure Simulates (ren : Reg → Reg) (f out : Fundecl) : Prop where
  renumbered : Renumbered ren f out
  lands : ∀ t, t ≤ f.code.length → ∃ u, t ≤ u ∧ u ≤ f.code.length ∧
    place kept f.code t = place kept f.code u ∧
    (∀ k, t ≤ k → k < u → ∃ op, f.code[k]? = some op ∧ kept op = false) ∧
    (u = f.code.length ∨ ∃ op, f.code[u]? = some op ∧ kept op = true)
  laid : ∀ (Cell : Type) (cell : Reg → Cell), ∃ cell' : Reg → Cell,
    ∀ r, Used f r → cell' (ren r) = cell r
  runs : ∀ (Cell World : Type) (m : Machine Cell World) (cell cell' : Reg → Cell),
    (∀ r, Used f r → cell' (ren r) = cell r) → ∀ s : Config World,
      (∀ positions t, Runs (step m f cell) s positions t →
        Runs (step m out cell') (s.move (place kept f.code))
          (positions.map (place kept f.code)) (t.move (place kept f.code))) ∧
      ∀ positions' t', Runs (step m out cell') (s.move (place kept f.code)) positions' t' →
        ∃ positions t, Runs (step m f cell) s positions t ∧
          positions' = positions.map (place kept f.code) ∧ t' = t.move (place kept f.code)

/-- Removing `ONop` and renumbering the registers. -/
theorem remapped_function_simulates (ctx : Rctx) (f : Fundecl) (assigns : List (Nat × Int))
    (formed : WellFormed f) (numbered : Numbered ctx f)
    (nops : ctx.nopCount = f.code.countP isNop)
    (assigned : ∀ assign ∈ assigns, assign.2 < f.code.length) :
    ∃ out, remapFun ctx f assigns = some out ∧ Simulates (renamed ctx f) f out := by
  obtain ⟨out, done, renumbered⟩ := remapFun_renumbered formed numbered nops assigned
  refine ⟨out, done, renumbered, fun t le => place_lands f.code le,
    fun Cell cell => cells_laid formed numbered cell, ?_⟩
  intro Cell World m cell cell' laid s
  have contracts := step_contracts m formed renumbered fun op member r operand =>
    laid r (.inr ⟨op, member, operand⟩)
  exact ⟨fun positions t run => contracts.forward run,
    fun positions' t' run => contracts.backward run⟩

/-- A loop over its argument, with a copy that was taken out and a register left unused. -/
def countdown : Fundecl where
  fpath := ("Main", "countdown")
  findex := 0
  ftype := .hFun [.hI32] .hI32
  regs := [.hI32, .hF64, .hI32]
  code := [.oLabel 0, .oNop "mov", .oJTrue 0 1, .oJAlways (-4), .oMov 2 0, .oRet 2]
  debug := [(0, 1), (0, 1), (0, 2), (0, 2), (0, 3), (0, 3)]
  assigns := []

def countdownCtx : Rctx := ⟨2, 1, [0, -1, 1]⟩

theorem countdown_formed : WellFormed countdown where
  function := ⟨[.hI32], .hI32, rfl⟩
  lines := rfl
  inside i op here d offset := by
    rcases i with _ | _ | _ | _ | _ | _ | i <;> cases here <;>
      simp [offsets, Source.Hl.control] at offset <;> subst offset <;> decide
  followed i op here jump := by
    rcases i with _ | _ | _ | _ | _ | _ | i <;> cases here <;> first | decide | cases jump
  arguments := by decide
  this op member uses := by
    simp only [countdown, List.mem_cons, List.not_mem_nil, or_false] at member
    rcases member with rfl | rfl | rfl | rfl | rfl | rfl <;> cases uses

theorem countdown_numbered : Numbered countdownCtx countdown where
  numbering := by
    refine ⟨rfl, ?_, ?_, ?_⟩
    · intro r p entry
      rcases r with _ | _ | _ | r <;> cases entry <;> decide
    · intro r r' p nonneg entry entry'
      rcases r with _ | _ | _ | r <;> rcases r' with _ | _ | _ | r' <;> cases entry <;>
        cases entry' <;> rfl
    · intro r argument lt
      rcases r with _ | r
      · rfl
      · exact absurd argument (Nat.not_lt.mpr (Nat.le_add_left 1 r))
  mentioned op member access found := by
    simp only [countdown, List.mem_cons, List.not_mem_nil, or_false] at member
    rcases member with rfl | rfl | rfl | rfl | rfl | rfl <;>
      simp [opcodeFx, Source.Hl.read, Source.Hl.write] at found
    · exact ⟨0, by rw [found]; rfl, by decide⟩
    · obtain first | second := found
      · exact ⟨0, by rw [first]; rfl, by decide⟩
      · exact ⟨1, by rw [second]; rfl, by decide⟩
    · exact ⟨1, by rw [found]; rfl, by decide⟩

theorem countdown_simulates :
    ∃ out, remapFun countdownCtx countdown [] = some out ∧
      Simulates (renamed countdownCtx countdown) countdown out :=
  remapped_function_simulates countdownCtx countdown [] countdown_formed countdown_numbered
    (by decide) fun assign member => absurd member List.not_mem_nil

/-- What `_optimize` gives to `remap_fun`: the registers that are counted and the arguments are
numbered, and the `ONop` are dropped. -/
def numberedCtx (accessed : Reg → Bool) (f : Fundecl) : Rctx :=
  ⟨(buildRegMap accessed (nargs f) f.regs.length).2, f.code.countP isNop,
    (buildRegMap accessed (nargs f) f.regs.length).1⟩

/-- The second register is not mentioned, and has the number of the first one. -/
def clashing : Fundecl where
  fpath := ("Main", "clashing")
  findex := 0
  ftype := .hFun [] .hI32
  regs := [.hI32, .hF64]
  code := [.oInt 0 0, .oNop "unused", .oRet 0]
  debug := [(0, 1), (0, 1), (0, 2)]
  assigns := []

def clashingCtx : Rctx := ⟨1, 1, [0, 0]⟩

theorem clashing_formed : WellFormed clashing where
  function := ⟨[], .hI32, rfl⟩
  lines := rfl
  inside i op here d offset := by
    rcases i with _ | _ | _ | i <;> cases here <;> cases offset
  followed i op here jump := by
    rcases i with _ | _ | _ | i <;> cases here <;> cases jump
  arguments := by decide
  this op member uses := by
    simp only [clashing, List.mem_cons, List.not_mem_nil, or_false] at member
    rcases member with rfl | rfl | rfl <;> cases uses

theorem clashing_mentions {op : Opcode} (member : op ∈ clashing.code) {access : Access}
    (found : access ∈ opcodeFx op) : access.reg = 0 := by
  simp only [clashing, List.mem_cons, List.not_mem_nil, or_false] at member
  rcases member with rfl | rfl | rfl <;>
    simp [opcodeFx, Source.Hl.read, Source.Hl.write] at found <;> rw [found]

/-- It is not enough that the map is injective on the registers that the code mentions. -/
theorem unmentioned_register_clashes :
    ¬ ∀ (ctx : Rctx) (f : Fundecl) (assigns : List (Nat × Int)), WellFormed f →
      ctx.nopCount = f.code.countP isNop → ctx.regMap.length = f.regs.length →
      (∀ op ∈ f.code, ∀ access ∈ opcodeFx op,
        ∃ p : Int, ctx.regMap[access.reg]? = some p ∧ 0 ≤ p ∧ p < ctx.usedRegs) →
      (∀ op ∈ f.code, ∀ op' ∈ f.code, ∀ access ∈ opcodeFx op, ∀ access' ∈ opcodeFx op',
        ctx.regMap[access.reg]? = ctx.regMap[access'.reg]? → access.reg = access'.reg) →
      (∀ assign ∈ assigns, assign.2 < f.code.length) →
      ∃ out, remapFun ctx f assigns = some out ∧ Simulates (renamed ctx f) f out := by
  intro claimed
  obtain ⟨out, done, simulates⟩ := claimed clashingCtx clashing [] clashing_formed (by decide) rfl
    (fun op member access found =>
      ⟨0, by rw [clashing_mentions member found]; rfl, by decide, by decide⟩)
    (fun op member op' member' access found access' found' _ => by
      rw [clashing_mentions member found, clashing_mentions member' found'])
    fun assign member => absurd member List.not_mem_nil
  cases done
  have member : Opcode.oRet 0 ∈ clashing.code := by simp [clashing]
  have types := simulates.renumbered.regs (.oRet 0) member 0 (by decide)
  cases types

/-- Copy propagation keeps its books in every state, and an alias has the value of what it is an
alias of whenever a path reaches the instruction. -/
def CopiesSound (f : Fundecl) : Prop :=
  ∃ g s, codeGraph f.code = some g ∧ propagation f g = some s ∧
    (∀ v ∈ s.visits, Kept v.before ∧ Kept v.after) ∧
    ∀ (V : Type) (b : Block) (i : Nat) (ρ : Reg → V), Reaches f.code (g.find f.code) b i ρ →
      (∃ v ∈ s.visits, v.block = b.bstart ∧ v.index = i) ∧
        ∀ v ∈ s.visits, v.block = b.bstart → v.index = i →
          ∀ r r', (v.before r).ralias = r' → ρ r = ρ r'

section Propagation

variable {f : Fundecl} {g : BlockGraph}

theorem start_inv (V : Type) (f : Fundecl) (blocks : Nat → Option Block) :
    Inv V f blocks ⟨f.code, fun _ => emptyState, 0, fun _ => none, .empty, []⟩ where
  code _ _ := rfl
  addr _ _ done := by cases done
  known _ done := absurd rfl done
  owner _ _ _ done := by cases done
  exit _ _ _ done := by cases done
  visits _ member := absurd member List.not_mem_nil
  covered _ _ done := absurd rfl done

/-- The propagation ends with every block done that a path reaches. -/
theorem propagation_some (V : Type) (graph : codeGraph f.code = some g) (valid : ValidCode f)
    (separated : Separated f.code) : ∃ s, propagation f g = some s ∧ Inv V f (g.find f.code) s ∧
      s.bstate 0 ≠ none ∧ ∀ p b, s.bstate p ≠ none → g.find f.code p = some b →
        ∀ c ∈ b.bnext, s.bstate c ≠ none := by
  obtain ⟨root, found⟩ := find_some graph (root_seen graph)
  have plain (loop : root.bloop = false) (p : Nat) (member : p ∈ root.bprev) : False :=
    Nat.not_lt_zero p (prev_lt graph valid found loop member)
  obtain ⟨s, runs, inv, _, closed, done⟩ := (propagates (V := V) graph valid separated
    (propagateFuel f.code)).1 _ 0 root (start_inv V f _) found rfl
      (fun loop p member => (plain loop p member).elim) (by
        have le : (List.range f.code.length).countP (fun _ => true) ≤ f.code.length :=
          Nat.le_trans List.countP_le_length (Nat.le_of_eq List.length_range)
        have product := Nat.mul_le_mul_right (f.code.length + 1) le
        unfold fuelFor propagateFuel pending
        dsimp only [Option.isNone]
        omega)
  refine ⟨s, ?_, inv, done, fun p b => closed p b rfl⟩
  rw [propagation, found]
  exact runs

/-- A block that a path reaches is done, if the first one is and what they lead to. -/
theorem reached_done {V : Type} {s : Analysis} {b : Block} {i : Nat} {ρ : Reg → V}
    (graph : codeGraph f.code = some g) (root : s.bstate 0 ≠ none)
    (closed : ∀ p b, s.bstate p ≠ none → g.find f.code p = some b →
      ∀ c ∈ b.bnext, s.bstate c ≠ none)
    (reaches : Reaches f.code (g.find f.code) b i ρ) : s.bstate b.bstart ≠ none ∧ i ≤ b.bend := by
  induction reaches with
  | root ρ found =>
    rw [find_start graph found]
    exact ⟨root, Nat.zero_le _⟩
  | inside before lt here effect ih => exact ⟨ih.1, lt⟩
  | edge before here effect next leads ih =>
    obtain ⟨start, spans⟩ := find_found graph leads
    rw [start]
    exact ⟨closed _ _ ih.1 (before.found graph).1 _ next, start ▸ spans.spans.le⟩

end Propagation

/-- In a function in which no instruction falls into a switch case or a handler. -/
theorem copies_sound (f : Fundecl) (valid : ValidCode f) (separated : Separated f.code) :
    CopiesSound f := by
  obtain ⟨g, graph⟩ := codeGraph_some valid.leads
  obtain ⟨s, runs, inv, _⟩ := propagation_some Unit graph valid separated
  refine ⟨g, s, graph, runs, fun v member => ⟨(inv.visits v member).1, (inv.visits v member).2.1⟩,
    ?_⟩
  intro V b i ρ reaches
  obtain ⟨s', runs', inv', root, closed⟩ := propagation_some V graph valid separated
  rw [runs] at runs'
  cases runs'
  obtain ⟨found, first⟩ := reaches.found graph
  obtain ⟨done, last⟩ := reached_done graph root closed reaches
  refine ⟨inv'.covered b.bstart b done found i first last, ?_⟩
  intro v member where_ index r r' same
  obtain ⟨_, _, b', _, found', _, _, holds⟩ := inv'.visits v member
  rw [where_, found] at found'
  cases found'
  rw [← same]
  exact holds ρ (index ▸ reaches) r

/-- A copy whose source is written on one of two paths, which join. -/
def joining : Fundecl where
  fpath := ("Main", "joining")
  findex := 1
  ftype := .hFun [.hI32, .hI32, .hBool] .hI32
  regs := [.hI32, .hI32, .hBool]
  code := [.oMov 1 0, .oJTrue 2 1, .oInt 0 0, .oRet 1]
  debug := [(0, 1), (0, 2), (0, 3), (0, 4)]
  assigns := []

theorem joining_valid : ValidCode joining where
  leads := by
    refine ⟨by decide, fun i op here => ?_⟩
    obtain _ | _ | _ | _ | i := i <;> cases here
    · exact ⟨fun _ => by decide, nofun⟩
    · exact ⟨nofun, fun _ => ⟨[2, 3], rfl, by decide⟩⟩
    · exact ⟨fun _ => by decide, nofun⟩
    · exact ⟨nofun, fun _ => ⟨[], rfl, by decide⟩⟩
  regs := by decide
  noRef d a member := by
    simp [joining] at member
  marked i op targets here stop leads t member back := by
    obtain _ | _ | _ | _ | i := i <;> cases here <;> cases leads
    · cases stop
    · simp at member
      omega
    · cases stop
    · cases member

theorem joining_separated : Separated joining.code := by
  intro i op targets here stop leads t member
  obtain _ | _ | _ | _ | i := i <;> cases here <;> cases leads
  · cases stop
  · obtain same | same := List.mem_cons.mp member
    · refine .inr fun j before next there => ?_
      obtain rfl : j = 1 := by omega
      cases there
      rfl
    · rw [List.mem_singleton.mp same]
      exact .inl (by decide)
  · cases stop
  · cases member

theorem joining_sound : CopiesSound joining :=
  copies_sound joining joining_valid joining_separated

/-- A switch whose second case is fallen into by the first one. -/
def fallingCase : Fundecl where
  fpath := ("Main", "fallingCase")
  findex := 0
  ftype := .hFun [.hI32, .hI32, .hI32] .hI32
  regs := [.hI32, .hI32, .hI32, .hI32]
  code := [.oSwitch 0 [1] 2, .oMov 1 2, .oMov 3 1, .oRet 3]
  debug := [(0, 1), (0, 2), (0, 3), (0, 4)]
  assigns := []

theorem fallingCase_valid : ValidCode fallingCase where
  leads := by
    refine ⟨by decide, fun i op here => ?_⟩
    obtain _ | _ | _ | _ | i := i <;> cases here
    · exact ⟨nofun, fun _ => ⟨[1, 2], rfl, by decide⟩⟩
    · exact ⟨fun _ => by decide, nofun⟩
    · exact ⟨fun _ => by decide, nofun⟩
    · exact ⟨nofun, fun _ => ⟨[], rfl, by decide⟩⟩
  regs := by decide
  noRef d a member := by
    simp [fallingCase] at member
  marked i op targets here stop leads t member back := by
    obtain _ | _ | _ | _ | i := i <;> cases here <;> cases leads
    · simp at member
      omega
    · cases stop
    · cases stop
    · cases member

/-- The instruction that both cases run is replaced for the first one before the second one is
looked at. -/
theorem fallingCase_alias : ((codeGraph fallingCase.code).bind (propagation fallingCase)).any
    (fun s => s.visits.any fun v =>
      v.block = 2 && v.index = 3 && (v.before 3).ralias = 2) = true := by
  decide +kernel

theorem falling_case_unsound : ¬ ∀ f, ValidCode f → CopiesSound f := by
  intro claimed
  obtain ⟨g, s, graph, runs, _, sound⟩ := claimed fallingCase fallingCase_valid
  have wrong := fallingCase_alias
  rw [graph, Option.bind_some, runs, Option.any_some] at wrong
  obtain ⟨v, member, wrong⟩ := List.any_eq_true.mp wrong
  simp only [Bool.and_eq_true, decide_eq_true_eq] at wrong
  obtain ⟨⟨block, index⟩, aliased⟩ := wrong
  have first : (codeGraph fallingCase.code).bind (fun g => g.find fallingCase.code 0) =
      some ⟨0, 0, [1, 2], [], false⟩ := rfl
  have case : (codeGraph fallingCase.code).bind (fun g => g.find fallingCase.code 2) =
      some ⟨2, 3, [], [0], false⟩ := rfl
  rw [graph, Option.bind_some] at first case
  -- the switch leads to the second case, with the number of each register in it
  let ρ : Reg → Nat := fun r => r
  let ρ' : Reg → Nat := fun r => if r = 3 then 1 else r
  have entered : Reaches fallingCase.code (g.find fallingCase.code) ⟨2, 3, [], [0], false⟩ 2 ρ := by
    refine .edge (.root ρ first) rfl ?_ ?_ case
    · exact ⟨fun _ _ => rfl, nofun, nofun⟩
    · decide
  have moved : Reaches fallingCase.code (g.find fallingCase.code) ⟨2, 3, [], [0], false⟩ 3 ρ' := by
    refine .inside entered (by decide) rfl ⟨fun r fresh => if_neg fun same => ?_, ?_, nofun⟩
    · exact fresh (by rw [same]; decide)
    · intro d a same
      cases same
      rfl
  have equal := (sound Nat _ 3 ρ' moved).2 v member block index 3 2 aliased
  cases equal

end Haxe.Guarantees

/-!
## Debug positions and indices are read back
-/

namespace Haxe.Guarantees.HlDebugInfos

open Source.HlWriter

/-- Nothing is written at first. -/
theorem start_caught : Caught ⟨-1, 0, 0, []⟩ [] := ⟨[], rfl, rfl⟩

theorem debugInfos_read {debug : List (Nat × Nat)}
    (fits : ∀ entry ∈ debug, entry.1 < 2 ^ 15 ∧ entry.2 < 2 ^ 21) :
    (readDebugInfos .start (writeDebugInfos debug)).map DebugReader.entries =
      some (entriesOf debug) := by
  have caught := positions_caught fits _ start_caught
  obtain ⟨none, read⟩ := (flushRepeat_flushed _ _ caught).1
  exact congrArg (Option.map DebugReader.entries) read

/-- Positions of 15 and 21 bits, and indices of 29 bits and a sign. -/
theorem written_read (debug : List (Nat × Nat)) (i : Int)
    (fits : ∀ entry ∈ debug, entry.1 < 2 ^ 15 ∧ entry.2 < 2 ^ 21) (index : i.natAbs < 2 ^ 29) :
    (readDebugInfos .start (writeDebugInfos debug)).map DebugReader.entries =
        some (entriesOf debug) ∧
      ∃ bytes, writeIndexGen i = some bytes ∧
        ∀ rest, readIndex (bytes ++ rest) = some (i, rest) :=
  ⟨debugInfos_read fits, writeIndexGen_read (by omega) (by omega)⟩

theorem written_read_run :
    (readDebugInfos .start (writeDebugInfos [(3, 7), (3, 7), (3, 9), (300, 70000)])).map
        DebugReader.entries = some (entriesOf [(3, 7), (3, 7), (3, 9), (300, 70000)]) ∧
      ∃ bytes, writeIndexGen (-5) = some bytes ∧
        ∀ rest, readIndex (bytes ++ rest) = some (-5, rest) :=
  written_read _ (-5) (by decide) (by decide)

end Haxe.Guarantees.HlDebugInfos

/-!
## The table of register effects

`opcode_fx` and `opcode_map` against the interpreter. `OSetref` sets what its first register refers
to, and the table takes the register for one that is written. The opcodes on `this` read register 0.
-/

namespace Haxe.Guarantees.RegisterEffects

open Source.Hl Source.HlInterp Theory
open Relation (ReflTransGen)

/-- What an opcode accesses is what the table says, and it is mapped as the table says. -/
structure Agrees {Ctx F : Type} (fr : Frame Ctx F) (op : Opcode) (s : State Ctx) : Prop where
  accesses : Allowed (fun access => access ∈ opcodeFx op) s (final (fr.interp op s))
  mapped : ∀ f g : Reg → Reg, Maps f g op (opcodeMap f g op)

theorem Agrees.reported {Ctx F : Type} {fr : Frame Ctx F} {op : Opcode} {s : State Ctx}
    (agrees : Agrees fr op s) : Reported op := by
  refine reported_iff.mpr fun r missed => ?_
  obtain ⟨⟨more, eq, allowed⟩, -⟩ := agrees.accesses
  obtain ⟨⟨more', eq', -⟩, -⟩ := interp_opens fr missed s
  have logged : more = Source.Hl.read r :: more' := by
    rw [eq, List.append_assoc] at eq'
    exact List.append_cancel_left eq'
  exact allowed _ (logged ▸ .head _)

/-- In every execution of an opcode, the table agrees with the interpreter if and only if it
reports what the opcode reads. -/
theorem effects_agree_iff {Ctx F : Type} (fr : Frame Ctx F) (op : Opcode) (s : State Ctx) :
    Agrees fr op s ↔ Reported op := by
  refine ⟨Agrees.reported, fun reported => ⟨?_, fun f g => opcodeMap_maps f g op⟩⟩
  exact (interp_within fr op s).mono fun access mentioned => mentioned.reported reported

deriving instance Inhabited for RefValue, Value

instance {F : Type} : Inhabited (Raise F) := ⟨.die⟩

deriving instance Inhabited for Runtime

/-- Registers and one cell. -/
structure Memory where
  stack : Nat → Value Unit
  cell : Value Unit
  deriving Inhabited

/-- `r2` is stored through the reference in `r1`. Besides the memory, nothing is called. -/
def storing : Frame Memory Unit where
  toRuntime := { (default : Runtime Memory Unit) with
    checked := false
    stack := Memory.stack
    setStack := fun m i v => { m with stack := Function.update m.stack i v }
    getRef := fun _ m => .ok m.cell m
    setRef := fun _ v m => .ok () { m with cell := v } }
  f := {
    fpath := ("Main", "store")
    findex := 0
    ftype := .hFun [.hVoid, .hRef .hI32, .hI32] .hVoid
    regs := [.hVoid, .hRef .hI32, .hI32]
    code := [.oSetref 1 2, .oRet 0]
    debug := [(0, 1), (0, 1)]
    assigns := [] }
  spos := 0

def beforeStore : State Memory where
  ctx := {
    stack := fun i => if i = 1 then .vRef (.rValue 0) .hI32 else .vInt 7
    cell := .vInt 0 }
  pos := 1
  traps := []
  accesses := []

theorem reference_read_unreported :
    (final (storing.interp (.oSetref 1 2) beforeStore)).accesses =
        [Source.Hl.read 1, Source.Hl.read 2] ∧
      (final (storing.interp (.oSetref 1 2) beforeStore)).ctx.cell = .vInt 7 ∧
      opcodeFx (.oSetref 1 2) = [Source.Hl.read 2, write 1] ∧
      ¬ Agrees storing (.oSetref 1 2) beforeStore := by
  have ran : (final (storing.interp (.oSetref 1 2) beforeStore)).accesses =
      [Source.Hl.read 1, Source.Hl.read 2] := rfl
  refine ⟨ran, rfl, rfl, fun agrees => ?_⟩
  obtain ⟨⟨more, eq, allowed⟩, -⟩ := agrees.accesses
  rw [ran, beforeStore, List.nil_append] at eq
  have reported := allowed (Source.Hl.read 1) (eq ▸ .head _)
  exact absurd reported (by decide)

/-- A register is copied. -/
def copying : Frame Memory Unit :=
  { storing with f := { storing.f with code := [.oMov 0 2, .oRet 0] } }

/-- The state behind the copy. -/
def afterCopy : State Memory := final (copying.interp (.oMov 0 2) { beforeStore with pos := 1 })

end Haxe.Guarantees.RegisterEffects
