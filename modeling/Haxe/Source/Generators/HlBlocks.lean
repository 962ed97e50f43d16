import Haxe.Source.Generators.HlMachine
import Haxe.Theory.Exploration

/-!
# The block graph of a function

`code_graph` of `hlopt.ml`. A block is named by its first position; its record is what the scan
from there finds, together with the blocks that went to it. An offset that leads before the code
is the exception of the array.
-/

namespace Haxe.Source.Hl

open Theory

/-- The jump of an opcode leads from one position to another. -/
def jumpsTo (op : Opcode) (j i : Nat) : Bool :=
  match control op with
  | .cJAlways d | .cJCond d => land j d = some i
  | _ => false

/-- `Hashtbl.mem all_blocks`. -/
def isTarget (code : List Opcode) (i : Nat) : Bool :=
  (List.range code.length).any fun j => (code[j]?).any fun op => jumpsTo op j i

/-- What the scan of a block finds. -/
structure Scanned where
  bend : Nat
  bnext : List Nat
  bloop : Bool
  deriving DecidableEq

/-- The `loop` of `make_block`. -/
@[grind =] def scan (code : List Opcode) (pos : Nat) : List Opcode → Nat → Bool → Option Scanned
  | [], _, _ => none
  | op :: ops, i, bloop =>
    if pos < i ∧ isTarget code i = true then some ⟨i - 1, [i], bloop⟩
    else
      match control op with
      | .cNo => scan code pos ops (i + 1) bloop
      | .cRet | .cThrow => some ⟨i, [], bloop⟩
      | .cJAlways d => (land i d).map fun target => ⟨i, [target], bloop⟩
      | .cSwitch pl => (pl.mapM (land i)).map fun targets => ⟨i, (i + 1) :: targets, bloop⟩
      | .cJCond d | .cTry d => (land i d).map fun target => ⟨i, [i + 1, target], bloop⟩
      | .cLabel => scan code pos ops (i + 1) true

def scanAt (code : List Opcode) (pos : Nat) : Option Scanned :=
  scan code pos (code.drop pos) pos false

/-- The order in which `goto` is called: the first element of a list is evaluated last. -/
def gotoOrder (bnext : List Nat) : List Nat := bnext.tail ++ bnext.head?.toList

/-- The blocks, and who has gone to whom. -/
abbrev BlockGraph := Trail Nat

def codeGraph (code : List Opcode) : Option BlockGraph :=
  explore (fun pos => (scanAt code pos).map fun s => gotoOrder s.bnext) (code.length + 1)
    ⟨[], []⟩ 0

structure Block where
  bstart : Nat
  bend : Nat
  bnext : List Nat
  bprev : List Nat
  bloop : Bool

/-- `Hashtbl.find blocks_pos`. -/
def BlockGraph.find (g : BlockGraph) (code : List Opcode) (pos : Nat) : Option Block :=
  if g.seen.any fun b => b = pos then
    (scanAt code pos).map fun s =>
      ⟨pos, s.bend, s.bnext, (g.edges.filter fun edge => edge.2 = pos).map Prod.fst, s.bloop⟩
  else none

/-- The control goes on to the next instruction. -/
@[grind =] def falls (op : Opcode) : Bool :=
  match control op with
  | .cNo | .cLabel => true
  | _ => false

/-- Where an instruction that ends a block leads to. -/
@[grind =] def exits (op : Opcode) (i : Nat) : Option (List Nat) :=
  match control op with
  | .cJAlways d => (land i d).map fun target => [target]
  | .cSwitch pl => (pl.mapM (land i)).map fun targets => (i + 1) :: targets
  | .cJCond d | .cTry d => (land i d).map fun target => [i + 1, target]
  | _ => some []

/-- Only the last instruction of a block passes the control on elsewhere, or the next one is the
target of a jump. -/
structure Spans (code : List Opcode) (pos : Nat) (s : Scanned) : Prop where
  le : pos ≤ s.bend
  plain : ∀ i, pos ≤ i → i < s.bend → isTarget code (i + 1) = false ∧
    ∃ op, code[i]? = some op ∧ falls op = true
  last : ∃ op, code[s.bend]? = some op ∧
    ((falls op = true ∧ isTarget code (s.bend + 1) = true ∧ s.bnext = [s.bend + 1]) ∨
      (falls op = false ∧ exits op s.bend = some s.bnext))

variable {code : List Opcode} {pos : Nat}

theorem scan_spans {ops : List Opcode} {i : Nat} {bloop : Bool} {s : Scanned}
    (scans : scan code pos ops i bloop = some s) (rest : code.drop i = ops) (le : pos ≤ i)
    (before : ∀ j, pos ≤ j → j < i → ∃ op, code[j]? = some op ∧ falls op = true)
    (apart : ∀ j, pos ≤ j → j + 1 < i → isTarget code (j + 1) = false) :
    Spans code pos s ∧ (bloop = true → s.bloop = true) := by
  induction ops generalizing i bloop with
  | nil => cases scans
  | cons op ops ih =>
    have here : code[i]? = some op := by
      have first := congrArg List.head? rest
      rwa [List.head?_drop] at first
    have next : code.drop (i + 1) = ops := by
      rw [← List.drop_drop, rest]
      rfl
    rw [scan] at scans
    by_cases starts : pos < i ∧ isTarget code i = true
    · rw [if_pos starts] at scans
      cases scans
      obtain ⟨lt, target⟩ := starts
      have succ : i - 1 + 1 = i := by omega
      refine ⟨⟨by dsimp only; omega, fun j first last => ?_, ?_⟩, id⟩
      · dsimp only at last
        exact ⟨apart j first (by omega), before j first (by omega)⟩
      · obtain ⟨op', there, plain⟩ := before (i - 1) (by omega) (by omega)
        refine ⟨op', there, .inl ⟨plain, ?_, ?_⟩⟩
        · dsimp only
          rw [succ]
          exact target
        · dsimp only
          rw [succ]
    · rw [if_neg starts] at scans
      have apart' (j : Nat) (first : pos ≤ j) (last : j + 1 < i + 1) :
          isTarget code (j + 1) = false := by
        by_cases same : j + 1 = i
        · rw [same]
          by_contra target
          exact starts ⟨by omega, Bool.not_eq_false _ ▸ target⟩
        · exact apart j first (by omega)
      have plain (j : Nat) (first : pos ≤ j) (last : j < i) :
          isTarget code (j + 1) = false ∧ ∃ op, code[j]? = some op ∧ falls op = true :=
        ⟨apart' j first (by omega), before j first last⟩
      have goOn (falling : falls op = true) (j : Nat) (first : pos ≤ j) (last : j < i + 1) :
          ∃ op, code[j]? = some op ∧ falls op = true := by
        obtain same | less := Nat.lt_succ_iff_lt_or_eq.mp last |>.symm
        · exact ⟨op, same ▸ here, falling⟩
        · exact before j first less
      have ends (bnext : List Nat) (b : Bool) (stop : falls op = false)
          (leads : exits op i = some bnext) : Spans code pos ⟨i, bnext, b⟩ :=
        ⟨le, plain, op, here, .inr ⟨stop, leads⟩⟩
      cases passes : control op with
      | cNo =>
        rw [passes] at scans
        exact ih scans next (by omega) (goOn (by rw [falls, passes])) apart'
      | cLabel =>
        rw [passes] at scans
        have after := ih scans next (by omega) (goOn (by rw [falls, passes])) apart'
        exact ⟨after.1, fun _ => after.2 rfl⟩
      | cRet | cThrow =>
        rw [passes] at scans
        cases scans
        exact ⟨ends _ _ (by rw [falls, passes]) (by rw [exits, passes]), id⟩
      | cJAlways d =>
        rw [passes] at scans
        obtain ⟨target, lands, same⟩ := Option.map_eq_some_iff.mp scans
        cases same
        exact ⟨ends _ _ (by rw [falls, passes])
          (by simp only [exits, passes, lands, Option.map_some]), id⟩
      | cJCond d | cTry d =>
        rw [passes] at scans
        obtain ⟨target, lands, same⟩ := Option.map_eq_some_iff.mp scans
        cases same
        exact ⟨ends _ _ (by rw [falls, passes])
          (by simp only [exits, passes, lands, Option.map_some]), id⟩
      | cSwitch pl =>
        rw [passes] at scans
        obtain ⟨targets, lands, same⟩ := Option.map_eq_some_iff.mp scans
        cases same
        exact ⟨ends _ _ (by rw [falls, passes])
          (by simp only [exits, passes, lands, Option.map_some]), id⟩

theorem scanAt_spans {s : Scanned} (scans : scanAt code pos = some s) : Spans code pos s :=
  (scan_spans scans rfl (Nat.le_refl pos) (fun _ first last => by omega)
    (fun _ first last => by omega)).1

theorem scanAt_loop {s : Scanned} (scans : scanAt code pos = some s) {unused : Int}
    (label : code[pos]? = some (.oLabel unused)) : s.bloop = true := by
  obtain ⟨lt, there⟩ := List.getElem?_eq_some_iff.mp label
  unfold scanAt at scans
  rw [List.drop_eq_getElem_cons lt, there, scan, if_neg fun early => Nat.lt_irrefl pos early.1]
    at scans
  exact (scan_spans (i := pos + 1) scans rfl (Nat.le_succ pos)
    (fun j first last => ⟨.oLabel unused, by rw [show j = pos by omega, label], rfl⟩)
    (fun j first last => by omega)).2 rfl

theorem mem_gotoOrder {bnext : List Nat} {c : Nat} : c ∈ gotoOrder bnext ↔ c ∈ bnext := by
  cases bnext with
  | nil => rfl
  | cons b bnext => simp [gotoOrder, or_comm]

/-- The jumps of the code stay in it, and it does not run out of its end. -/
def Leads (code : List Opcode) : Prop :=
  0 < code.length ∧ ∀ i op, code[i]? = some op →
    (falls op = true → i + 1 < code.length) ∧
      (falls op = false → ∃ targets, exits op i = some targets ∧ ∀ t ∈ targets, t < code.length)

theorem scan_some (leads : Leads code) {ops : List Opcode} {i : Nat} (bloop : Bool)
    (rest : code.drop i = ops) (inside : i < code.length) :
    ∃ s, scan code pos ops i bloop = some s := by
  induction ops generalizing i bloop with
  | nil => exact absurd (List.drop_eq_nil_iff.mp rest) (Nat.not_le.mpr inside)
  | cons op ops ih =>
    have here : code[i]? = some op := by
      have first := congrArg List.head? rest
      rwa [List.head?_drop] at first
    have next : code.drop (i + 1) = ops := by
      rw [← List.drop_drop, rest]
      rfl
    obtain ⟨goesOn, stops⟩ := leads.2 i op here
    rw [scan]
    split
    · exact ⟨_, rfl⟩
    · cases passes : control op
      case cNo => exact ih bloop next (goesOn (by rw [falls, passes]))
      case cLabel => exact ih true next (goesOn (by rw [falls, passes]))
      case cRet | cThrow => exact ⟨_, rfl⟩
      all_goals
        obtain ⟨targets, leads, _⟩ := stops (by rw [falls, passes])
        rw [exits, passes] at leads
        obtain ⟨target, lands, _⟩ := Option.map_eq_some_iff.mp leads
        dsimp only
        rw [lands]
        exact ⟨_, rfl⟩

theorem scanAt_some (leads : Leads code) (inside : pos < code.length) :
    ∃ s, scanAt code pos = some s ∧ ∀ c ∈ s.bnext, c < code.length := by
  obtain ⟨s, scans⟩ : ∃ s, scanAt code pos = some s := scan_some leads false rfl inside
  refine ⟨s, scans, ?_⟩
  obtain ⟨op, here, ⟨falling, _, next⟩ | ⟨stop, next⟩⟩ := (scanAt_spans scans).last
  · intro c member
    rw [next] at member
    rw [List.mem_singleton.mp member]
    exact (leads.2 s.bend op here).1 falling
  · obtain ⟨targets, leads, inside⟩ := (leads.2 s.bend op here).2 stop
    rw [next] at leads
    cases leads
    exact inside

/-- Code whose jumps stay inside has a block graph. -/
theorem codeGraph_some (leads : Leads code) : ∃ g, codeGraph code = some g := by
  apply explore_some (List.range code.length)
  · intro a member
    obtain ⟨s, scans, inside⟩ := scanAt_some leads (List.mem_range.mp member)
    exact ⟨gotoOrder s.bnext, by rw [scans]; rfl,
      fun c next => List.mem_range.mpr (inside c (mem_gotoOrder.mp next))⟩
  · exact List.mem_range.mpr leads.1
  · exact Nat.lt_succ_of_le (Nat.le_trans List.countP_le_length (Nat.le_of_eq List.length_range))

/-- A block of the graph. -/
structure Found (code : List Opcode) (g : BlockGraph) (b : Block) : Prop where
  seen : b.bstart ∈ g.seen
  spans : Spans code b.bstart ⟨b.bend, b.bnext, b.bloop⟩
  next : b.bnext ⊆ g.seen
  prev : ∀ p, p ∈ b.bprev ↔ ∃ b', g.find code p = some b' ∧ b.bstart ∈ b'.bnext
  loop : ∀ unused, code[b.bstart]? = some (.oLabel unused) → b.bloop = true

section Graph

variable {g : BlockGraph}

theorem find_iff {b : Block} : g.find code pos = some b ↔ pos ∈ g.seen ∧
    ∃ s, scanAt code pos = some s ∧ b = ⟨pos, s.bend, s.bnext,
      (g.edges.filter fun edge => edge.2 = pos).map Prod.fst, s.bloop⟩ := by
  unfold BlockGraph.find
  by_cases seen : pos ∈ g.seen
  · rw [if_pos ((seen_iff g pos).mpr seen), Option.map_eq_some_iff]
    constructor
    · intro found
      obtain ⟨s, scans, same⟩ := found
      exact ⟨seen, s, scans, same.symm⟩
    · intro found
      obtain ⟨_, s, scans, same⟩ := found
      exact ⟨s, scans, same.symm⟩
  · rw [if_neg (mt (seen_iff g pos).mp seen)]
    constructor
    · intro found
      cases found
    · intro found
      exact absurd found.1 seen

variable (graph : codeGraph code = some g)

include graph

theorem root_seen : 0 ∈ g.seen := (explore_explored _ graph).2

theorem find_some (seen : pos ∈ g.seen) : ∃ b, g.find code pos = some b := by
  obtain ⟨ws, known, _⟩ := (explore_explored _ graph).1.closed pos seen List.not_mem_nil
  obtain ⟨s, scans, _⟩ := Option.map_eq_some_iff.mp known
  exact ⟨_, find_iff.mpr ⟨seen, s, scans, rfl⟩⟩

theorem mem_edges {p c : Nat} :
    (p, c) ∈ g.edges ↔ ∃ b, g.find code p = some b ∧ c ∈ b.bnext := by
  rw [(explore_explored _ graph).1.edges p c]
  constructor
  · intro either
    obtain old | ⟨seen, _, ws, known, member⟩ := either
    · exact absurd old List.not_mem_nil
    · obtain ⟨s, scans, same⟩ := Option.map_eq_some_iff.mp known
      subst same
      exact ⟨_, find_iff.mpr ⟨seen, s, scans, rfl⟩, mem_gotoOrder.mp member⟩
  · intro found
    obtain ⟨b, found, member⟩ := found
    obtain ⟨seen, s, scans, same⟩ := find_iff.mp found
    subst same
    exact .inr ⟨seen, List.not_mem_nil, _, by rw [scans]; rfl, mem_gotoOrder.mpr member⟩

theorem find_found {b : Block} (found : g.find code pos = some b) :
    b.bstart = pos ∧ Found code g b := by
  obtain ⟨seen, s, scans, same⟩ := find_iff.mp found
  obtain ⟨ws, known, subset⟩ := (explore_explored _ graph).1.closed pos seen List.not_mem_nil
  rw [scans] at known
  cases known
  subst same
  refine ⟨rfl, seen, scanAt_spans scans, fun c member => subset (mem_gotoOrder.mpr member), ?_, ?_⟩
  · intro p
    rw [← mem_edges graph, List.mem_map]
    constructor
    · intro gone
      obtain ⟨edge, member, same⟩ := gone
      obtain ⟨member, leads⟩ := List.mem_filter.mp member
      have leads := of_decide_eq_true leads
      dsimp only
      rw [← same, ← leads]
      exact member
    · intro member
      exact ⟨(p, pos), List.mem_filter.mpr ⟨member, decide_eq_true rfl⟩, rfl⟩
  · intro unused label
    exact scanAt_loop scans label

/-- A block but the first is one that another leads to. -/
theorem start_reached (seen : pos ∈ g.seen) :
    pos = 0 ∨ ∃ p b, g.find code p = some b ∧ pos ∈ b.bnext := by
  obtain old | root | gone := explore_reached _ graph seen
  · exact absurd old List.not_mem_nil
  · exact .inl root
  · obtain ⟨p, edge⟩ := gone
    obtain ⟨b, found, member⟩ := (mem_edges graph).mp edge
    exact .inr ⟨p, b, found, member⟩

end Graph

/-- No instruction falls into a case of a switch or the handler of a trap, unless a jump leads
there as well. -/
def Separated (code : List Opcode) : Prop :=
  ∀ i op targets, code[i]? = some op → falls op = false → exits op i = some targets →
    ∀ t ∈ targets, isTarget code t = true ∨
      ∀ j before, j + 1 = t → code[j]? = some before → falls before = false

/-- No block begins inside another. -/
theorem start_apart {g : BlockGraph} (graph : codeGraph code = some g)
    (separated : Separated code) {b c : Block} (found : Found code g b) (found' : Found code g c)
    (lt : b.bstart < c.bstart) : b.bend < c.bstart := by
  by_contra inside
  obtain ⟨apart, before, there, falling⟩ := found.spans.plain (c.bstart - 1) (by omega)
    (by dsimp only; omega)
  have succ : c.bstart - 1 + 1 = c.bstart := by omega
  rw [succ] at apart
  obtain root | ⟨p, b', leads, member⟩ := start_reached graph found'.seen
  · omega
  · have from_ := (find_found graph leads).2
    obtain ⟨op, here, ⟨_, target, next⟩ | ⟨stop, next⟩⟩ := from_.spans.last
    · dsimp only at next target
      rw [next] at member
      rw [← List.mem_singleton.mp member, apart] at target
      cases target
    · obtain target | alone := separated b'.bend op b'.bnext here stop next c.bstart member
      · rw [apart] at target
        cases target
      · rw [alone _ before succ there] at falling
        cases falling

/-- An instruction is in one block. -/
theorem block_unique {g : BlockGraph} (graph : codeGraph code = some g)
    (separated : Separated code) {b c : Block} (found : Found code g b) (found' : Found code g c)
    {i : Nat} (first : b.bstart ≤ i) (last : i ≤ b.bend) (first' : c.bstart ≤ i)
    (last' : i ≤ c.bend) : b.bstart = c.bstart := by
  obtain lt | same | lt := Nat.lt_trichotomy b.bstart c.bstart
  · have apart := start_apart graph separated found found' lt
    omega
  · exact same
  · have apart := start_apart graph separated found' found lt
    omega

end Haxe.Source.Hl
