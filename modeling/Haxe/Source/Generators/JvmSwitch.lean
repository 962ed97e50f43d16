import Haxe.Theory.LabelledCode
import Haxe.Theory.UnicodeForms
import Haxe.Source.Generators.JvmWriter

/-!
# Switches of the JVM generator

`string_switch` and `int_switch` of `jvmMethod.ml`, with the labels by what they are spawned for,
and the instructions that they emit as the JVM executes them. The code of a body is one block, of
which only matters whether it completes.
-/

namespace Haxe.Source.Jvm.Switch

open Theory Theory.LabelledCode

def pow (a : BitVec 32) : Nat → BitVec 32
  | 0 => 1
  | 1 => a
  | b + 2 => a * pow a (b + 1)

/-- `java_hash` of a string of characters. -/
def javaHash (s : List Char) : BitVec 32 :=
  let l := s.length
  s.zipIdx.foldl (fun h char => h + BitVec.ofNat 32 char.1.toNat * pow 31 (l - (char.2 + 1))) 0

/-- `HashtblList`; the values and the keys that are added last come first. -/
structure HashtblList (α β : Type) where
  values : List (α × β)
  keys : List α

namespace HashtblList

variable {α β : Type} [DecidableEq α]

def create : HashtblList α β := ⟨[], []⟩

def add (htl : HashtblList α β) (key : α) (value : β) : HashtblList α β where
  values := (key, value) :: htl.values
  keys := if key ∈ htl.values.map Prod.fst then htl.keys else key :: htl.keys

@[grind =] def findAll (htl : HashtblList α β) (key : α) : List β :=
  (htl.values.filter fun entry => entry.1 = key).map Prod.snd

def asList (htl : HashtblList α β) : List (α × List β) :=
  htl.keys.map fun key => (key, htl.findAll key)

end HashtblList

/-- The labels that are spawned: `default` and `exit`, the `case-expr` of a case, the `hash-match`
of a hash, the `then` and `else` of a comparison with a string, and the `case` of a number. -/
inductive Label where
  | default
  | exit
  | caseExpr (index : Nat)
  | hashMatch (hash : BitVec 32)
  | then_ (s : List Char)
  | else_ (s : List Char)
  | case_ (i32 : BitVec 32)
  deriving DecidableEq, Repr

/-- What is executed for the subject. -/
inductive Block where
  | case_ (index : Nat)
  | default
  | matchFailure
  deriving DecidableEq, Repr

inductive Instr where
  | load
  | string (s : List Char)
  | hashCode
  | equals
  | ifNull (l : Label)
  | if_ (cmp : JCmp) (l : Label)
  | goto (l : Label)
  | lookupswitch (byDefault : Label) (pairs : List (BitVec 32 × Label))
  | tableswitch (byDefault : Label) (low high : BitVec 32) (offsets : List Label)
  | block (b : Block) (terminates : Bool)
  deriving DecidableEq, Repr

abbrev Code := List (Item Label Instr)

/-- The labels of a case, and whether its body leaves the builder terminated. -/
structure SwitchCase (α : Type) where
  labels : List α
  terminates : Bool
  deriving DecidableEq, Repr

/-- The jump behind a body. -/
def gotoExit (terminates : Bool) : Code :=
  if terminates then [] else [.instr (.goto .exit)]

/-- The default body; a value that is needed fails to match. -/
def defaultBlock (needVal : Bool) : Option Bool → Option (Block × Bool)
  | some terminates => some (.default, terminates)
  | none => if needVal then some (.matchFailure, true) else none

def defaultCode : Option (Block × Bool) → Code
  | some b => .here .default :: .instr (.block b.1 b.2) :: gotoExit b.2
  | none => []

/-- `was_jumped_to` of the exit. -/
def jumpsToExit (code : Code) : Bool := code.contains (.instr (.goto .exit))

/-- The end of both switches. -/
def endCode (byDefault : Option (Block × Bool)) (code : Code) : Code :=
  (if jumpsToExit code then [.here .exit] else []) ++
    (if byDefault = none then [.here .default] else [])

def ended (byDefault : Option (Block × Bool)) (code : Code) : Code :=
  code ++ endCode byDefault code

/-- The pairs of a `lookupswitch` in order. -/
def sortPairs (pairs : List (BitVec 32 × Label)) : List (BitVec 32 × Label) :=
  pairs.mergeSort fun pair pair' => pair.1.sle pair'.1

section StringSwitch

variable (cases : List (SwitchCase (List Char)))

/-- The strings with the indices of their cases, by their hashes. -/
@[grind =] def entries : List (BitVec 32 × List Char × Nat) :=
  cases.zipIdx.flatMap fun case_ => case_.1.labels.map fun s => (javaHash s, s, case_.2)

def buckets : List (BitVec 32 × List (List Char × Nat)) :=
  let htl := (entries cases).foldl (fun htl entry => HashtblList.add htl entry.1 entry.2)
    HashtblList.create
  htl.asList

/-- What follows the comparison of the subject with a string. -/
@[grind =] def branchCode (s : List Char) (index : Nat) (case_ : SwitchCase (List Char)) : Code :=
  if case_.labels.length = 1 then
    .instr (.if_ .cmpEq (.else_ s)) :: .here (.then_ s) ::
      .instr (.block (.case_ index) case_.terminates) ::
        (gotoExit case_.terminates ++ [.here (.else_ s)])
  else [.instr (.if_ .cmpNe (.caseExpr index))]

@[grind =] def testCode (entry : List Char × Nat) : Code :=
  .instr .load :: .instr (.string entry.1) :: .instr .equals ::
    (cases[entry.2]?).elim [] (branchCode entry.1 entry.2)

@[grind =] def bucketCode (bucket : BitVec 32 × List (List Char × Nat)) : Code :=
  .here (.hashMatch bucket.1) :: (bucket.2.flatMap (testCode cases) ++ [.instr (.goto .default)])

def exprCode (case_ : SwitchCase (List Char) × Nat) : Code :=
  if case_.1.labels.length ≠ 1 then
    .here (.caseExpr case_.2) :: .instr (.block (.case_ case_.2) case_.1.terminates) ::
      gotoExit case_.1.terminates
  else []

/-- `sorted_jump_table` -/
def jumpTable : List (BitVec 32 × Label) :=
  sortPairs ((buckets cases).map fun bucket => (bucket.1, Label.hashMatch bucket.1))

/-- The null check and the switch over the hashes. -/
def hashSwitch : Code :=
  [.instr .load, .instr (.ifNull .default), .instr .load, .instr .hashCode,
    .instr (.lookupswitch .default (jumpTable cases))]

/-- `string_switch` -/
def stringSwitch (needVal : Bool) (byDefault : Option Bool) : Code :=
  let byDefault := defaultBlock needVal byDefault
  ended byDefault (hashSwitch cases ++ ((buckets cases).flatMap (bucketCode cases) ++
    (cases.zipIdx.flatMap exprCode ++ defaultCode byDefault)))

end StringSwitch

section IntSwitch

variable (cases : List (SwitchCase (BitVec 32)))

def flatCases : List (BitVec 32) := cases.flatMap SwitchCase.labels

/-- The least label, from the largest `Int64.t` on. -/
def imin : Int :=
  (flatCases cases).foldl (fun least i32 => if i32.toInt < least then i32.toInt else least)
    9223372036854775807

def imax : Int :=
  (flatCases cases).foldl (fun most i32 => if i32.toInt > most then i32.toInt else most)
    (-9223372036854775808)

/-- The difference of the largest and the least label, as an `Int64.t`. -/
def diff : Int := (imax cases - imin cases).bmod 18446744073709551616

def useTableswitch : Bool :=
  diff cases < (flatCases cases).length + 10 && diff cases ≥ 0

/-- The labels of the numbers from the least one on; `Array.init` raises when the size is
negative. -/
def offsets : Option (List Label) :=
  let imin := BitVec.ofInt 32 (imin cases)
  let imax := BitVec.ofInt 32 (imax cases)
  let size := (imax - imin).toInt + 1
  if size < 0 then none
  else some ((List.range size.toNat).map fun i =>
    if BitVec.ofNat 32 i + imin ∈ flatCases cases then .case_ (BitVec.ofNat 32 i + imin)
    else .default)

/-- The switch instruction; the labels of a lookup are sorted. -/
def switchInstr : Option Instr :=
  if useTableswitch cases then
    (offsets cases).map
      (.tableswitch .default (BitVec.ofInt 32 (imin cases)) (BitVec.ofInt 32 (imax cases)))
  else
    some (.lookupswitch .default
      (sortPairs ((flatCases cases).map fun i32 => (i32, Label.case_ i32))))

/-- The bodies from a case on; the last one falls out of the switch. -/
def casesCode (index : Nat) : List (SwitchCase (BitVec 32)) → Code
  | [] => []
  | case_ :: cases =>
    case_.labels.map (fun i32 => .here (.case_ i32)) ++
      .instr (.block (.case_ index) case_.terminates) ::
        ((if cases ≠ [] then gotoExit case_.terminates else []) ++ casesCode (index + 1) cases)

/-- `int_switch`; the subject is on the stack. -/
def intSwitch (needVal : Bool) (byDefault : Option Bool) : Option Code := do
  let switch ← switchInstr cases
  let byDefault := defaultBlock needVal byDefault
  return ended byDefault ([.instr switch] ++ (defaultCode byDefault ++ casesCode 0 cases))

end IntSwitch

/-- A value on the operand stack. A string is given by its code units. -/
inductive JValue where
  | string (units : Option (List Nat))
  | int (i : BitVec 32)
  | bool (b : Bool)
  deriving DecidableEq, Repr

/-- The operand stack, and the blocks that are executed. -/
structure State where
  stack : List JValue
  executed : List Block
  deriving DecidableEq, Repr

/-- The blocks that are executed, and whether the code behind the switch is reached. -/
structure Result where
  executed : List Block
  completed : Bool
  deriving DecidableEq, Repr

/-- `String.hashCode`, over the code units. -/
def hashCode (units : List Nat) : BitVec 32 :=
  units.foldl (fun h unit => 31 * h + BitVec.ofNat 32 unit) 0

/-- What an instruction does. `load` pushes the subject; no method of a null reference can be
called, and the pairs of a `lookupswitch` are sorted. -/
def step (subject : Option (List Nat)) : Instr → State → Option (Next Label State Result)
  | .load, ⟨stack, executed⟩ => some (.fall ⟨.string subject :: stack, executed⟩)
  | .string s, ⟨stack, executed⟩ =>
    some (.fall ⟨.string (some (Utf16.encode s)) :: stack, executed⟩)
  | .hashCode, ⟨.string (some units) :: stack, executed⟩ =>
    some (.fall ⟨.int (hashCode units) :: stack, executed⟩)
  | .equals, ⟨.string argument :: .string (some units) :: stack, executed⟩ =>
    some (.fall ⟨.bool (argument = some units) :: stack, executed⟩)
  | .ifNull l, ⟨.string units :: stack, executed⟩ =>
    if units = none then some (.jump l ⟨stack, executed⟩) else some (.fall ⟨stack, executed⟩)
  | .if_ .cmpEq l, ⟨.bool b :: stack, executed⟩ =>
    if b then some (.fall ⟨stack, executed⟩) else some (.jump l ⟨stack, executed⟩)
  | .if_ .cmpNe l, ⟨.bool b :: stack, executed⟩ =>
    if b then some (.jump l ⟨stack, executed⟩) else some (.fall ⟨stack, executed⟩)
  | .goto l, s => some (.jump l s)
  | .lookupswitch byDefault pairs, ⟨.int i :: stack, executed⟩ =>
    if pairs.Pairwise fun pair pair' => pair.1.toInt < pair'.1.toInt then
      some (.jump (((pairs.find? fun pair => pair.1 = i).map Prod.snd).getD byDefault)
        ⟨stack, executed⟩)
    else none
  | .tableswitch byDefault low high offsets, ⟨.int i :: stack, executed⟩ =>
    if i.toInt < low.toInt ∨ high.toInt < i.toInt then some (.jump byDefault ⟨stack, executed⟩)
    else (offsets[(i.toInt - low.toInt).toNat]?).map fun l => .jump l ⟨stack, executed⟩
  | .block b terminates, ⟨stack, executed⟩ =>
    if terminates then some (.leave ⟨executed ++ [b], false⟩)
    else some (.fall ⟨stack, executed ++ [b]⟩)
  | _, _ => none

/-- The end of the switch. -/
def finish (s : State) : Result := ⟨s.executed, true⟩

/-- The code comes from its start to a result. -/
def Executes (subject : Option (List Nat)) (code : Code) (stack : List JValue) (r : Result) :
    Prop :=
  Leads (step subject) finish code code ⟨stack, []⟩ r

/-- The result of a block alone. -/
def ofBlock : Option (Block × Bool) → Result
  | some b => ⟨[b.1], !b.2⟩
  | none => ⟨[], true⟩

/-- The body of the case with a label is executed, or the default when there is none. -/
def Dispatched {α : Type} (needVal : Bool) (cases : List (SwitchCase α)) (byDefault : Option Bool)
    (HasLabel : List α → Prop) (r : Result) : Prop :=
  (∃ index case_, cases[index]? = some case_ ∧ HasLabel case_.labels ∧
    r = ofBlock (some (.case_ index, case_.terminates))) ∨
  (∀ case_ ∈ cases, ¬ HasLabel case_.labels) ∧ r = ofBlock (defaultBlock needVal byDefault)

end Haxe.Source.Jvm.Switch

/-!
## The ends of switches

What is executed from a body or from the default on, wherever no label of the switch has two
places, and what a lookup finds.
-/

namespace Haxe.Source.Jvm.Switch

open Theory.LabelledCode

variable {subject : Option (List Nat)} {byDefault : Option (Block × Bool)} {code rest : Code}
  {s : State}

theorem places_gotoExit (terminates : Bool) : places (gotoExit terminates) = [] := by
  cases terminates <;> rfl

theorem places_defaultCode (byDefault : Option (Block × Bool)) :
    places (defaultCode byDefault) = if byDefault = none then [] else [.default] := by
  cases byDefault with
  | none => rfl
  | some b =>
    rw [defaultCode, places_here, places_instr, places_gotoExit, if_neg (Option.some_ne_none b)]

/-- The place of the default when there is no default body. -/
def lastDefault (byDefault : Option (Block × Bool)) : Code :=
  if byDefault = none then [.here .default] else []

theorem lastDefault_leads {prog : Code} :
    Leads (step subject) finish prog (lastDefault byDefault) s (finish s) := by
  unfold lastDefault
  split
  · exact Leads.here _ .end_
  · exact .end_

theorem ended_of_jump (jumps : .instr (.goto .exit) ∈ code) :
    ended byDefault code = code ++ .here .exit :: lastDefault byDefault := by
  have jumped : jumpsToExit code = true := List.contains_iff_mem.mpr jumps
  rw [ended, endCode, if_pos jumped]
  rfl

/-- The jump behind a body leads out of the switch. -/
theorem exit_leads (once : (places (ended byDefault code)).Nodup)
    (jumps : .instr (.goto .exit) ∈ code) :
    Leads (step subject) finish (ended byDefault code) (.instr (.goto .exit) :: rest) s
      (finish s) := by
  rw [ended_of_jump jumps] at once ⊢
  exact Leads.jump rfl (behind_eq once) lastDefault_leads

/-- The last part of a switch leads out of it. -/
theorem end_leads :
    Leads (step subject) finish (ended byDefault code) (endCode byDefault code) s (finish s) := by
  unfold endCode
  split
  · exact Leads.here _ lastDefault_leads
  · exact lastDefault_leads

/-- The labels at the end are not those of the code. -/
theorem ended_once (once : (places code).Nodup) (exit : Label.exit ∉ places code)
    (default : byDefault = none → Label.default ∉ places code) :
    (places (ended byDefault code)).Nodup := by
  have ends : places (endCode byDefault code) =
      (if jumpsToExit code then [.exit] else []) ++
        (if byDefault = none then [.default] else []) := by
    unfold endCode
    rw [places_append]
    split <;> split <;> rfl
  rw [ended, places_append, ends, List.nodup_append]
  refine ⟨once, ?_, ?_⟩
  · split <;> split <;> decide
  · rintro l here l' there rfl
    obtain first | last := List.mem_append.mp there
    · split at first
      · exact exit (List.mem_singleton.mp first ▸ here)
      · cases first
    · split at last
      · rename_i nothing
        exact default nothing (List.mem_singleton.mp last ▸ here)
      · cases last

theorem mem_gotoExit {terminates : Bool} (completes : terminates = false) :
    .instr (.goto .exit) ∈ gotoExit terminates := by
  rw [gotoExit, completes]
  exact List.mem_singleton.mpr rfl

/-- A body is executed alone. -/
theorem block_leads (once : (places (ended byDefault code)).Nodup) {b : Block} {terminates : Bool}
    (jumps : terminates = false → .instr (.goto .exit) ∈ code) {stack : List JValue} :
    Leads (step subject) finish (ended byDefault code)
      (.instr (.block b terminates) :: (gotoExit terminates ++ rest)) ⟨stack, []⟩
      (ofBlock (some (b, terminates))) := by
  cases terminates with
  | true => exact Leads.leave rfl
  | false => exact Leads.fall rfl (exit_leads once (jumps rfl))

/-- A body that a part of the code holds is executed alone. -/
theorem held_block_leads (front back : Code) (once : (places (ended byDefault code)).Nodup)
    {b : Block} {terminates : Bool}
    (held : code = front ++ .instr (.block b terminates) :: (gotoExit terminates ++ back))
    {stack : List JValue} :
    Leads (step subject) finish (ended byDefault code)
      (.instr (.block b terminates) :: (gotoExit terminates ++ rest)) ⟨stack, []⟩
      (ofBlock (some (b, terminates))) := by
  apply block_leads once
  intro completes
  rw [held]
  exact List.mem_append_right _ (List.mem_cons_of_mem _
    (List.mem_append_left _ (mem_gotoExit completes)))

/-- A jump to the default executes its body alone. -/
theorem default_leads {front back : Code}
    (once : (places (ended byDefault (front ++ (defaultCode byDefault ++ back)))).Nodup)
    {i : Instr} {stack stack' : List JValue}
    (jumps : step subject i ⟨stack, []⟩ = some (.jump .default ⟨stack', []⟩)) :
    Leads (step subject) finish (ended byDefault (front ++ (defaultCode byDefault ++ back)))
      (.instr i :: rest) ⟨stack, []⟩ (ofBlock byDefault) := by
  cases byDefault with
  | none =>
    have last : ended none (front ++ (defaultCode none ++ back)) =
        (front ++ (defaultCode none ++ back) ++
          if jumpsToExit (front ++ (defaultCode none ++ back)) then [.here .exit] else []) ++
            .here .default :: [] := (List.append_assoc ..).symm
    rw [last] at once ⊢
    exact Leads.jump jumps (behind_eq once) .end_
  | some b =>
    have split : ended (some b) (front ++ (defaultCode (some b) ++ back)) =
        front ++ .here .default :: (.instr (.block b.1 b.2) :: (gotoExit b.2 ++ (back ++
          if jumpsToExit (front ++ (defaultCode (some b) ++ back)) then [.here .exit] else []))) := by
      simp [ended, endCode, defaultCode]
    have found : behind .default (ended (some b) (front ++ (defaultCode (some b) ++ back))) = _ :=
      (congrArg (behind .default) split).trans (behind_eq (split ▸ once))
    refine Leads.jump jumps found ?_
    apply held_block_leads (front ++ [.here .default]) back once
    simp [defaultCode]

/-- The label that a `lookupswitch` jumps to. -/
def lookup (pairs : List (BitVec 32 × Label)) (i : BitVec 32) : Label :=
  ((pairs.find? fun pair => pair.1 = i).map Prod.snd).getD .default

/-- Distinct keys are sorted strictly. -/
theorem sortPairs_sorted (pairs : List (BitVec 32 × Label)) (distinct : (pairs.map Prod.fst).Nodup) :
    (sortPairs pairs).Pairwise fun pair pair' => pair.1.toInt < pair'.1.toInt := by
  have ordered : (sortPairs pairs).Pairwise fun pair pair' => pair.1.sle pair'.1 = true := by
    apply List.pairwise_mergeSort
    · intro pair pair' pair'' first second
      rw [BitVec.sle_iff_toInt_le] at first second ⊢
      exact Int.le_trans first second
    · intro pair pair'
      rw [Bool.or_eq_true, BitVec.sle_iff_toInt_le, BitVec.sle_iff_toInt_le]
      exact Int.le_total _ _
  have keys : ((sortPairs pairs).map Prod.fst).Nodup :=
    (((List.mergeSort_perm pairs _).map Prod.fst).nodup_iff).mpr distinct
  have different := List.pairwise_map.mp keys
  refine (ordered.and different).imp fun {pair pair'} both => ?_
  have le := BitVec.sle_iff_toInt_le.mp both.1
  have ne : pair.1.toInt ≠ pair'.1.toInt := fun same => both.2 (BitVec.toInt_inj.mp same)
  omega

theorem sortPairs_lookup (label : BitVec 32 → Label) (keys : List (BitVec 32)) (i : BitVec 32) :
    lookup (sortPairs (keys.map fun key => (key, label key))) i =
      if i ∈ keys then label i else .default := by
  have pairs (pair : BitVec 32 × Label) :
      pair ∈ sortPairs (keys.map fun key => (key, label key)) ↔
        ∃ key ∈ keys, (key, label key) = pair := by
    unfold sortPairs
    rw [List.mem_mergeSort, List.mem_map]
  unfold lookup
  cases found : (sortPairs (keys.map fun key => (key, label key))).find? fun pair =>
      pair.1 = i with
  | none =>
    rw [if_neg]
    · rfl
    · intro present
      exact absurd (decide_eq_true rfl)
        (List.find?_eq_none.mp found _ ((pairs _).mpr ⟨i, present, rfl⟩))
  | some pair =>
    have chosen := List.find?_some found
    obtain rfl : pair.1 = i := of_decide_eq_true chosen
    obtain ⟨key, present, rfl⟩ := (pairs pair).mp (List.mem_of_find?_eq_some found)
    rw [if_pos present]
    rfl

end Haxe.Source.Jvm.Switch
