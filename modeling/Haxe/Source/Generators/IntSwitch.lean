import Haxe.Source.Generators.JvmSwitch

/-!
# Executions of integer switches

The lookup and the table both lead to the label of a number. The table is made over a 32-bit
range, so that it must not span more than half of the numbers.
-/

namespace Haxe.Source.Jvm.Switch

open Theory.LabelledCode

variable {cases : List (SwitchCase (BitVec 32))} {byDefault : Option (Block × Bool)}
  {subject : Option (List Nat)}

section Bodies

def placesOf (labels : List (BitVec 32)) : Code := labels.map fun i32 => .here (.case_ i32)

theorem places_placesOf (labels : List (BitVec 32)) :
    places (placesOf labels) = labels.map Label.case_ := by
  induction labels with
  | nil => rfl
  | cons i32 labels ih => exact congrArg (Label.case_ i32 :: ·) ih

theorem placesOf_leads {prog code : Code} {labels : List (BitVec 32)} {s : State} {r : Result}
    (leads : Leads (step subject) finish prog code s r) :
    Leads (step subject) finish prog (placesOf labels ++ code) s r := by
  induction labels with
  | nil => exact leads
  | cons i32 labels ih => exact Leads.here _ ih

theorem casesCode_cons (index : Nat) (case_ : SwitchCase (BitVec 32))
    (cases : List (SwitchCase (BitVec 32))) :
    casesCode index (case_ :: cases) = placesOf case_.labels ++
      .instr (.block (.case_ index) case_.terminates) ::
        ((if cases ≠ [] then gotoExit case_.terminates else []) ++ casesCode (index + 1) cases) :=
  rfl

theorem places_casesCode (index : Nat) :
    places (casesCode index cases) = (flatCases cases).map Label.case_ := by
  induction cases generalizing index with
  | nil => rfl
  | cons case_ cases ih =>
    have jump : places (if cases ≠ [] then gotoExit case_.terminates else []) = [] := by
      split
      · exact places_gotoExit case_.terminates
      · rfl
    have flat : flatCases (case_ :: cases) = case_.labels ++ flatCases cases := List.flatMap_cons
    rw [casesCode_cons, places_append, places_placesOf, places_instr, places_append, jump, ih,
      flat, List.map_append]
    rfl

/-- A body with what is behind it: the jump, or the end of the switch. -/
theorem casesCode_split {case_ : SwitchCase (BitVec 32)} (index k : Nat)
    (found : cases[k]? = some case_) :
    ∃ front tail, casesCode index cases = front ++ (placesOf case_.labels ++
      .instr (.block (.case_ (index + k)) case_.terminates) :: tail) ∧
        (tail = [] ∨ ∃ back, tail = gotoExit case_.terminates ++ back) := by
  induction cases generalizing index k with
  | nil => cases found
  | cons first cases ih =>
    cases k with
    | zero =>
      obtain rfl := Option.some.inj found
      refine ⟨[], _, casesCode_cons index first cases, ?_⟩
      by_cases last : cases = []
      · left
        rw [last]
        rfl
      · right
        rw [if_pos last]
        exact ⟨_, rfl⟩
    | succ k =>
      obtain ⟨front, tail, split, leaves⟩ := ih (index + 1) k found
      refine ⟨placesOf first.labels ++ .instr (.block (.case_ index) first.terminates) ::
        ((if cases ≠ [] then gotoExit first.terminates else []) ++ front), tail, ?_, leaves⟩
      rw [Nat.add_assoc, Nat.add_comm 1 k] at split
      rw [casesCode_cons, split]
      simp

end Bodies

/-- The code of a switch in front of its end. -/
def intCode (switch : Instr) (cases : List (SwitchCase (BitVec 32)))
    (byDefault : Option (Block × Bool)) : Code :=
  [.instr switch] ++ (defaultCode byDefault ++ casesCode 0 cases)

theorem places_intCode (switch : Instr) (byDefault : Option (Block × Bool)) :
    places (intCode switch cases byDefault) =
      places (defaultCode byDefault) ++ (flatCases cases).map Label.case_ := by
  rw [intCode, places_append, places_append, places_casesCode]
  rfl

theorem intCode_once (distinct : (flatCases cases).Nodup) (switch : Instr)
    (byDefault : Option (Block × Bool)) :
    (places (ended byDefault (intCode switch cases byDefault))).Nodup := by
  have numbers : ((flatCases cases).map Label.case_).Nodup :=
    distinct.map fun i i' same => Label.case_.inj same
  have numbered {l : Label} (label : l ∈ (flatCases cases).map Label.case_) :
      l ≠ .default ∧ l ≠ .exit := by
    obtain ⟨i32, _, rfl⟩ := List.mem_map.mp label
    constructor <;> intro same <;> cases same
  rw [← places_casesCode 0] at numbers numbered
  apply ended_once
  · rw [places_intCode, places_defaultCode, ← places_casesCode 0]
    split
    · exact numbers
    · exact List.nodup_cons.mpr ⟨fun label => (numbered label).1 rfl, numbers⟩
  · rw [places_intCode, places_defaultCode, ← places_casesCode 0]
    split
    · exact fun label => (numbered label).2 rfl
    · intro label
      obtain same | label := List.mem_cons.mp label
      · cases same
      · exact (numbered label).2 rfl
  · intro nothing
    rw [places_intCode, places_defaultCode, if_pos nothing, ← places_casesCode 0]
    exact fun label => (numbered label).1 rfl

/-- A jump to the label of a number executes the body of its case alone. -/
theorem case_leads (distinct : (flatCases cases).Nodup) {switch : Instr} {k : Nat}
    {case_ : SwitchCase (BitVec 32)} (found : cases[k]? = some case_) {i32 : BitVec 32}
    (label : i32 ∈ case_.labels) {stack stack' : List JValue} {rest : Code}
    (jumps : step subject switch ⟨stack, []⟩ = some (.jump (.case_ i32) ⟨stack', []⟩)) :
    Leads (step subject) finish (ended byDefault (intCode switch cases byDefault))
      (.instr switch :: rest) ⟨stack, []⟩ (ofBlock (some (.case_ k, case_.terminates))) := by
  have once := intCode_once distinct switch byDefault
  obtain ⟨front, tail, split, leaves⟩ := casesCode_split 0 k found
  rw [Nat.zero_add] at split
  obtain ⟨before, after, labels⟩ := List.append_of_mem label
  have code : intCode switch cases byDefault = (.instr switch :: (defaultCode byDefault ++ front)) ++
      (placesOf case_.labels ++ .instr (.block (.case_ k) case_.terminates) :: tail) := by
    rw [intCode, split]
    simp
  have placed : ended byDefault (intCode switch cases byDefault) =
      (.instr switch :: (defaultCode byDefault ++ front) ++ placesOf before) ++
        .here (.case_ i32) :: (placesOf after ++ (.instr (.block (.case_ k) case_.terminates) ::
          (tail ++ endCode byDefault (intCode switch cases byDefault)))) := by
    rw [ended]
    conv => lhs; lhs; rw [code, labels]
    simp [placesOf]
  have behindLabel : behind (.case_ i32) (ended byDefault (intCode switch cases byDefault)) = _ :=
    (congrArg (behind _) placed).trans (behind_eq (placed ▸ once))
  refine Leads.jump jumps behindLabel (placesOf_leads ?_)
  obtain rfl | ⟨back, rfl⟩ := leaves
  · cases terminates : case_.terminates with
    | true => exact Leads.leave rfl
    | false => exact Leads.fall rfl end_leads
  · rw [List.append_assoc]
    apply held_block_leads (.instr switch :: (defaultCode byDefault ++ front) ++
      placesOf case_.labels) back once
    rw [code]
    simp

/-- Every jump to the default executes its body alone. -/
theorem int_default_leads (distinct : (flatCases cases).Nodup) {switch : Instr}
    {stack stack' : List JValue} {rest : Code}
    (jumps : step subject switch ⟨stack, []⟩ = some (.jump .default ⟨stack', []⟩)) :
    Leads (step subject) finish (ended byDefault (intCode switch cases byDefault))
      (.instr switch :: rest) ⟨stack, []⟩ (ofBlock byDefault) :=
  default_leads (intCode_once distinct switch byDefault) jumps

end Haxe.Source.Jvm.Switch

/-!
## The ranges of integer switches

The least and the largest label, and the label that the table or the lookup leads to.
-/

namespace Haxe.Source.Jvm.Switch

open Theory.LabelledCode

section Bounds

variable {xs : List (BitVec 32)}

theorem least_of_fold (xs : List (BitVec 32)) (m : Int) :
    (∀ i ∈ xs, xs.foldl (fun least i32 => if i32.toInt < least then i32.toInt else least) m ≤
      i.toInt) ∧
    xs.foldl (fun least i32 => if i32.toInt < least then i32.toInt else least) m ≤ m ∧
    (xs.foldl (fun least i32 => if i32.toInt < least then i32.toInt else least) m = m ∨
      ∃ i ∈ xs, xs.foldl (fun least i32 => if i32.toInt < least then i32.toInt else least) m =
        i.toInt) := by
  induction xs generalizing m with
  | nil => exact ⟨fun i member => absurd member List.not_mem_nil, Int.le_refl m, .inl rfl⟩
  | cons i xs ih =>
    rw [List.foldl_cons]
    obtain ⟨below, le, reached⟩ := ih (if i.toInt < m then i.toInt else m)
    have first : (if i.toInt < m then i.toInt else m) ≤ i.toInt := by split <;> omega
    have second : (if i.toInt < m then i.toInt else m) ≤ m := by split <;> omega
    refine ⟨List.forall_mem_cons.mpr ⟨Int.le_trans le first, below⟩, Int.le_trans le second, ?_⟩
    obtain same | ⟨i', member, same⟩ := reached
    · rw [same]
      by_cases less : i.toInt < m
      · rw [if_pos less]
        exact .inr ⟨i, List.mem_cons_self, rfl⟩
      · rw [if_neg less]
        exact .inl rfl
    · exact .inr ⟨i', .tail _ member, same⟩

theorem most_of_fold (xs : List (BitVec 32)) (m : Int) :
    (∀ i ∈ xs, i.toInt ≤
      xs.foldl (fun most i32 => if i32.toInt > most then i32.toInt else most) m) ∧
    m ≤ xs.foldl (fun most i32 => if i32.toInt > most then i32.toInt else most) m ∧
    (xs.foldl (fun most i32 => if i32.toInt > most then i32.toInt else most) m = m ∨
      ∃ i ∈ xs, xs.foldl (fun most i32 => if i32.toInt > most then i32.toInt else most) m =
        i.toInt) := by
  induction xs generalizing m with
  | nil => exact ⟨fun i member => absurd member List.not_mem_nil, Int.le_refl m, .inl rfl⟩
  | cons i xs ih =>
    rw [List.foldl_cons]
    obtain ⟨above, le, reached⟩ := ih (if i.toInt > m then i.toInt else m)
    have first : i.toInt ≤ (if i.toInt > m then i.toInt else m) := by split <;> omega
    have second : m ≤ (if i.toInt > m then i.toInt else m) := by split <;> omega
    refine ⟨List.forall_mem_cons.mpr ⟨Int.le_trans first le, above⟩, Int.le_trans second le, ?_⟩
    obtain same | ⟨i', member, same⟩ := reached
    · rw [same]
      by_cases more : i.toInt > m
      · rw [if_pos more]
        exact .inr ⟨i, List.mem_cons_self, rfl⟩
      · rw [if_neg more]
        exact .inl rfl
    · exact .inr ⟨i', .tail _ member, same⟩

theorem toInt_bounds (i : BitVec 32) : -2147483648 ≤ i.toInt ∧ i.toInt < 2147483648 :=
  ⟨BitVec.le_toInt i, BitVec.toInt_lt⟩

end Bounds

variable {cases : List (SwitchCase (BitVec 32))}

/-- The extreme labels of a switch that has labels. -/
theorem extremes (some_ : flatCases cases ≠ []) :
    ∃ low ∈ flatCases cases, ∃ high ∈ flatCases cases, imin cases = low.toInt ∧
      imax cases = high.toInt ∧
        ∀ i ∈ flatCases cases, low.toInt ≤ i.toInt ∧ i.toInt ≤ high.toInt := by
  obtain ⟨first, member⟩ := List.exists_mem_of_ne_nil _ some_
  obtain ⟨below, _, least⟩ := least_of_fold (flatCases cases) 9223372036854775807
  obtain ⟨above, _, most⟩ := most_of_fold (flatCases cases) (-9223372036854775808)
  have := toInt_bounds first
  have firstBelow := below first member
  have firstAbove := above first member
  obtain none | ⟨low, lowMember, low_eq⟩ := least
  · omega
  obtain none | ⟨high, highMember, high_eq⟩ := most
  · omega
  refine ⟨low, lowMember, high, highMember, low_eq, high_eq, fun i member => ⟨?_, ?_⟩⟩
  · rw [← low_eq]
    exact below i member
  · rw [← high_eq]
    exact above i member

/-- Two labels are that far from each other. -/
def Spans (cases : List (SwitchCase (BitVec 32))) (d : Int) : Prop :=
  ∃ i ∈ flatCases cases, ∃ i' ∈ flatCases cases, d ≤ i'.toInt - i.toInt

/-- The label that a switch has to lead to. -/
def target (cases : List (SwitchCase (BitVec 32))) (i : BitVec 32) : Label :=
  if (flatCases cases).any fun label => label = i then .case_ i else .default

theorem target_eq (i : BitVec 32) :
    target cases i = if i ∈ flatCases cases then .case_ i else .default := by
  simp [target]

theorem spans_iff {low high : BitVec 32} (lowMember : low ∈ flatCases cases)
    (highMember : high ∈ flatCases cases)
    (between : ∀ i ∈ flatCases cases, low.toInt ≤ i.toInt ∧ i.toInt ≤ high.toInt) (d : Int) :
    Spans cases d ↔ d ≤ high.toInt - low.toInt := by
  constructor
  · rintro ⟨i, member, i', member', far⟩
    have := between i member
    have := between i' member'
    omega
  · intro far
    exact ⟨low, lowMember, high, highMember, far⟩

/-- The switch jumps to the label of a number. -/
def Jumps (cases : List (SwitchCase (BitVec 32))) (i : BitVec 32) : Prop :=
  ∃ switch, switchInstr cases = some switch ∧
    step none switch ⟨[.int i], []⟩ = some (.jump (target cases i) ⟨[], []⟩)

theorem lookup_jumps (distinct : (flatCases cases).Nodup) (sparse : useTableswitch cases = false)
    (i : BitVec 32) : Jumps cases i := by
  refine ⟨_, by rw [switchInstr, sparse]; rfl, ?_⟩
  have sorted := sortPairs_sorted ((flatCases cases).map fun i32 => (i32, Label.case_ i32))
    (by rw [List.map_map]; exact (List.map_id _).symm ▸ distinct)
  have found := sortPairs_lookup Label.case_ (flatCases cases) i
  refine (if_pos sorted).trans ?_
  unfold lookup at found
  rw [found, target_eq]

/-- The size of a table between two numbers. -/
theorem size_eq {low high : BitVec 32} (order : low.toInt ≤ high.toInt) :
    (high - low).toInt + 1 =
      if high.toInt - low.toInt < 2147483648 then high.toInt - low.toInt + 1
      else high.toInt - low.toInt + 1 - 4294967296 := by
  have lowBounds := toInt_bounds low
  have highBounds := toInt_bounds high
  rw [BitVec.toInt_sub]
  have wrapped : (high.toInt - low.toInt).bmod (2 ^ 32) =
      if high.toInt - low.toInt < 2147483648 then high.toInt - low.toInt
      else high.toInt - low.toInt - 4294967296 := by
    split <;> rw [Int.bmod_eq_iff (by decide)] <;> omega
  rw [wrapped]
  split <;> omega

/-- A number counted from the least label. -/
theorem ofNat_add_low {low i : BitVec 32} (order : low.toInt ≤ i.toInt) :
    BitVec.ofNat 32 (i.toInt - low.toInt).toNat + low = i := by
  have counted : ((i.toInt - low.toInt).toNat : Int) = i.toInt - low.toInt := by omega
  rw [← BitVec.ofInt_natCast, counted]
  conv => lhs; rhs; rw [← BitVec.ofInt_toInt (x := low)]
  rw [← BitVec.ofInt_add, Int.sub_add_cancel, BitVec.ofInt_toInt]

/-- The switch over a table from one number to another. -/
def tableOf (cases : List (SwitchCase (BitVec 32))) (low high : BitVec 32) : Option Instr :=
  if (high - low).toInt + 1 < 0 then none
  else some (.tableswitch .default low high
    ((List.range ((high - low).toInt + 1).toNat).map fun i =>
      target cases (BitVec.ofNat 32 i + low)))

theorem switchInstr_dense (dense : useTableswitch cases = true) :
    switchInstr cases =
      tableOf cases (BitVec.ofInt 32 (imin cases)) (BitVec.ofInt 32 (imax cases)) := by
  rw [switchInstr, dense, if_pos rfl, offsets, tableOf]
  simp only [target_eq]
  split
  · rfl
  · rfl

section Tables

variable {low high : BitVec 32}

/-- A table that spans at most half of the numbers leads to the label of a number. -/
theorem table_jumps (order : low.toInt ≤ high.toInt) (i : BitVec 32)
    (between : ∀ i ∈ flatCases cases, low.toInt ≤ i.toInt ∧ i.toInt ≤ high.toInt)
    (narrow : high.toInt - low.toInt < 2147483648) :
    ∃ switch, tableOf cases low high = some switch ∧
      step none switch ⟨[.int i], []⟩ = some (.jump (target cases i) ⟨[], []⟩) := by
  have size := size_eq order
  have bounds := toInt_bounds i
  rw [if_pos narrow] at size
  rw [tableOf, size, if_neg (by omega)]
  refine ⟨_, rfl, ?_⟩
  rw [step]
  by_cases outside : i.toInt < low.toInt ∨ high.toInt < i.toInt
  · have absent : i ∉ flatCases cases := fun member => by
      have := between i member
      omega
    rw [if_pos outside, target_eq, if_neg absent]
  · rw [if_neg outside, List.getElem?_map, List.getElem?_range (by omega), Option.map_some,
      ofNat_add_low (by omega)]
    rfl

/-- A table that spans more of them is not made, or it is empty. -/
theorem table_stuck (order : low.toInt ≤ high.toInt) (i : BitVec 32)
    (wide : ¬ high.toInt - low.toInt < 2147483648) {switch : Instr}
    (made : tableOf cases low high = some switch) : step none switch ⟨[.int i], []⟩ = none := by
  have size := size_eq order
  have lowBounds := toInt_bounds low
  have highBounds := toInt_bounds high
  have bounds := toInt_bounds i
  rw [if_neg wide] at size
  rw [tableOf, size] at made
  split at made
  · cases made
  · obtain rfl := Option.some.inj made
    have empty : (high.toInt - low.toInt + 1 - 4294967296).toNat = 0 := by omega
    have inside : ¬ (i.toInt < low.toInt ∨ high.toInt < i.toInt) := by omega
    rw [empty, step, if_neg inside]
    rfl

end Tables

/-- Without labels there is a table of two numbers that are none. -/
theorem empty_jumps (empty : flatCases cases = []) (i : BitVec 32) : Jumps cases i := by
  have least : imin cases = 9223372036854775807 := by
    rw [imin, empty]
    rfl
  have most : imax cases = -9223372036854775808 := by
    rw [imax, empty]
    rfl
  have dense : useTableswitch cases = true := by
    rw [useTableswitch, diff, least, most, empty]
    rfl
  unfold Jumps
  rw [switchInstr_dense dense, least, most]
  refine table_jumps (by decide) i (fun i member => ?_) (by decide)
  rw [empty] at member
  cases member

/-- The labels span half of the numbers, and are so many that there is a table. -/
def TooWide (cases : List (SwitchCase (BitVec 32))) : Prop :=
  Spans cases 2147483648 ∧ ¬ Spans cases ((flatCases cases).length + 10)

/-- A switch jumps to the label of a number, unless it makes a table that is too wide. -/
theorem jumps_or_stuck (distinct : (flatCases cases).Nodup) (i : BitVec 32) :
    ¬ TooWide cases ∧ Jumps cases i ∨
      TooWide cases ∧ ∀ switch, switchInstr cases = some switch →
        step none switch ⟨[.int i], []⟩ = none := by
  by_cases empty : flatCases cases = []
  · refine .inl ⟨fun wide => ?_, empty_jumps empty i⟩
    obtain ⟨⟨i, member, _⟩, _⟩ := wide
    rw [empty] at member
    cases member
  obtain ⟨low, lowMember, high, highMember, least, most, between⟩ := extremes empty
  have lowBounds := toInt_bounds low
  have highBounds := toInt_bounds high
  have order : low.toInt ≤ high.toInt := (between low lowMember).2
  have span : diff cases = high.toInt - low.toInt := by
    rw [diff, least, most, Int.bmod_eq_iff (by decide)]
    omega
  unfold TooWide
  rw [spans_iff lowMember highMember between, spans_iff lowMember highMember between]
  cases dense : useTableswitch cases with
  | true =>
    unfold Jumps
    rw [switchInstr_dense dense, least, most, BitVec.ofInt_toInt, BitVec.ofInt_toInt]
    rw [useTableswitch, Bool.and_eq_true, decide_eq_true_eq, span] at dense
    by_cases narrow : high.toInt - low.toInt < 2147483648
    · exact .inl ⟨by omega, table_jumps order i between narrow⟩
    · exact .inr ⟨by omega, fun switch made => table_stuck order i narrow made⟩
  | false =>
    refine .inl ⟨fun wide => ?_, lookup_jumps distinct dense i⟩
    have fits : useTableswitch cases = true := by
      rw [useTableswitch, Bool.and_eq_true, decide_eq_true_eq, decide_eq_true_eq, span]
      omega
    rw [fits] at dense
    cases dense

end Haxe.Source.Jvm.Switch
