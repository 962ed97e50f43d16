import Haxe.Theory.SortedBindings

/-!
# EnumValueMap

The order of `EnumValueMap.hx`. What is neither an enum value nor an array is compared by
`Reflect.compare`, which is right within one kind of values.
-/

namespace Haxe.Source.EnumValueMap

open Theory.SortedBindings (TotalOrder)

inductive Dynamic (α : Type) where
  | enumValue (index : Nat) (parameters : List (Dynamic α))
  | array (items : List (Dynamic α))
  | other (a : α)

/-- `if (d != 0) return d;`. -/
def orElse (d rest : Int) : Int := if d ≠ 0 then d else rest

section Compare

variable {α : Type} (reflectCompare : Dynamic α → Dynamic α → Int)

mutual

def compareArg : Dynamic α → Dynamic α → Int
  | .enumValue i p1, .enumValue j p2 =>
    orElse (i - j) (if p1.length = 0 ∧ p2.length = 0 then 0 else
      orElse (p1.length - p2.length) (compareEach p1 p2))
  | .array a1, .array a2 => orElse (a1.length - a2.length) (compareEach a1 a2)
  | v1, v2 => reflectCompare v1 v2

/-- The loop of `compareArgs`. -/
def compareEach : List (Dynamic α) → List (Dynamic α) → Int
  | v1 :: a1, v2 :: a2 => orElse (compareArg v1 v2) (compareEach a1 a2)
  | _, _ => 0

end

def compareArgs (a1 a2 : List (Dynamic α)) : Int :=
  orElse (a1.length - a2.length) (compareEach reflectCompare a1 a2)

/-- An enum value is its index with its parameters. -/
def compare (k1 k2 : Nat × List (Dynamic α)) : Int :=
  orElse (k1.1 - k2.1) (if k1.2.length = 0 ∧ k2.2.length = 0 then 0 else
    compareArgs reflectCompare k1.2 k2.2)

end Compare

section Order

variable {α C : Type} (kind : α → C)

mutual

/-- Values of one type: parameters of one constructor, and the items of arrays, are of one type
each. -/
def Comparable : Dynamic α → Dynamic α → Prop
  | .enumValue i p1, .enumValue j p2 => i = j → EachComparable p1 p2
  | .array a1, .array a2 => EachComparable a1 a2
  | .other a, .other b => kind a = kind b
  | _, _ => False

def EachComparable : List (Dynamic α) → List (Dynamic α) → Prop
  | v1 :: a1, v2 :: a2 => Comparable v1 v2 ∧ EachComparable a1 a2
  | _, _ => True

end

def Turned (x y : Int) : Prop := (x < 0 ↔ 0 < y) ∧ (y < 0 ↔ 0 < x)

def Chained (x y z : Int) : Prop := x ≤ 0 → y ≤ 0 → z ≤ 0 ∧ (z = 0 ↔ x = 0 ∧ y = 0)

theorem turned_orElse {x y x' y' : Int} (first : Turned x y) (rest : x = 0 → Turned x' y') :
    Turned (orElse x x') (orElse y y') := by
  unfold Turned orElse at *
  split_ifs <;> omega

theorem chained_orElse {x y z x' y' z' : Int} (first : Chained x y z)
    (rest : x = 0 → y = 0 → Chained x' y' z') :
    Chained (orElse x x') (orElse y y') (orElse z z') := by
  unfold Chained orElse at *
  split_ifs <;> omega

theorem turned_sub (i j : Nat) : Turned (i - j) (j - i) := by
  unfold Turned
  omega

theorem chained_sub (i j k : Nat) : Chained (i - j) (j - k) (i - k) := by
  unfold Chained
  omega

theorem chained_of_order {T : Type} {compare : T → T → Int} (order : TotalOrder compare)
    (a b c : T) : Chained (compare a b) (compare b c) (compare a c) := by
  intro first second
  have := order.trans a b c first second
  have := order.trans b c a
  have := order.trans c a b
  have := order.trans c b a
  have := order.symm a b
  have := order.symm b a
  have := order.symm b c
  have := order.symm c b
  have := order.symm a c
  have := order.symm c a
  omega

/-- The test for no parameters only saves a call. -/
theorem compareArg_enumValue (r : Dynamic α → Dynamic α → Int) (i j : Nat)
    (p1 p2 : List (Dynamic α)) :
    compareArg r (.enumValue i p1) (.enumValue j p2) = orElse (i - j) (compareArgs r p1 p2) := by
  rw [compareArg, compareArgs]
  split
  · rename_i empty
    rw [List.length_eq_zero_iff.mp empty.1, List.length_eq_zero_iff.mp empty.2]
    rfl
  · rfl

/-- `Reflect.compare` orders the values of each kind. -/
def Ordered (kind : α → C) (r : Dynamic α → Dynamic α → Int) : Prop :=
  ∀ c, TotalOrder fun a b : {a // kind a = c} => r (.other a.1) (.other b.1)

variable {kind} {r : Dynamic α → Dynamic α → Int}

mutual

theorem compareArg_turned (ordered : Ordered kind r) (a b : Dynamic α) (ab : Comparable kind a b)
    (ba : Comparable kind b a) : Turned (compareArg r a b) (compareArg r b a) := by
  cases a <;> cases b <;> try exact False.elim ab
  case enumValue.enumValue i ps j qs =>
    rw [compareArg_enumValue, compareArg_enumValue]
    refine turned_orElse (turned_sub i j) fun same => ?_
    have index : i = j := by omega
    exact turned_orElse (turned_sub _ _) fun _ =>
      compareEach_turned ordered ps qs (ab index) (ba index.symm)
  case array.array as bs =>
    exact turned_orElse (turned_sub _ _) fun _ => compareEach_turned ordered as bs ab ba
  case other.other a b => 
    have order := ordered (kind b)
    exact ⟨order.symm ⟨a, ab⟩ ⟨b, rfl⟩, order.symm ⟨b, rfl⟩ ⟨a, ab⟩⟩

theorem compareEach_turned (ordered : Ordered kind r) (as bs : List (Dynamic α))
    (ab : EachComparable kind as bs) (ba : EachComparable kind bs as) :
    Turned (compareEach r as bs) (compareEach r bs as) := by
  cases as <;> cases bs
  case cons.cons a as b bs =>
    exact turned_orElse (compareArg_turned ordered a b ab.1 ba.1) fun _ =>
      compareEach_turned ordered as bs ab.2 ba.2
  all_goals exact ⟨Iff.rfl, Iff.rfl⟩

end

mutual

theorem compareArg_chained (ordered : Ordered kind r) (a b c : Dynamic α)
    (ab : Comparable kind a b) (bc : Comparable kind b c) :
    Chained (compareArg r a b) (compareArg r b c) (compareArg r a c) := by
  cases a <;> cases b <;> (try exact False.elim ab) <;> cases c <;> try exact False.elim bc
  case enumValue.enumValue.enumValue i ps j qs k rs =>
    rw [compareArg_enumValue, compareArg_enumValue, compareArg_enumValue]
    refine chained_orElse (chained_sub i j k) fun same same' => ?_
    refine chained_orElse (chained_sub _ _ _) fun long long' => ?_
    exact compareEach_chained ordered ps qs rs (by omega) (by omega) (ab (by omega)) (bc (by omega))
  case array.array.array as bs cs =>
    refine chained_orElse (chained_sub _ _ _) fun long long' => ?_
    exact compareEach_chained ordered as bs cs (by omega) (by omega) ab bc
  case other.other.other a b c =>
    let a' : {a // kind a = kind c} := ⟨a, ab.trans bc⟩
    let b' : {a // kind a = kind c} := ⟨b, bc⟩
    exact chained_of_order (ordered (kind c)) a' b' ⟨c, rfl⟩

theorem compareEach_chained (ordered : Ordered kind r) (as bs cs : List (Dynamic α))
    (long : as.length = bs.length)
    (long' : bs.length = cs.length) (ab : EachComparable kind as bs)
    (bc : EachComparable kind bs cs) :
    Chained (compareEach r as bs) (compareEach r bs cs) (compareEach r as cs) := by
  cases as <;> cases bs <;> try cases long
  case nil.nil => exact fun _ _ => ⟨le_rfl, by simp [compareEach]⟩
  case cons.cons a as b bs =>
    cases cs with
    | nil => cases long'
    | cons c cs =>
      exact chained_orElse (compareArg_chained ordered a b c ab.1 bc.1) fun _ _ =>
        compareEach_chained ordered as bs cs (Nat.succ.inj long) (Nat.succ.inj long') ab.2 bc.2

end

/-- Keys of one type of enums, seen as their indexes and parameters. -/
theorem compare_ordered (ordered : Ordered kind r) {K : Type} {view : K → Nat × List (Dynamic α)}
    (typed : ∀ k1 k2, (view k1).1 = (view k2).1 → EachComparable kind (view k1).2 (view k2).2) :
    TotalOrder fun k1 k2 => compare r (view k1) (view k2) where
  symm k1 k2 := (compareArg_turned ordered (.enumValue _ _) (.enumValue _ _) (typed k1 k2)
    (typed k2 k1)).1
  trans k1 k2 k3 first second := (compareArg_chained ordered (.enumValue _ _) (.enumValue _ _)
    (.enumValue _ _) (typed k1 k2) (typed k2 k3) first second).1

end Order

end Haxe.Source.EnumValueMap
