import Mathlib.Data.List.Forall2
import Haxe.Source.Macro.EvalArraySteps

/-!
# Runs on arrays

A program works on any number of arrays, which it names by their order of creation. A call
changes one array and may create another. The same calls on sequences say what a program
must observe.
-/

namespace Haxe.Source.Macro.EvalArray

open Theory

variable {α : Type} (R : Runtime α)

inductive Operation (α : Type) where
  | push (v : α)
  | pop
  | shift
  | unshift (v : α)
  | insert (pos : Int) (x : α)
  | remove (x : α)
  | splice (pos len : Int)
  | slice (pos : Int) (end' : Option Int)
  | concat (other : Nat)
  | copy
  | reverse
  | sort (f : α → α → Int)
  | resize (len : Int)
  | set (i : Int) (v : α)
  | get (i : Int)

/-- A call on the array of that number. -/
structure Call (α : Type) where
  array : Nat
  operation : Operation α

/-- What a program gets back. -/
inductive Answer (α : Type) where
  | void
  | value (v : α)
  | int (n : Int)
  | bool (b : Bool)
  | newArray

inductive Failure where
  | unknownArray
  | negativeIndex (i : Int)
  | outOfBounds (e : OutOfBounds)

/-- An array after an operation, an array that was created, and the answer. -/
abbrev Effect (A α : Type) := Except Failure (A × Option A × Answer α)

def lift {β : Type} (r : Except OutOfBounds β) : Except Failure β := r.mapError .outOfBounds

/-- One operation, as the interpreter runs it. -/
@[grind =] def perform (heap : List (VArray α)) (a : VArray α) : Operation α → Effect (VArray α) α
  | .push v => (lift (push R a v)).map fun r => (r.1, none, .int r.2)
  | .pop => (lift (pop R a)).map fun r => (r.1, none, .value r.2)
  | .shift => (lift (shift R a)).map fun r => (r.1, none, .value r.2)
  | .unshift v => (lift (unshift R a v)).map fun a' => (a', none, .void)
  | .insert pos x => (lift (StdArray.insert R a pos x)).map fun a' => (a', none, .void)
  | .remove x => (lift (remove R a x)).map fun r => (r.1, none, .bool r.2)
  | .splice pos len => (lift (StdArray.splice a pos len)).map fun r => (r.1, some r.2, .newArray)
  | .slice pos end' => (lift (StdArray.slice a pos end')).map fun a' => (a, some a', .newArray)
  | .concat other =>
    match heap[other]? with
    | none => .error .unknownArray
    | some a2 => (lift (concat R a a2)).map fun a' => (a, some a', .newArray)
  | .copy => (lift (copy a)).map fun a' => (a, some a', .newArray)
  | .reverse => (lift (reverse a)).map fun a' => (a', none, .void)
  | .sort f => (lift (sort R a f)).map fun a' => (a', none, .void)
  | .resize len => (lift (resize R a len)).map fun a' => (a', none, .void)
  | .set i v =>
    if i < 0 then .error (.negativeIndex i)
    else (lift (set R a i.toNat v)).map fun a' => (a', none, .value v)
  | .get i => .ok (a, none, .value (get R a i))

/-- The same operation on sequences. -/
@[grind =]
def Sequence.perform (heap : List (List α)) (l : List α) : Operation α → Effect (List α) α
  | .push v => .ok (l ++ [v], none, .int (l.length + 1))
  | .pop => .ok (l.dropLast, none, .value (Sequence.get R l (l.length - 1)))
  | .shift => .ok (l.tail, none, .value (Sequence.get R l 0))
  | .unshift v => .ok (v :: l, none, .void)
  | .insert pos x => .ok (Sequence.insert l pos x, none, .void)
  | .remove x => .ok (Sequence.remove R l x, none, .bool (l.findIdx? (R.equals x)).isSome)
  | .splice pos len =>
    .ok ((Sequence.splice l pos len).1, some (Sequence.splice l pos len).2, .newArray)
  | .slice pos end' => .ok (l, some (Sequence.slice l pos end'), .newArray)
  | .concat other =>
    match heap[other]? with
    | none => .error .unknownArray
    | some l2 => .ok (l, some (l ++ l2), .newArray)
  | .copy => .ok (l, some l, .newArray)
  | .reverse => .ok (l.reverse, none, .void)
  | .sort f => .ok (R.sort f l, none, .void)
  | .resize len => (lift (Sequence.resize R l len)).map fun l' => (l', none, .void)
  | .set i v =>
    if i < 0 then .error (.negativeIndex i) else .ok (Sequence.set R l i.toNat v, none, .value v)
  | .get i => .ok (l, none, .value (Sequence.get R l i))

/-- One call of a program: an operation that fails changes nothing. -/
def step {A : Type} (perform : List A → A → Operation α → Effect A α) (heap : List A)
    (call : Call α) : List A × Except Failure (Answer α) :=
  match heap[call.array]? with
  | none => (heap, .error .unknownArray)
  | some a =>
    match perform heap a call.operation with
    | .error e => (heap, .error e)
    | .ok (a', created, answer) => (heap.set call.array a' ++ created.toList, .ok answer)

/-- The arrays after some calls, and all answers. -/
def run {A : Type} (perform : List A → A → Operation α → Effect A α) :
    List A → List (Call α) → List A × List (Except Failure (Answer α))
  | heap, [] => (heap, [])
  | heap, call :: calls =>
    let (heap', answer) := step perform heap call
    let (heap'', answers) := run perform heap' calls
    (heap'', answer :: answers)

/-- The index of the buffer that an operation makes live by writing to it. -/
@[grind =] def Operation.reaches : Operation α → Option Nat
  | .set i _ => if i < 0 then none else some i.toNat
  | .resize n => if n ≤ 0 then none else some (n - 1).toNat
  | _ => none

/-- What the operation writes to uncovers no old value of `a`. -/
def CleanFor (a : VArray α) (operation : Operation α) : Prop :=
  ∀ i, operation.reaches = some i → a.alength ≤ i → a.ClearUpTo R i

/-- A call that uncovers no old value: writing behind the end of its array, or growing it,
finds no other value than `null` on the way. -/
def Clean (heap : List (VArray α)) (call : Call α) : Prop :=
  ∀ a, heap[call.array]? = some a → CleanFor R a call.operation

/-- A run in which every call is clean. -/
def CleanRun : List (VArray α) → List (Call α) → Prop
  | _, [] => True
  | heap, call :: calls => Clean R heap call ∧ CleanRun (step (perform R) heap call).1 calls

/-- All live values of all arrays, as sequences. -/
def Represents (heap : List (VArray α)) (sequences : List (List α)) : Prop :=
  List.Forall₂ Refines heap sequences

variable {R}

theorem represents_get {heap : List (VArray α)} {sequences : List (List α)}
    (h : Represents heap sequences) (k : Nat) :
    (heap[k]? = none ∧ sequences[k]? = none) ∨
      ∃ a l, heap[k]? = some a ∧ sequences[k]? = some l ∧ Refines a l := by
  induction h generalizing k with
  | nil => exact Or.inl ⟨rfl, rfl⟩
  | cons head _ ih =>
    cases k with
    | zero => exact Or.inr ⟨_, _, rfl, rfl, head⟩
    | succ k => exact ih k

theorem represents_set {heap : List (VArray α)} {sequences : List (List α)} {a : VArray α}
    {l : List α} (h : Represents heap sequences) (refines : Refines a l) (k : Nat) :
    Represents (heap.set k a) (sequences.set k l) := by
  induction h generalizing k with
  | nil => exact .nil
  | cons head tail ih =>
    cases k with
    | zero => exact .cons refines tail
    | succ k => exact .cons head (ih k)

theorem cleanFor_none {a : VArray α} {operation : Operation α} (h : operation.reaches = none) :
    CleanFor R a operation := by
  intro i reached
  rw [h] at reached
  cases reached

/-- What an operation does to an array and to the sequence it represents: the same answer and
the same new array, and the array represents the new sequence if nothing old is uncovered. -/
inductive Matches (R : Runtime α) (a : VArray α) (operation : Operation α) :
    Effect (VArray α) α → Effect (List α) α → Prop where
  | fails (e : Failure) (clean : CleanFor R a operation) :
    Matches R a operation (.error e) (.error e)
  | succeeds {a' : VArray α} {l' : List α} {created : Option (VArray α)}
    {created' : Option (List α)} (answer : Answer α)
    (new : List.Forall₂ Refines created.toList created'.toList)
    (refines : Refines a' l' ↔ CleanFor R a operation) :
    Matches R a operation (.ok (a', created, answer)) (.ok (l', created', answer))

/-- An operation that writes nowhere behind the end. -/
theorem Matches.always {a a' : VArray α} {l' : List α} {operation : Operation α}
    {created : Option (VArray α)} {created' : Option (List α)} {answer : Answer α}
    (none : operation.reaches = none)
    (new : List.Forall₂ Refines created.toList created'.toList) (refines : Refines a' l') :
    Matches R a operation (.ok (a', created, answer)) (.ok (l', created', answer)) :=
  .succeeds answer new ⟨fun _ => cleanFor_none none, fun _ => refines⟩

theorem perform_matches {heap : List (VArray α)} {sequences : List (List α)}
    (represents : Represents heap sequences) {a : VArray α} {l : List α} (h : Refines a l)
    (operation : Operation α) :
    Matches R a operation (perform R heap a operation)
      (Sequence.perform R sequences l operation) := by
  cases operation with
  | push v =>
    obtain ⟨a', pushed, refines⟩ := @push_refines α R a l h v
    simp only [perform, Sequence.perform, pushed]
    exact .always rfl .nil refines
  | pop =>
    obtain ⟨a', popped, refines⟩ := @pop_refines α R a l h
    simp only [perform, Sequence.perform, popped]
    exact .always rfl .nil refines
  | shift =>
    obtain ⟨a', shifted, refines⟩ := @shift_refines α R a l h
    simp only [perform, Sequence.perform, shifted]
    exact .always rfl .nil refines
  | unshift v =>
    obtain ⟨a', unshifted, refines⟩ := @unshift_refines α R a l h v
    simp only [perform, Sequence.perform, unshifted]
    exact .always rfl .nil refines
  | insert pos x =>
    obtain ⟨a', inserted, refines⟩ := @stdInsert_refines α R a l h pos x
    simp only [perform, Sequence.perform, inserted]
    exact .always rfl .nil refines
  | remove x =>
    obtain ⟨a', removed, refines⟩ := @remove_refines α R a l h x
    simp only [perform, Sequence.perform, removed]
    exact .always rfl .nil refines
  | splice pos len =>
    obtain ⟨a', spliced, refines⟩ := stdSplice_refines h pos len
    simp only [perform, Sequence.perform, spliced]
    exact .always rfl (.cons (Refines.create _) .nil) refines
  | slice pos end' =>
    obtain ⟨a', sliced, refines⟩ := slice_refines h pos end'
    simp only [perform, Sequence.perform, sliced]
    exact .always rfl (.cons refines .nil) h
  | concat other =>
    rcases represents_get represents other with ⟨unknown, unknown'⟩ | ⟨a2, l2, known, known', h2⟩
    · simp only [perform, Sequence.perform, unknown, unknown']
      exact .fails _ (cleanFor_none rfl)
    · obtain ⟨a', joined, refines⟩ := @concat_refines α R a l a2 l2 h h2
      simp only [perform, Sequence.perform, known, known', joined]
      exact .always rfl (.cons refines .nil) h
  | copy =>
    simp only [perform, Sequence.perform, copy_refines h]
    exact .always rfl (.cons (Refines.create l) .nil) h
  | reverse =>
    obtain ⟨a', reversed, refines⟩ := reverse_refines h
    simp only [perform, Sequence.perform, reversed]
    exact .always rfl .nil refines
  | sort f =>
    obtain ⟨a', sorted, refines⟩ := @sort_refines α R a l h f
    simp only [perform, Sequence.perform, sorted]
    exact .always rfl .nil refines
  | resize len =>
    rcases @resize_refines α R a l h len with ⟨negative, failed, failed'⟩ |
      ⟨a', l', resized, resized', refines⟩
    · simp only [perform, Sequence.perform, failed, failed']
      refine .fails _ (cleanFor_none ?_)
      simp [Operation.reaches, Int.le_of_lt negative]
    · simp only [perform, Sequence.perform, resized, resized']
      refine .succeeds _ .nil (refines.trans ?_)
      unfold CleanFor Operation.reaches
      dsimp only
      split
      · exact ⟨fun _ i reached => (by cases reached), fun _ less => (by omega)⟩
      · constructor
        · rintro clear i ⟨⟩ behind
          exact clear (by omega)
        · exact fun clear less => clear _ rfl (by omega)
  | set i v =>
    simp only [perform, Sequence.perform]
    split
    · next negative => exact .fails _ (cleanFor_none (by simp [Operation.reaches, negative]))
    · next valid =>
      obtain ⟨a', written, refines⟩ := @set_refines α R a l h i.toNat v
      rw [written]
      refine .succeeds _ .nil (refines.trans ?_)
      unfold CleanFor Operation.reaches
      dsimp only
      rw [if_neg valid]
      constructor
      · rintro clear k ⟨⟩ _
        exact clear
      · intro clear within j behind before
        exact clear _ rfl (by omega) within j behind before
  | get i =>
    simp only [perform, Sequence.perform, get_refines h]
    exact .always rfl .nil h

/-- One call: the same answer, and the same sequences exactly if it is clean. -/
theorem step_matches {heap : List (VArray α)} {sequences : List (List α)}
    (represents : Represents heap sequences) (call : Call α) :
    (step (perform R) heap call).2 = (step (Sequence.perform R) sequences call).2 ∧
    (Represents (step (perform R) heap call).1 (step (Sequence.perform R) sequences call).1 ↔
      Clean R heap call) := by
  unfold step Clean
  rcases represents_get represents call.array with ⟨unknown, unknown'⟩ | ⟨a, l, known, known', h⟩
  · simp [unknown, unknown', represents]
  · simp only [known, known', Option.some.injEq, forall_eq']
    have matched := @perform_matches α R heap sequences represents a l h call.operation
    generalize perform R heap a call.operation = effect at matched ⊢
    generalize Sequence.perform R sequences l call.operation = effect' at matched ⊢
    cases matched with
    | fails e clean => exact ⟨rfl, fun _ => clean, fun _ => represents⟩
    | succeeds answer new refines =>
      refine ⟨rfl, fun after => ?_, fun clean => ?_⟩
      · have inside : call.array < heap.length := (List.getElem?_eq_some_iff.mp known).1
        have inside' : call.array < sequences.length := (List.getElem?_eq_some_iff.mp known').1
        rcases represents_get after call.array with ⟨none, -⟩ | ⟨b, m, first, second, same⟩
        · rw [List.getElem?_append_left (by simpa using inside), List.getElem?_set_self inside]
            at none
          cases none
        · rw [List.getElem?_append_left (by simpa using inside), List.getElem?_set_self inside]
            at first
          rw [List.getElem?_append_left (by simpa using inside'), List.getElem?_set_self inside']
            at second
          cases first
          cases second
          exact refines.mp same
      · exact List.rel_append (represents_set represents (refines.mpr clean) call.array) new

end Haxe.Source.Macro.EvalArray
