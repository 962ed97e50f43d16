import Mathlib.Data.List.Basic
import Mathlib.Logic.Function.Basic

/-!
# Doubly linked lists

A list of nodes that are linked by a `next` and by a `previous` pointer, and what remains linked
when a node is put in front of it or taken out of it.
-/

namespace Haxe.Theory.LinkedChains

variable {α : Type} {next previous : α → Option α}

/-- Some nodes in a row, behind a node `p` and in front of a node `q`. -/
def Segment (next previous : α → Option α) : Option α → List α → Option α → Prop
  | _, [], _ => True
  | p, a :: l, q =>
    previous a = p ∧ next a = l.head?.or q ∧ Segment next previous (some a) l q

/-- A whole list with its head. -/
structure Linked (next previous : α → Option α) (head : Option α) (l : List α) : Prop where
  head : head = l.head?
  nodes : Segment next previous none l none

theorem segment_append {p q : Option α} (l l' : List α) :
    Segment next previous p (l ++ l') q ↔
      Segment next previous p l (l'.head?.or q) ∧ Segment next previous (l.getLast?.or p) l' q := by
  induction l generalizing p with
  | nil => exact (and_iff_right trivial).symm
  | cons a l ih =>
    have heads : (l ++ l').head?.or q = l.head?.or (l'.head?.or q) := by
      rw [List.head?_append, Option.or_assoc]
    have lasts : (a :: l).getLast?.or p = l.getLast?.or (some a) := by
      cases l with
      | nil => rfl
      | cons b l =>
        rw [List.getLast?_cons_cons]
        cases last : (b :: l).getLast? with
        | none => exact absurd last (by simp)
        | some z => rfl
    rw [List.cons_append, Segment, Segment, heads, ih, lasts, and_assoc, and_assoc]

/-- Pointers of other nodes do not matter. -/
theorem Segment.congr {next' previous' : α → Option α} {p q : Option α} {l : List α}
    (segment : Segment next previous p l q) (nexts : ∀ a ∈ l, next' a = next a)
    (previouses : ∀ a ∈ l, previous' a = previous a) : Segment next' previous' p l q := by
  induction l generalizing p with
  | nil => trivial
  | cons a l ih =>
    obtain ⟨first, second, others⟩ := segment
    refine ⟨(previouses a List.mem_cons_self).trans first,
      (nexts a List.mem_cons_self).trans second, ih others ?_ ?_⟩
    · exact fun b member => nexts b (List.mem_cons_of_mem a member)
    · exact fun b member => previouses b (List.mem_cons_of_mem a member)

theorem Linked.congr {next' previous' : α → Option α} {head : Option α} {l : List α}
    (linked : Linked next previous head l) (nexts : ∀ a ∈ l, next' a = next a)
    (previouses : ∀ a ∈ l, previous' a = previous a) : Linked next' previous' head l :=
  ⟨linked.head, linked.nodes.congr nexts previouses⟩

/-- A list has no other pointers. -/
theorem Segment.unique {next' previous' : α → Option α} {p q : Option α} {l : List α}
    (segment : Segment next previous p l q) (segment' : Segment next' previous' p l q) :
    ∀ a ∈ l, next' a = next a ∧ previous' a = previous a := by
  induction l generalizing p with
  | nil => exact fun a member => absurd member List.not_mem_nil
  | cons b l ih =>
    obtain ⟨first, second, others⟩ := segment
    obtain ⟨first', second', others'⟩ := segment'
    exact List.forall_mem_cons.mpr
      ⟨⟨second'.trans second.symm, first'.trans first.symm⟩, ih others others'⟩

/-- The nodes that are met by following `next`. -/
def Chain (next : α → Option α) : Option α → List α → Prop
  | start, [] => start = none
  | start, a :: l => start = some a ∧ Chain next (next a) l

theorem Chain.unique {start : Option α} {l l' : List α} (chain : Chain next start l)
    (chain' : Chain next start l') : l = l' := by
  induction l generalizing start l' with
  | nil =>
    obtain rfl : start = none := chain
    cases l' with
    | nil => rfl
    | cons b l' => cases chain'.1
  | cons a l ih =>
    obtain ⟨rfl, behind⟩ := chain
    cases l' with
    | nil => cases chain'
    | cons b l' =>
      obtain rfl := Option.some.inj chain'.1
      rw [ih behind chain'.2]

theorem Chain.behind {start : Option α} {l l' : List α} {a : α}
    (chain : Chain next start (l ++ a :: l')) : Chain next (some a) (a :: l') := by
  induction l generalizing start with
  | nil => exact ⟨rfl, chain.2⟩
  | cons b l ih => exact ih chain.2

/-- A chain that ends meets no node twice. -/
theorem Chain.nodup {start : Option α} {l : List α} (chain : Chain next start l) : l.Nodup := by
  induction l generalizing start with
  | nil => exact List.nodup_nil
  | cons a l ih =>
    refine List.nodup_cons.mpr ⟨fun again => ?_, ih chain.2⟩
    obtain ⟨front, behind, rfl⟩ := List.append_of_mem again
    have whole : Chain next (some a) (a :: (front ++ a :: behind)) := ⟨rfl, chain.2⟩
    have same := congrArg List.length (whole.unique chain.2.behind)
    simp at same
    omega

theorem Linked.unique {next' previous' : α → Option α} {head head' : Option α} {l : List α}
    (linked : Linked next previous head l) (linked' : Linked next' previous' head' l) :
    ∀ a ∈ l, next' a = next a ∧ previous' a = previous a :=
  linked.nodes.unique linked'.nodes

theorem Segment.chain {p : Option α} {l : List α} (segment : Segment next previous p l none) :
    Chain next l.head? l := by
  induction l generalizing p with
  | nil => rfl
  | cons a l ih =>
    obtain ⟨-, second, others⟩ := segment
    refine ⟨rfl, ?_⟩
    rw [second, Option.or_none]
    exact ih others

/-- Pointers that descend lead to an end. -/
theorem exists_chain {next : Nat → Option Nat} {bound : Nat}
    (descending : ∀ a < bound, ∀ b, next a = some b → b < a) (start : Option Nat)
    (within : ∀ a, start = some a → a < bound) :
    ∃ l, Chain next start l ∧ l.length ≤ bound := by
  have from_ : ∀ a < bound, ∃ l, Chain next (some a) l ∧ l.length ≤ a + 1 := by
    intro a
    induction a using Nat.strongRecOn with
    | ind a ih =>
      intro known
      cases second : next a with
      | none => exact ⟨[a], ⟨rfl, second⟩, Nat.le_add_left _ _⟩
      | some b =>
        have lower := descending a known b second
        obtain ⟨l, chain, length⟩ := ih b lower (Nat.lt_trans lower known)
        refine ⟨a :: l, ⟨rfl, ?_⟩, ?_⟩
        · rw [second]
          exact chain
        · rw [List.length_cons]
          omega
  cases start with
  | none => exact ⟨[], rfl, Nat.zero_le _⟩
  | some a =>
    obtain ⟨l, chain, length⟩ := from_ a (within a rfl)
    exact ⟨l, chain, Nat.le_trans length (within a rfl)⟩

theorem Linked.chain {head : Option α} {l : List α} (linked : Linked next previous head l) :
    Chain next head l := by
  rw [linked.head]
  exact linked.nodes.chain

variable [DecidableEq α]

/-- The pointer of one node, if there is one, is set. -/
def relink (pointers : α → Option α) (node pointer : Option α) : α → Option α :=
  match node with
  | none => pointers
  | some e => Function.update pointers e pointer

theorem relink_self (pointers : α → Option α) (node : α) (pointer : Option α) :
    relink pointers (some node) pointer node = pointer := Function.update_self ..

theorem relink_of_ne {pointers : α → Option α} {node pointer : Option α} {a : α}
    (other : node ≠ some a) : relink pointers node pointer a = pointers a := by
  cases node with
  | none => rfl
  | some e =>
    apply Function.update_of_ne
    rintro rfl
    exact other rfl

/-- A segment is put behind another node. -/
theorem Segment.behind {p q : Option α} {l : List α} (segment : Segment next previous p l q)
    (distinct : l.Nodup) (p' : Option α) :
    Segment next (relink previous l.head? p') p' l q := by
  cases l with
  | nil => trivial
  | cons a l =>
    obtain ⟨-, second, others⟩ := segment
    refine ⟨Function.update_self .., second, others.congr (fun _ _ => rfl) ?_⟩
    intro b member
    apply relink_of_ne
    intro same
    obtain rfl := Option.some.inj same
    exact (List.nodup_cons.mp distinct).1 member

/-- A segment is put in front of another node. -/
theorem Segment.before {p q : Option α} {l : List α} (segment : Segment next previous p l q)
    (distinct : l.Nodup) (q' : Option α) :
    Segment (relink next l.getLast? q') previous p l q' := by
  induction l generalizing p with
  | nil => trivial
  | cons a l ih =>
    obtain ⟨first, second, others⟩ := segment
    obtain ⟨fresh, distinct⟩ := List.nodup_cons.mp distinct
    cases l with
    | nil => exact ⟨first, Function.update_self .., trivial⟩
    | cons b l =>
      rw [List.getLast?_cons_cons]
      refine ⟨first, ?_, ih others distinct⟩
      rw [relink_of_ne, second]
      · rfl
      · intro last
        exact fresh (List.mem_of_getLast? last)

theorem Segment.skip {p q : Option α} {a : α} {l l' : List α}
    (segment : Segment next previous p (l ++ a :: l') q) (distinct : (l ++ a :: l').Nodup) :
    Segment (relink next l.getLast? (l'.head?.or q)) (relink previous l'.head? (l.getLast?.or p)) p
      (l ++ l') q := by
  obtain ⟨before, -, -, behind⟩ := (segment_append l (a :: l')).mp segment
  obtain ⟨distinct, distinct', apart⟩ := List.nodup_append.mp distinct
  rw [segment_append]
  refine ⟨(before.before distinct _).congr (fun _ _ => rfl) ?_,
    (behind.behind (List.nodup_cons.mp distinct').2 _).congr ?_ (fun _ _ => rfl)⟩
  · intro b member
    apply relink_of_ne
    intro first
    exact apart b member b (List.mem_cons_of_mem a (List.mem_of_head? first)) rfl
  · intro b member
    apply relink_of_ne
    intro last
    exact apart b (List.mem_of_getLast? last) b (List.mem_cons_of_mem a member) rfl

/-- A new node in front. -/
theorem Linked.push {head : Option α} {l : List α} (linked : Linked next previous head l)
    (distinct : l.Nodup) {a : α} (fresh : a ∉ l) :
    Linked (Function.update next a head)
      (relink (Function.update previous a none) head (some a)) (some a) (a :: l) := by
  have other : head ≠ some a := by
    rw [linked.head]
    intro first
    exact fresh (List.mem_of_head? first)
  refine ⟨rfl, ?_, ?_, ?_⟩
  · rw [relink_of_ne other, Function.update_self]
  · rw [Function.update_self, Option.or_none, linked.head]
  · rw [linked.head]
    refine (linked.nodes.congr ?_ ?_).behind distinct _
    · intro b member
      exact Function.update_of_ne (ne_of_mem_of_not_mem member fresh) ..
    · intro b member
      exact Function.update_of_ne (ne_of_mem_of_not_mem member fresh) ..

/-- A node is taken out. -/
theorem Linked.erase {head : Option α} {l : List α} (linked : Linked next previous head l)
    (distinct : l.Nodup) {a : α} (member : a ∈ l) :
    Linked (relink next (previous a) (next a)) (relink previous (next a) (previous a))
      (if head = some a then next a else head) (l.erase a) := by
  obtain ⟨l, l', fresh, rfl, erased⟩ := List.exists_erase_eq member
  obtain ⟨-, first, second, -⟩ := (segment_append l (a :: l')).mp linked.nodes
  rw [Option.or_none] at first second
  rw [erased, first, second]
  constructor
  · rw [linked.head]
    cases l with
    | nil => exact if_pos rfl
    | cons b l =>
      apply if_neg
      intro same
      exact fresh (List.mem_of_head? same)
  · have skipped := linked.nodes.skip distinct
    rwa [Option.or_none, Option.or_none] at skipped

end Haxe.Theory.LinkedChains
