import Haxe.Theory.StableSorting

/-!
# Merging runs from the bottom up

Lists that are ordered in runs of one length, and passes that merge neighbouring runs and so
double the length.
-/

namespace Haxe.Theory.MergedRuns

open StableSorting

variable {T : Type} {cmp : T → T → Int} {k n : Nat} {l l' : List T}

/-- Where the elements compare equal, those of the first list come first. -/
def merge (cmp : T → T → Int) (l l' : List T) : List T :=
  List.merge l l' fun x y => cmp x y ≤ 0

@[simp] theorem nil_merge (l : List T) : merge cmp [] l = l := List.nil_merge _

@[simp] theorem merge_nil (l : List T) : merge cmp l [] = l := List.merge_right _

theorem merge_first {x y : T} (less : cmp x y ≤ 0) :
    merge cmp (x :: l) (y :: l') = x :: merge cmp l (y :: l') :=
  List.cons_merge_cons_pos _ _ _ (decide_eq_true less)

theorem merge_second {x y : T} (greater : ¬cmp x y ≤ 0) :
    merge cmp (x :: l) (y :: l') = y :: merge cmp (x :: l) l' :=
  List.cons_merge_cons_neg _ _ _ (by simp [greater])

theorem length_merge (l l' : List T) : (merge cmp l l').length = l.length + l'.length :=
  List.length_merge ..

theorem merge_ordered (preorder : TotalPreorder cmp) (first : Ordered cmp l)
    (second : Ordered cmp l') : Ordered cmp (merge cmp l l') := by
  have trans : ∀ x y z, decide (cmp x y ≤ 0) = true → decide (cmp y z ≤ 0) = true →
      decide (cmp x z ≤ 0) = true := fun x y z less less' =>
    decide_eq_true (preorder.trans (of_decide_eq_true less) (of_decide_eq_true less'))
  have total : ∀ x y, (decide (cmp x y ≤ 0) || decide (cmp y x ≤ 0)) = true := by
    intro x y
    have := preorder.turns x y
    simp
    omega
  have sorted := List.pairwise_merge trans total l l' (first.imp decide_eq_true)
    (second.imp decide_eq_true)
  exact sorted.imp of_decide_eq_true

/-- What comes first of the second list is below all of the first one. -/
theorem merge_stably (preorder : TotalPreorder cmp) (first : Ordered cmp l) :
    Stably cmp (l ++ l') (merge cmp l l') := by
  induction l' generalizing l with
  | nil =>
    rw [merge_nil, List.append_nil]
    exact .refl l
  | cons y l' ih =>
    induction l with
    | nil =>
      rw [nil_merge]
      exact .refl _
    | cons x l ih' =>
      by_cases less : cmp x y ≤ 0
      · rw [merge_first less]
        exact (Stably.refl [x]).append (ih' (List.pairwise_cons.mp first).2)
      · rw [merge_second less]
        have under : Under cmp [y] (x :: l) := by
          intro y' member z inside
          have before : cmp y x < 0 := (preorder.turns y x).mpr (by omega)
          rw [List.mem_singleton.mp member]
          rcases List.mem_cons.mp inside with rfl | later
          · exact before
          · exact preorder.lt_of_lt_of_le before ((List.pairwise_cons.mp first).1 z later)
        have exchanged := (Stably.exchange preorder under).append (Stably.refl l')
        rw [List.append_assoc, List.append_assoc] at exchanged
        exact exchanged.trans ((Stably.refl [y]).append (ih first))

/-- A pass over a list with the number of its merges. -/
inductive Pass (cmp : T → T → Int) (k : Nat) : List T → List T → Nat → Prop where
  | nil : Pass cmp k [] [] 0
  | more {l rest : List T} {n : Nat} (some : l ≠ []) (later : Pass cmp k (l.drop (k + k)) rest n) :
    Pass cmp k l (merge cmp (l.take k) ((l.drop k).take k) ++ rest) (n + 1)

/-- The runs of a length are ordered; the last one may be shorter. -/
def Runs (cmp : T → T → Int) (k : Nat) (l : List T) : Prop :=
  ∀ i, Ordered cmp ((l.drop (i * k)).take k)

theorem runs_one (l : List T) : Runs cmp 1 l := by
  intro i
  have short : ((l.drop (i * 1)).take 1).length ≤ 1 := List.length_take_le ..
  match run : (l.drop (i * 1)).take 1, short with
  | [], _ => exact List.Pairwise.nil
  | [x], _ => exact List.pairwise_singleton _ x

theorem Runs.ordered (runs : Runs cmp k l) (short : l.length ≤ k) : Ordered cmp l := by
  have whole := runs 0
  rw [Nat.zero_mul, List.drop_zero, List.take_of_length_le short] at whole
  exact whole

theorem Runs.drop (runs : Runs cmp k l) : Runs cmp k (l.drop (k + k)) := by
  intro i
  have position : k + k + i * k = (i + 2) * k := by
    rw [Nat.add_mul]
    omega
  rw [List.drop_drop, position]
  exact runs (i + 2)

theorem take_two_runs (l : List T) :
    l.take k ++ (l.drop k).take k ++ l.drop (k + k) = l := by
  rw [← List.drop_drop, List.append_assoc, List.take_append_drop, List.take_append_drop]

theorem Pass.stably (preorder : TotalPreorder cmp) (pass : Pass cmp k l l' n)
    (runs : Runs cmp k l) : Stably cmp l l' := by
  induction pass with
  | nil => exact .refl []
  | @more l rest n some later ih =>
    have first := runs 0
    rw [Nat.zero_mul, List.drop_zero] at first
    have merged : Stably cmp (l.take k ++ (l.drop k).take k)
        (merge cmp (l.take k) ((l.drop k).take k)) := merge_stably preorder first
    have whole := merged.append (ih runs.drop)
    rw [take_two_runs] at whole
    exact whole

theorem Pass.short (pass : Pass cmp k l l' n) (few : n ≤ 1) : l.length ≤ k + k := by
  cases pass with
  | nil => exact Nat.zero_le _
  | more some later =>
    cases none : l.drop (k + k) with
    | nil => exact List.drop_eq_nil_iff.mp none
    | cons x rest =>
      rw [none] at later
      cases later
      omega

theorem Pass.long (pass : Pass cmp k l l' n) (many : ¬n ≤ 1) : k + k < l.length := by
  cases pass with
  | nil => omega
  | more some later =>
    by_contra short
    rw [List.drop_eq_nil_of_le (by omega)] at later
    cases later with
    | nil => omega
    | more none => exact none rfl

theorem Pass.eq_nil (pass : Pass cmp k [] l' n) : l' = [] := by
  cases pass with
  | nil => rfl
  | more some => exact absurd rfl some

/-- A pass doubles the length of the runs. -/
theorem Pass.runs (preorder : TotalPreorder cmp) (pass : Pass cmp k l l' n)
    (runs : Runs cmp k l) : Runs cmp (k + k) l' := by
  induction pass with
  | nil =>
    intro i
    rw [List.drop_nil, List.take_nil]
    exact List.Pairwise.nil
  | @more l rest n some later ih =>
    have first := runs 0
    have second := runs 1
    rw [Nat.zero_mul, List.drop_zero] at first
    rw [Nat.one_mul] at second
    have merged := merge_ordered preorder first second
    have length := @length_merge T cmp (l.take k) ((l.drop k).take k)
    rw [List.length_take, List.length_take, List.length_drop] at length
    intro i
    by_cases whole : k + k ≤ l.length
    · -- the merged runs are as long as a run of the pass
      have exact_ : (merge cmp (l.take k) ((l.drop k).take k)).length = k + k := by omega
      cases i with
      | zero =>
        rw [Nat.zero_mul, List.drop_zero, List.take_left' exact_]
        exact merged
      | succ i =>
        have position : (i + 1) * (k + k) = k + k + i * (k + k) := by
          rw [Nat.succ_mul, Nat.add_comm]
        rw [position, ← List.drop_drop, List.drop_left' exact_]
        exact ih runs.drop i
    · rw [List.drop_eq_nil_of_le (by omega)] at later
      rw [later.eq_nil, List.append_nil]
      exact (merged.sublist (List.drop_sublist _ _)).sublist (List.take_sublist _ _)

end Haxe.Theory.MergedRuns
