import Mathlib.Data.List.Basic

/-!
# Texts among other items

The content of a document mixes texts with other items. Texts that follow each other are one text,
and an empty one is none.
-/

namespace Haxe.Theory

/-- Items of which some are texts. -/
structure Texts (τ α : Type) where
  view : α → Option (List τ)
  make : List τ → α
  view_make : ∀ t, view (make t) = some t
  make_view : ∀ {x t}, view x = some t → x = make t

namespace Texts

variable {τ α : Type} (texts : Texts τ α)

/-- A text as an item, unless it is empty. -/
def part (t : List τ) : List α := if t.isEmpty then [] else [texts.make t]

/-- The items behind a text that is not finished. -/
@[grind =] def merge : List α → List τ → List α
  | [], t => texts.part t
  | x :: xs, t =>
    match texts.view x with
    | some s => merge xs (t ++ s)
    | none => texts.part t ++ x :: merge xs []

/-- The merged items to the last one that is no text. -/
@[grind =] def front : List α → List τ → List α
  | [], _ => []
  | x :: xs, t =>
    match texts.view x with
    | some s => front xs (t ++ s)
    | none => texts.part t ++ x :: front xs []

/-- The text behind the last item that is no text. -/
@[grind =] def trailing : List α → List τ → List τ
  | [], t => t
  | x :: xs, t =>
    match texts.view x with
    | some s => trailing xs (t ++ s)
    | none => trailing xs []

/-- A function on the items that are no texts. -/
structure Keeps (f : α → α) : Prop where
  text : ∀ t, f (texts.make t) = texts.make t
  other : ∀ {x}, texts.view x = none → texts.view (f x) = none

variable {texts} {x : α} {xs : List α} {s t : List τ} {f g : α → α}

theorem merge_text (text : texts.view x = some s) :
    texts.merge (x :: xs) t = texts.merge xs (t ++ s) := by
  rw [merge]
  simp only [text]

theorem merge_other (other : texts.view x = none) :
    texts.merge (x :: xs) t = texts.part t ++ x :: texts.merge xs [] := by
  rw [merge]
  simp only [other]

theorem front_text (text : texts.view x = some s) :
    texts.front (x :: xs) t = texts.front xs (t ++ s) := by
  rw [front]
  simp only [text]

theorem front_other (other : texts.view x = none) :
    texts.front (x :: xs) t = texts.part t ++ x :: texts.front xs [] := by
  rw [front]
  simp only [other]

theorem trailing_text (text : texts.view x = some s) :
    texts.trailing (x :: xs) t = texts.trailing xs (t ++ s) := by
  rw [trailing]
  simp only [text]

theorem trailing_other (other : texts.view x = none) :
    texts.trailing (x :: xs) t = texts.trailing xs [] := by
  rw [trailing]
  simp only [other]

theorem part_nil : texts.part [] = [] := rfl

theorem part_of_ne (nonempty : t ≠ []) : texts.part t = [texts.make t] :=
  if_neg (fun empty => nonempty (List.isEmpty_iff.mp empty))

theorem front_cons (x : α) (xs : List α) (t : List τ) :
    texts.front (x :: xs) t = texts.front [x] t ++ texts.front xs (texts.trailing [x] t) := by
  cases view : texts.view x with
  | some s =>
    rw [front_text view, front_text view, trailing_text view]
    rfl
  | none =>
    rw [front_other view, front_other view, trailing_other view, List.append_assoc]
    rfl

theorem trailing_cons (x : α) (xs : List α) (t : List τ) :
    texts.trailing (x :: xs) t = texts.trailing xs (texts.trailing [x] t) := by
  cases view : texts.view x with
  | some s =>
    rw [trailing_text view, trailing_text view]
    rfl
  | none =>
    rw [trailing_other view, trailing_other view]
    rfl

theorem merge_eq (xs : List α) (t : List τ) :
    texts.merge xs t = texts.front xs t ++ texts.part (texts.trailing xs t) := by
  induction xs generalizing t with
  | nil => rfl
  | cons x xs ih =>
    cases view : texts.view x with
    | some s => rw [merge_text view, front_text view, trailing_text view, ih]
    | none =>
      rw [merge_other view, front_other view, trailing_other view, ih, List.append_assoc,
        List.cons_append]

theorem merge_part (s t : List τ) (xs : List α) :
    texts.merge (texts.part t ++ xs) s = texts.merge xs (s ++ t) := by
  by_cases empty : t = []
  · rw [empty, part_nil, List.nil_append, List.append_nil]
  · rw [part_of_ne empty, List.cons_append, List.nil_append, merge_text (texts.view_make t)]

theorem merge_front (xs : List α) (t : List τ) :
    texts.merge (texts.front xs t) [] = texts.front xs t := by
  induction xs generalizing t with
  | nil => rfl
  | cons x xs ih =>
    cases view : texts.view x with
    | some s => rw [front_text view, ih]
    | none => rw [front_other view, merge_part, List.nil_append, merge_other view, ih]

theorem merge_merge (xs : List α) (t : List τ) :
    texts.merge (texts.merge xs t) [] = texts.merge xs t := by
  induction xs generalizing t with
  | nil =>
    have alone : texts.merge (texts.part t ++ []) [] = texts.merge [] ([] ++ t) :=
      merge_part [] t []
    rwa [List.append_nil] at alone
  | cons x xs ih =>
    cases view : texts.view x with
    | some s => rw [merge_text view, ih]
    | none => rw [merge_other view, merge_part, List.nil_append, merge_other view, ih]

theorem front_eq_nil {xs : List α} {t : List τ} :
    texts.front xs t = [] ↔ ∀ x ∈ xs, texts.view x ≠ none := by
  induction xs generalizing t with
  | nil => exact ⟨fun _ => List.forall_mem_nil _, fun _ => rfl⟩
  | cons x xs ih =>
    rw [List.forall_mem_cons]
    cases view : texts.view x with
    | some s =>
      rw [front_text view, ih]
      exact ⟨fun rest => ⟨Option.some_ne_none s, rest⟩, And.right⟩
    | none =>
      rw [front_other view]
      constructor
      · intro empty
        exact absurd (List.append_eq_nil_iff.mp empty).2 (List.cons_ne_nil _ _)
      · intro all
        exact absurd rfl all.1

namespace Keeps

theorem map_part (keeps : texts.Keeps f) (t : List τ) :
    (texts.part t).map f = texts.part t := by
  by_cases empty : t = []
  · rw [empty]
    rfl
  · rw [part_of_ne empty, List.map_cons, keeps.text, List.map_nil]

theorem view_text (keeps : texts.Keeps f) (text : texts.view x = some s) :
    texts.view (f x) = some s := by
  rw [texts.make_view text, keeps.text, texts.view_make]

theorem map_merge (keeps : texts.Keeps f) (xs : List α) (t : List τ) :
    (texts.merge xs t).map f = texts.merge (xs.map f) t := by
  induction xs generalizing t with
  | nil => exact keeps.map_part t
  | cons x xs ih =>
    rw [List.map_cons]
    cases view : texts.view x with
    | some s => rw [merge_text view, merge_text (keeps.view_text view), ih]
    | none =>
      rw [merge_other view, merge_other (keeps.other view), List.map_append, keeps.map_part,
        List.map_cons, ih]

theorem map_front (keeps : texts.Keeps f) (xs : List α) (t : List τ) :
    (texts.front xs t).map f = texts.front (xs.map f) t := by
  induction xs generalizing t with
  | nil => rfl
  | cons x xs ih =>
    rw [List.map_cons]
    cases view : texts.view x with
    | some s => rw [front_text view, front_text (keeps.view_text view), ih]
    | none =>
      rw [front_other view, front_other (keeps.other view), List.map_append, keeps.map_part,
        List.map_cons, ih]

theorem trailing_map (keeps : texts.Keeps f) (xs : List α) (t : List τ) :
    texts.trailing (xs.map f) t = texts.trailing xs t := by
  induction xs generalizing t with
  | nil => rfl
  | cons x xs ih =>
    rw [List.map_cons]
    cases view : texts.view x with
    | some s => rw [trailing_text view, trailing_text (keeps.view_text view), ih]
    | none => rw [trailing_other view, trailing_other (keeps.other view), ih]

/-- Merging loses nothing of the other items. -/
theorem merge_map_iff (keeps : texts.Keeps f) (keeps' : texts.Keeps g) {xs : List α}
    {t : List τ} : texts.merge (xs.map f) t = texts.merge (xs.map g) t ↔ ∀ x ∈ xs, f x = g x := by
  induction xs generalizing t with
  | nil => exact ⟨fun _ => List.forall_mem_nil _, fun _ => rfl⟩
  | cons x xs ih =>
    rw [List.map_cons, List.map_cons, List.forall_mem_cons]
    cases view : texts.view x with
    | some s =>
      have same : f x = g x := by
        rw [texts.make_view view, keeps.text, keeps'.text]
      rw [merge_text (keeps.view_text view), merge_text (keeps'.view_text view), ih]
      exact ⟨fun rest => ⟨same, rest⟩, And.right⟩
    | none =>
      rw [merge_other (keeps.other view), merge_other (keeps'.other view),
        List.append_cancel_left_eq, List.cons.injEq, ih]

end Keeps

end Texts

end Haxe.Theory
