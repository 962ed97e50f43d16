import Mathlib.Data.List.Nodup
import Haxe.Theory.Fuel

/-!
# Code with labels

A list of instructions with the places of labels in between. An execution goes on behind an
instruction or behind the place of a label, until it leaves the code or comes to its end.
-/

namespace Haxe.Theory.LabelledCode

/-- A place of a label, or an instruction. -/
inductive Item (L I : Type) where
  | here (l : L)
  | instr (i : I)
  deriving DecidableEq, Repr

/-- Where an instruction leads to. -/
inductive Next (L σ ρ : Type) where
  | fall (s : σ)
  | jump (l : L) (s : σ)
  | leave (r : ρ)

variable {L I σ ρ : Type}

def Item.placed : Item L I → Option L
  | .here l => some l
  | .instr _ => none

/-- The labels in the order of their places. -/
def places (code : List (Item L I)) : List L := code.filterMap Item.placed

@[simp] theorem places_here (l : L) (code : List (Item L I)) :
    places (.here l :: code) = l :: places code := rfl

@[simp] theorem places_instr (i : I) (code : List (Item L I)) :
    places (.instr i :: code) = places code := rfl

@[simp] theorem places_append (code code' : List (Item L I)) :
    places (code ++ code') = places code ++ places code' := List.filterMap_append

theorem places_flatMap {α : Type} (f : α → List (Item L I)) (as : List α) :
    places (as.flatMap f) = as.flatMap fun a => places (f a) := by
  induction as with
  | nil => rfl
  | cons a as ih => rw [List.flatMap_cons, List.flatMap_cons, places_append, ih]

/-- Parts that are told apart by a key have nothing in common. -/
theorem nodup_flatMap_of_keys {α β κ : Type} {f : α → List β} {as : List α} (keyOf : α → κ)
    (key : β → Option κ) (keys : (as.map keyOf).Nodup) (each : ∀ a ∈ as, (f a).Nodup)
    (keyed : ∀ a ∈ as, ∀ b ∈ f a, key b = some (keyOf a)) : (as.flatMap f).Nodup := by
  induction as with
  | nil => exact List.nodup_nil
  | cons a as ih =>
    rw [List.map_cons, List.nodup_cons] at keys
    rw [List.flatMap_cons, List.nodup_append]
    refine ⟨each a List.mem_cons_self, ih keys.2 (fun a member => each a (.tail _ member))
      (fun a member => keyed a (.tail _ member)), ?_⟩
    rintro b here b' there rfl
    obtain ⟨a', member, there⟩ := List.mem_flatMap.mp there
    have same := (keyed a List.mem_cons_self b here).symm.trans (keyed a' (.tail _ member) b there)
    apply keys.1
    rw [Option.some.inj same]
    exact List.mem_map_of_mem member

variable [DecidableEq L]

/-- The code behind the place of a label. -/
def behind (l : L) : List (Item L I) → Option (List (Item L I))
  | [] => none
  | .here l' :: code => if l' = l then some code else behind l code
  | .instr _ :: code => behind l code

theorem behind_of_not_mem {l : L} {front back : List (Item L I)} (none : l ∉ places front) :
    behind l (front ++ .here l :: back) = some back := by
  induction front with
  | nil => exact if_pos rfl
  | cons item front ih =>
    cases item with
    | here l' =>
      rw [places_here, List.mem_cons, not_or] at none
      rw [List.cons_append, behind, if_neg (Ne.symm none.1), ih none.2]
    | instr i => exact ih none

/-- Where no label has two places, every one of them is found. -/
theorem behind_eq {l : L} {front back : List (Item L I)}
    (once : (places (front ++ .here l :: back)).Nodup) :
    behind l (front ++ .here l :: back) = some back := by
  apply behind_of_not_mem
  rw [places_append, places_here] at once
  intro earlier
  exact (List.nodup_append.mp once).2.2 l earlier l List.mem_cons_self rfl

section Executions

variable (step : I → σ → Option (Next L σ ρ)) (finish : σ → ρ) (prog : List (Item L I))

/-- The execution of some code of a program; `none` when it is stuck. -/
@[grind =] def run : Nat → List (Item L I) → σ → Option ρ
  | 0, _, _ => none
  | _ + 1, [], s => some (finish s)
  | fuel + 1, .here _ :: code, s => run fuel code s
  | fuel + 1, .instr i :: code, s =>
    match step i s with
    | some (.fall s') => run fuel code s'
    | some (.jump l s') => (behind l prog).bind fun code' => run fuel code' s'
    | some (.leave r) => some r
    | none => none

/-- The execution comes to a result. -/
def Leads (code : List (Item L I)) (s : σ) (r : ρ) : Prop :=
  Settles (fun fuel => run step finish prog fuel code s) (some r)

end Executions

variable {step : I → σ → Option (Next L σ ρ)} {finish : σ → ρ} {prog code : List (Item L I)}
  {s s' : σ} {r r' : ρ}

namespace Leads

theorem unique (leads : Leads step finish prog code s r)
    (leads' : Leads step finish prog code s r') : r = r' :=
  Option.some.inj (Settles.unique leads leads')

theorem end_ : Leads step finish prog [] s (finish s) := Settles.done fun _ => rfl

theorem here (l : L) (rest : Leads step finish prog code s r) :
    Leads step finish prog (.here l :: code) s r :=
  Settles.succ (fun _ => rfl) rest

theorem fall {i : I} (falls : step i s = some (.fall s'))
    (rest : Leads step finish prog code s' r) : Leads step finish prog (.instr i :: code) s r :=
  Settles.succ (fun _ => by rw [run, falls]) rest

theorem jump {i : I} {l : L} {code' : List (Item L I)} (jumps : step i s = some (.jump l s'))
    (found : behind l prog = some code') (rest : Leads step finish prog code' s' r) :
    Leads step finish prog (.instr i :: code) s r :=
  Settles.succ (fun fuel => by
    rw [run, jumps]
    show (behind l prog).bind _ = _
    rw [found]
    rfl) rest

theorem leave {i : I} (leaves : step i s = some (.leave r)) :
    Leads step finish prog (.instr i :: code) s r :=
  Settles.done fun _ => by rw [run, leaves]

theorem not_of_stuck {i : I} (stuck : step i s = none) :
    ¬ Leads step finish prog (.instr i :: code) s r := by
  rintro ⟨enough, settled⟩
  have result : run step finish prog (enough + 1) (.instr i :: code) s = some r :=
    settled (enough + 1) (Nat.le_succ enough)
  rw [run, stuck] at result
  cases result

end Leads

end Haxe.Theory.LabelledCode
