import Haxe.Source.Std.JsonScanning

/-!
# The text of a value

What `write` appends as a function of the nesting, for all values in whose objects no function
stands behind the last member that is printed; how far the other ones leave the nesting. The values
of JSON, and those in which zero occurs.
-/

namespace Haxe.Source.Json

open Theory Theory.InterruptedRuns

variable {F : Type}

section Values

mutual

/-- Built from null, booleans, integers of 32 bits, strings of scalar values, arrays and objects
with distinct names. -/
def Plain (p : Platform F) : Value F → Prop
  | .null => True
  | .bool _ => True
  | .int i => -2147483648 ≤ i ∧ i < 2147483648
  | .string s => p.encoding.WellFormed s
  | .array items => PlainItems p items
  | .object fields => (fields.map Prod.fst).Nodup ∧ PlainFields p fields
  | _ => False

def PlainItems (p : Platform F) : List (Value F) → Prop
  | [] => True
  | v :: rest => Plain p v ∧ PlainItems p rest

def PlainFields (p : Platform F) : List (List Nat × Value F) → Prop
  | [] => True
  | (name, v) :: rest => (p.encoding.WellFormed name ∧ Plain p v) ∧ PlainFields p rest

end

mutual

/-- Zero occurs in a string or in a name. -/
@[grind =] def Value.hasNul : Value F → Bool
  | .string s => s.contains 0
  | .array items => itemsHaveNul items
  | .object fields => fieldsHaveNul fields
  | _ => false

def itemsHaveNul : List (Value F) → Bool
  | [] => false
  | v :: rest => v.hasNul || itemsHaveNul rest

def fieldsHaveNul : List (List Nat × Value F) → Bool
  | [] => false
  | (name, v) :: rest => name.contains 0 || (v.hasNul || fieldsHaveNul rest)

end

/-- What `fieldsString` goes through. -/
def Value.members : Value F → Option (List (List Nat × Value F))
  | .object fields => some fields
  | .stringMap entries => some entries
  | .instance_ fields => some fields
  | _ => none

/-- `write` is called with the first value while the second one is written. -/
inductive Writes : Value F → Value F → Prop
  | self (v : Value F) : Writes v v
  | item {w v : Value F} {items : List (Value F)} : v ∈ items → Writes w v → Writes w (.array items)
  | member {w v holder : Value F} {name : List Nat} {fields : List (List Nat × Value F)} :
    holder.members = some fields → (name, v) ∈ fields → v.isFunction = false → Writes w v →
      Writes w holder

/-- The last field is printed, so that `fieldsString` closes what it has opened. -/
def closesLast (fields : List (List Nat × Value F)) : Bool :=
  fields.getLast?.any (fun field => !field.2.isFunction)

/-- The nesting begins at the first field that is printed. -/
def opensFirst (fields : List (List Nat × Value F)) : Bool :=
  fields.any (fun field => !field.2.isFunction)

/-- The level that `fieldsString` adds for good. -/
def leftOpen (fields : List (List Nat × Value F)) : Nat :=
  if opensFirst fields && !closesLast fields then 1 else 0

mutual

/-- How much deeper the nesting is behind a value than in front of it. -/
@[grind =] def unclosed : Value F → Nat
  | .array items => unclosedItems items
  | .object fields => unclosedFields fields + leftOpen fields
  | .stringMap entries => unclosedFields entries + leftOpen entries
  | .instance_ fields =>
    unclosedFields fields + leftOpen fields
  | _ => 0

def unclosedItems : List (Value F) → Nat
  | [] => 0
  | v :: rest => unclosed v + unclosedItems rest

def unclosedFields : List (List Nat × Value F) → Nat
  | [] => 0
  | (_, v) :: rest => unclosed v + unclosedFields rest

end

end Values

section Texts

variable (p : Platform F) (space : Option (List Nat))

/-- The end of the line and the indentation of the next one. -/
def gap (n : Nat) : List Nat :=
  match space with
  | none => []
  | some indent => '\n'.toNat :: (List.replicate n indent).flatten

mutual

/-- What is written for a value. -/
@[grind =] def text (n : Nat) : Value F → List Nat
  | .null => ascii "null"
  | .bool b => ascii (if b then "true" else "false")
  | .int i => decimal i
  | .string s => quote p s
  | .array items => '['.toNat :: itemsText n items ++ [']'.toNat]
  | .object fields => '{'.toNat :: fieldsText n fields ++ ['}'.toNat]
  | _ => []

/-- Between the brackets. -/
def itemsText (n : Nat) : List (Value F) → List Nat
  | [] => []
  | v :: rest =>
    gap space (n + 1) ++ text (n + 1) v ++
      (if rest.isEmpty then gap space n else ','.toNat :: itemsText n rest)

/-- Between the braces. -/
def fieldsText (n : Nat) : List (List Nat × Value F) → List Nat
  | [] => []
  | (name, v) :: rest =>
    gap space (n + 1) ++ quote p name ++ ':'.toNat :: (if space.isSome then [' '.toNat] else []) ++
      text (n + 1) v ++ (if rest.isEmpty then gap space n else ','.toNat :: fieldsText n rest)

end

mutual

/-- A value laid out at a depth: each element and each member that is printed begins a line that is
indented by its depth, and the closing bracket stands on a line that is indented like the one with
the opening bracket. -/
def laidOut (n : Nat) : Value F → List Nat
  | .unknown => ascii "\"???\""
  | .object fields => '{'.toNat :: laidFields n true fields ++ ['}'.toNat]
  | .int i => decimal i
  | .float f => if p.isFinite f then p.floatText f else ascii "null"
  | .function => ascii "\"<fun>\""
  | .string s => quote p s
  | .array items => '['.toNat :: laidItems n items ++ [']'.toNat]
  | .stringMap entries => '{'.toNat :: laidFields n true entries ++ ['}'.toNat]
  | .date s => quote p s
  | .instance_ fields => '{'.toNat :: laidFields n true fields ++ ['}'.toNat]
  | .enum_ index => decimal index
  | .bool b => ascii (if b then "true" else "false")
  | .null => ascii "null"

def laidItems (n : Nat) : List (Value F) → List Nat
  | [] => []
  | v :: rest =>
    gap space (n + 1) ++ laidOut (n + 1) v ++
      (if rest.isEmpty then gap space n else ','.toNat :: laidItems n rest)

/-- The members at the first one or behind another one. -/
@[grind =] def laidFields (n : Nat) (first : Bool) : List (List Nat × Value F) → List Nat
  | [] => if first then [] else gap space n
  | (name, v) :: rest =>
    if v.isFunction then laidFields n first rest
    else
      (if first then [] else [','.toNat]) ++ gap space (n + 1) ++ quote p name ++
        ':'.toNat :: (if space.isSome then [' '.toNat] else []) ++ laidOut (n + 1) v ++
          laidFields n false rest

end

end Texts

section Indentation

theorem padTo_eq (c : List Nat) (n : Nat) (positive : 0 < c.length) :
    ∀ turns k, n - k ≤ turns → k ≤ n →
      padTo c ((n : Int) * c.length) turns (List.replicate k c).flatten =
        (List.replicate n c).flatten := by
  intro turns
  induction turns with
  | zero =>
    intro k enough order
    obtain rfl : k = n := by omega
    rfl
  | succ turns ih =>
    intro k enough order
    have length : (List.replicate k c).flatten.length = k * c.length := by
      rw [List.length_flatten, List.map_replicate, List.sum_replicate_nat]
    unfold padTo
    rw [length]
    by_cases last : k = n
    · rw [last, if_neg (by rw [Int.natCast_mul]; exact Int.lt_irrefl _)]
    · have before : k < n := Nat.lt_of_le_of_ne order last
      have shorter : ((k * c.length : Nat) : Int) < (n : Int) * c.length := by
        rw [← Int.natCast_mul, Int.ofNat_lt]
        exact Nat.mul_lt_mul_of_pos_right before positive
      have longer : (List.replicate k c).flatten ++ c = (List.replicate (k + 1) c).flatten := by
        rw [List.replicate_succ', List.flatten_append, List.flatten_singleton]
      rw [if_pos shorter, longer]
      exact ih (k + 1) (by omega) before

theorem lpad_eq (indent : List Nat) (n : Nat) :
    lpad [] indent ((n : Int) * indent.length) = (List.replicate n indent).flatten := by
  unfold lpad
  by_cases empty : indent.length = 0
  · rw [if_pos empty, List.length_eq_zero_iff.mp empty]
    simp
  · have positive := Nat.pos_of_ne_zero empty
    have turns : n ≤ ((n : Int) * indent.length - ([] : List Nat).length).toNat := by
      rw [List.length_nil, Int.natCast_zero, Int.sub_zero, ← Int.natCast_mul, Int.toNat_natCast]
      exact Nat.le_mul_of_pos_right n positive
    have padded := padTo_eq indent n positive _ 0 turns (Nat.zero_le n)
    rw [if_neg empty, List.append_nil, List.length_nil, Int.natCast_zero, Int.sub_zero]
    rw [List.length_nil, Int.natCast_zero, Int.sub_zero] at padded
    exact padded

variable {space : Option (List Nat)}

theorem line_eq (buf : List Nat) (n : Nat) :
    Printing.line space ⟨buf, n⟩ = ⟨buf ++ gap space n, n⟩ := by
  unfold Printing.line gap
  cases space with
  | none => rw [List.append_nil]
  | some indent =>
    simp only []
    rw [lpad_eq]
    rfl

end Indentation

section Nesting

variable (p : Platform F) (space : Option (List Nat))

theorem line_nind (s : Printing) : (s.line space).nind = s.nind := by
  unfold Printing.line
  cases space with
  | none => rfl
  | some indent => rfl

theorem closesLast_cons (field : List Nat × Value F) (rest : List (List Nat × Value F)) :
    closesLast (field :: rest) =
      if rest.isEmpty then !field.2.isFunction else closesLast rest := by
  unfold closesLast
  cases rest with
  | nil => rfl
  | cons next rest => rw [List.getLast?_cons_cons]; rfl

theorem opensFirst_of_closesLast {fields : List (List Nat × Value F)}
    (closes : closesLast fields = true) : opensFirst fields = true := by
  unfold closesLast at closes
  obtain ⟨last, eq, shown⟩ := (Option.any_eq_true ..).mp closes
  exact List.any_eq_true.mpr ⟨last, List.mem_of_getLast? eq, shown⟩

theorem leftOpen_eq (fields : List (List Nat × Value F)) :
    (leftOpen fields : Int) =
      (if opensFirst fields then 1 else 0) - if closesLast fields then 1 else 0 := by
  have opens := @opensFirst_of_closesLast _ fields
  unfold leftOpen
  cases closes : closesLast fields with
  | true => rw [opens closes]; rfl
  | false => cases opensFirst fields <;> rfl

theorem leftOpen_eq_zero_iff (fields : List (List Nat × Value F)) :
    leftOpen fields = 0 ↔ (opensFirst fields = true → closesLast fields = true) := by
  unfold leftOpen
  cases opensFirst fields <;> cases closesLast fields <;> decide

theorem unclosed_members {v : Value F} {fields : List (List Nat × Value F)}
    (members : v.members = some fields) :
    unclosed v = unclosedFields fields + leftOpen fields := by
  cases v with
  | object own => rw [← Option.some.inj members]; rfl
  | stringMap own => rw [← Option.some.inj members]; rfl
  | instance_ own => rw [← Option.some.inj members]; rfl
  | _ => exact nomatch members

theorem isFunction_unclosed {v : Value F} (skipped : v.isFunction = true) : unclosed v = 0 := by
  cases v with
  | function => rfl
  | _ => exact absurd skipped Bool.false_ne_true

theorem add_nind (t : List Nat) (s : Printing) : (s.add t).nind = s.nind := rfl

theorem opened_nind (first : Bool) (s : Printing) :
    (if first then s.nest 1 else s.add [','.toNat]).nind = s.nind + if first then 1 else 0 := by
  cases first with
  | true => rfl
  | false => exact (Int.add_zero s.nind).symm

theorem closed_nind (last : Bool) (s : Printing) :
    (if last then (s.nest (-1)).line space else s).nind = s.nind - if last then 1 else 0 := by
  cases last with
  | true => exact line_nind space (s.nest (-1))
  | false => exact (Int.sub_zero s.nind).symm

theorem spaced_nind (s : Printing) :
    (if space.isSome then s.add [' '.toNat] else s).nind = s.nind := by
  cases space with
  | none => rfl
  | some indent => rfl

variable {p space} in
theorem braces_nind {fields : List (List Nat × Value F)} {s : Printing}
    (written : (writeFields p space true fields (s.add ['{'.toNat])).nind =
      (s.add ['{'.toNat]).nind + unclosedFields fields +
        (if true && opensFirst fields then 1 else 0) - if closesLast fields then 1 else 0) :
    ((writeFields p space true fields (s.add ['{'.toNat])).add ['}'.toNat]).nind =
      s.nind + (unclosedFields fields + leftOpen fields : Nat) := by
  have leftOpen := leftOpen_eq fields
  rw [add_nind, written, Bool.true_and, add_nind]
  omega

mutual

theorem write_nind (v : Value F) (s : Printing) :
    (write p space v s).nind = s.nind + unclosed v := by
  cases v with
  | array items =>
    have written := writeItems_nind true items (s.add ['['.toNat])
    unfold write unclosed
    simpa [add_nind] using written
  | object fields =>
    unfold write unclosed
    exact braces_nind (writeFields_nind true fields _)
  | stringMap entries =>
    unfold write unclosed
    exact braces_nind (writeFields_nind true entries _)
  | instance_ fields =>
    unfold write unclosed
    exact braces_nind (writeFields_nind true fields _)
  | _ => exact (Int.add_zero s.nind).symm

theorem writeItems_nind (first : Bool) (items : List (Value F)) (s : Printing) :
    (writeItems p space first items s).nind =
      s.nind + unclosedItems items - if first || items.isEmpty then 0 else 1 := by
  cases items with
  | nil => simp [writeItems, unclosedItems]
  | cons v rest =>
    have head := write_nind v
    have tail := writeItems_nind false rest
    unfold writeItems unclosedItems
    simp only [tail, closed_nind, head, line_nind, opened_nind, Bool.false_or, List.isEmpty_cons,
      Bool.or_false]
    cases first <;> cases rest.isEmpty <;> simp <;> omega

theorem writeFields_nind (first : Bool) (fields : List (List Nat × Value F)) (s : Printing) :
    (writeFields p space first fields s).nind =
      s.nind + unclosedFields fields + (if first && opensFirst fields then 1 else 0) -
        if closesLast fields then 1 else 0 := by
  cases fields with
  | nil => simp [writeFields, unclosedFields, opensFirst, closesLast]
  | cons field rest =>
    obtain ⟨name, v⟩ := field
    have head := write_nind v
    have tail := fun first => writeFields_nind first rest
    have opens : opensFirst ((name, v) :: rest) = (!v.isFunction || opensFirst rest) := rfl
    have none : rest.isEmpty = true → closesLast rest = false := by
      intro empty
      rw [List.isEmpty_iff.mp empty]
      rfl
    unfold writeFields unclosedFields
    rw [closesLast_cons, opens]
    cases shown : v.isFunction with
    | true =>
      have skipped := isFunction_unclosed shown
      simp only [↓reduceIte, tail, Bool.not_true, Bool.false_or]
      cases empty : rest.isEmpty with
      | true => simp [none empty, skipped]
      | false => simp [skipped]
    | false =>
      simp only [Bool.false_eq_true, ↓reduceIte, tail, closed_nind, head, spaced_nind, add_nind,
        line_nind, opened_nind, Bool.not_false, Bool.true_or, Bool.and_true, Bool.false_and]
      cases empty : rest.isEmpty with
      | true => simp [none empty]; omega
      | false => simp; omega

end

theorem unclosed_le_items {v : Value F} {items : List (Value F)} (member : v ∈ items) :
    unclosed v ≤ unclosedItems items := by
  induction items with
  | nil => exact nomatch member
  | cons first rest ih =>
    unfold unclosedItems
    rcases List.mem_cons.mp member with rfl | behind
    · omega
    · have := ih behind
      omega

theorem unclosed_le_fields {name : List Nat} {v : Value F} {fields : List (List Nat × Value F)}
    (member : (name, v) ∈ fields) : unclosed v ≤ unclosedFields fields := by
  induction fields with
  | nil => exact nomatch member
  | cons first rest ih =>
    unfold unclosedFields
    rcases List.mem_cons.mp member with rfl | behind
    · exact Nat.le_add_right _ _
    · have := ih behind
      omega

/-- A call of `write` inside another one adds no more levels for good than that one. -/
theorem unclosed_le {w v : Value F} (writes : Writes w v) : unclosed w ≤ unclosed v := by
  induction writes with
  | self => exact Nat.le_refl _
  | item member writes ih => exact Nat.le_trans ih (unclosed_le_items member)
  | member eq member shown writes ih =>
    have part := unclosed_le_fields member
    have whole := unclosed_members eq
    omega

/-- If `fieldsString` prints a field, then it prints the last one. -/
def Closing (v : Value F) : Prop :=
  ∀ fields, v.members = some fields → opensFirst fields = true → closesLast fields = true

mutual

theorem unclosed_zero (v : Value F) (closing : ∀ w, Writes w v → Closing w) : unclosed v = 0 := by
  have members : ∀ fields, v.members = some fields → unclosedFields fields = 0 →
      unclosed v = 0 := by
    intro fields eq inner
    rw [unclosed_members eq, inner,
      (leftOpen_eq_zero_iff fields).mpr (closing v (.self v) fields eq)]
  cases v with
  | array items =>
    exact unclosedItems_zero items (fun v member w writes => closing w (.item member writes))
  | object fields =>
    exact members fields rfl (unclosedFields_zero fields
      (fun field member shown w writes => closing w (.member rfl member shown writes)))
  | stringMap fields =>
    exact members fields rfl (unclosedFields_zero fields
      (fun field member shown w writes => closing w (.member rfl member shown writes)))
  | instance_ fields =>
    exact members fields rfl (unclosedFields_zero fields
      (fun field member shown w writes => closing w (.member rfl member shown writes)))
  | _ => rfl

theorem unclosedItems_zero (items : List (Value F))
    (closing : ∀ v ∈ items, ∀ w, Writes w v → Closing w) : unclosedItems items = 0 := by
  cases items with
  | nil => rfl
  | cons v rest =>
    have head := unclosed_zero v (closing v (List.mem_cons_self ..))
    have tail := unclosedItems_zero rest
      (fun w member => closing w (List.mem_cons_of_mem _ member))
    exact Nat.add_eq_zero_iff.mpr ⟨head, tail⟩

theorem unclosedFields_zero (fields : List (List Nat × Value F))
    (closing : ∀ field ∈ fields, field.2.isFunction = false →
      ∀ w, Writes w field.2 → Closing w) : unclosedFields fields = 0 := by
  cases fields with
  | nil => rfl
  | cons field rest =>
    have tail := unclosedFields_zero rest
      (fun next member => closing next (List.mem_cons_of_mem _ member))
    have head : unclosed field.2 = 0 := by
      cases shown : field.2.isFunction with
      | true => exact isFunction_unclosed shown
      | false => exact unclosed_zero field.2 (closing field (List.mem_cons_self ..) shown)
    exact Nat.add_eq_zero_iff.mpr ⟨head, tail⟩

end

theorem unclosed_eq_zero_iff (v : Value F) :
    unclosed v = 0 ↔ ∀ w, Writes w v → Closing w := by
  constructor
  · intro closed w writes fields eq
    have inner := unclosed_le writes
    have whole := unclosed_members eq
    exact (leftOpen_eq_zero_iff fields).mp (by omega)
  · exact unclosed_zero v

end Nesting

section Written

variable {p : Platform F} {space : Option (List Nat)}

theorem add_mk (more buf : List Nat) (n : Int) :
    Printing.add more ⟨buf, n⟩ = ⟨buf ++ more, n⟩ := rfl

/-- In front of an element: the nesting begins, or a comma follows the one before. -/
theorem opened_eq (first : Bool) (buf : List Nat) (n : Nat) :
    (if first then Printing.nest 1 ⟨buf, if first then n else n + 1⟩
      else ⟨buf ++ [','.toNat], if first then n else n + 1⟩) =
      ⟨buf ++ (if first then [] else [','.toNat]), ((n + 1 : Nat) : Int)⟩ := by
  cases first with
  | true => exact Printing.mk.injEq .. ▸ ⟨(List.append_nil buf).symm, rfl⟩
  | false => rfl

theorem closed_eq (last : Bool) (buf : List Nat) (n : Nat) :
    (if last then (Printing.nest (-1) ⟨buf, ((n + 1 : Nat) : Int)⟩).line space
      else ⟨buf, ((n + 1 : Nat) : Int)⟩) =
      ⟨buf ++ (if last then gap space n else []), if last then (n : Int) else n + 1⟩ := by
  cases last with
  | true =>
    have nested : Printing.nest (-1) ⟨buf, ((n + 1 : Nat) : Int)⟩ = ⟨buf, (n : Int)⟩ := by
      unfold Printing.nest
      rw [Printing.mk.injEq]
      refine ⟨rfl, ?_⟩
      show ((n + 1 : Nat) : Int) + -1 = n
      omega
    simp only [↓reduceIte]
    rw [nested, line_eq]
  | false =>
    simp only [Bool.false_eq_true, ↓reduceIte, List.append_nil]
    rfl

theorem spaced_eq (buf : List Nat) (n : Int) :
    (if space.isSome then (⟨buf ++ [' '.toNat], n⟩ : Printing) else ⟨buf, n⟩) =
      ⟨buf ++ (if space.isSome then [' '.toNat] else []), n⟩ := by
  cases space with
  | none => exact (Printing.mk.injEq .. ▸ ⟨(List.append_nil buf).symm, rfl⟩)
  | some indent => rfl

mutual

/-- `write` appends the laid out value where the nesting is restored. -/
theorem write_laidOut (v : Value F) (closed : unclosed v = 0) (buf : List Nat) (n : Nat) :
    write p space v ⟨buf, n⟩ = ⟨buf ++ laidOut p space n v, n⟩ := by
  have braces : ∀ fields : List (List Nat × Value F),
      writeFields p space true fields ⟨buf ++ ['{'.toNat], n⟩ =
        ⟨buf ++ ['{'.toNat] ++ laidFields p space n true fields, n⟩ →
      Printing.add ['}'.toNat]
        (writeFields p space true fields (Printing.add ['{'.toNat] ⟨buf, n⟩)) =
        ⟨buf ++ ('{'.toNat :: laidFields p space n true fields ++ ['}'.toNat]), n⟩ := by
    intro fields written
    rw [add_mk ['{'.toNat] buf n, written, add_mk, List.append_assoc, List.append_assoc]
    rfl
  have closes : ∀ {fields : List (List Nat × Value F)}, leftOpen fields = 0 →
      true = false ∨ opensFirst fields = true → closesLast fields = true := by
    intro fields closed opens
    exact (leftOpen_eq_zero_iff fields).mp closed (opens.resolve_left Bool.noConfusion)
  cases v with
  | array items =>
    have written := writeItems_laidOut true items closed (buf ++ ['['.toNat]) n
      Bool.noConfusion
    simp only [↓reduceIte, List.append_nil] at written
    unfold write laidOut
    simp only [add_mk, written, List.append_assoc, List.cons_append, List.nil_append]
  | object fields =>
    have parts := Nat.add_eq_zero_iff.mp closed
    exact braces fields (writeFields_laidOut true fields parts.1 _ n (closes parts.2))
  | stringMap fields =>
    have parts := Nat.add_eq_zero_iff.mp closed
    exact braces fields (writeFields_laidOut true fields parts.1 _ n (closes parts.2))
  | instance_ fields =>
    have parts := Nat.add_eq_zero_iff.mp closed
    exact braces fields (writeFields_laidOut true fields parts.1 _ n (closes parts.2))
  | _ => rfl

/-- The loop over the elements, at the first one or behind another one. -/
theorem writeItems_laidOut (first : Bool) (items : List (Value F))
    (closed : unclosedItems items = 0) (buf : List Nat) (n : Nat)
    (more : first = false → items ≠ []) :
    writeItems p space first items ⟨buf, if first then n else n + 1⟩ =
      ⟨buf ++ (if first then [] else [','.toNat]) ++ laidItems p space n items, n⟩ := by
  cases items with
  | nil =>
    cases first with
    | true => simp [writeItems, laidItems]
    | false => exact absurd rfl (more rfl)
  | cons v rest =>
    have parts := Nat.add_eq_zero_iff.mp closed
    have head := fun buf => write_laidOut v parts.1 buf (n + 1)
    have tail := fun buf more => writeItems_laidOut false rest parts.2 buf n more
    unfold writeItems laidItems
    simp only [add_mk, opened_eq, line_eq, head, closed_eq]
    cases rest with
    | nil => simp [writeItems]
    | cons w rest =>
      simp only [Bool.false_eq_true, ↓reduceIte] at tail
      simp only [List.isEmpty_cons, Bool.false_eq_true, ↓reduceIte, List.append_nil]
      rw [tail _ (fun _ => List.cons_ne_nil _ _)]
      simp only [List.append_assoc, List.singleton_append]

/-- The loop over the fields, whose last one is printed where one is printed at all. -/
theorem writeFields_laidOut (first : Bool) (fields : List (List Nat × Value F))
    (closed : unclosedFields fields = 0) (buf : List Nat) (n : Nat)
    (closes : first = false ∨ opensFirst fields = true → closesLast fields = true) :
    writeFields p space first fields ⟨buf, if first then n else n + 1⟩ =
      ⟨buf ++ laidFields p space n first fields, n⟩ := by
  cases fields with
  | nil =>
    cases first with
    | true => simp [writeFields, laidFields]
    | false => exact absurd (closes (.inl rfl)) Bool.false_ne_true
  | cons field rest =>
    obtain ⟨name, v⟩ := field
    have parts := Nat.add_eq_zero_iff.mp closed
    have head := fun buf => write_laidOut v parts.1 buf (n + 1)
    have tail := fun first buf closes => writeFields_laidOut first rest parts.2 buf n closes
    have opens : opensFirst ((name, v) :: rest) = (!v.isFunction || opensFirst rest) := rfl
    rw [closesLast_cons, opens] at closes
    unfold writeFields laidFields
    cases shown : v.isFunction with
    | true =>
      have behind : first = false ∨ opensFirst rest = true → closesLast rest = true := by
        intro asked
        rw [shown] at closes
        cases empty : rest.isEmpty with
        | true =>
          rw [empty] at closes
          exact absurd (closes asked) Bool.false_ne_true
        | false =>
          rw [empty] at closes
          exact closes asked
      simp only [↓reduceIte]
      exact tail first buf behind
    | false =>
      have closes := closes (.inr (by rw [shown]; rfl))
      simp only [Bool.false_eq_true, ↓reduceIte, add_mk, opened_eq, line_eq, spaced_eq, head,
        closed_eq]
      cases rest with
      | nil => simp [writeFields, laidFields]
      | cons next rest =>
        have tail := tail false
        simp only [Bool.false_eq_true, ↓reduceIte] at tail
        simp only [List.isEmpty_cons, Bool.false_eq_true, ↓reduceIte, List.append_nil] at closes ⊢
        rw [tail _ (fun _ => closes)]
        simp only [List.append_assoc, List.cons_append, List.nil_append]

end

theorem print_laidOut {v : Value F} (closed : unclosed v = 0) :
    print p space v = laidOut p space 0 v := by
  unfold print
  exact congrArg Printing.buf (write_laidOut v closed [] 0)

end Written

section Plain

variable {p : Platform F} {space : Option (List Nat)}

theorem isFunction_plain {v : Value F} (plain : Plain p v) : v.isFunction = false := by
  cases v with
  | function => exact plain.elim
  | _ => rfl

theorem isFunction_plainFields {fields : List (List Nat × Value F)} (plain : PlainFields p fields) :
    ∀ field ∈ fields, field.2.isFunction = false := by
  induction fields with
  | nil => exact fun field member => nomatch member
  | cons first rest ih =>
    intro field member
    rcases List.mem_cons.mp member with rfl | behind
    · exact isFunction_plain plain.1.2
    · exact ih plain.2 field behind

theorem leftOpen_plain {fields : List (List Nat × Value F)} (plain : PlainFields p fields) :
    leftOpen fields = 0 := by
  have shown := isFunction_plainFields plain
  unfold leftOpen closesLast
  cases eq : fields.getLast? with
  | none => rw [List.getLast?_eq_none_iff.mp eq]; rfl
  | some last => rw [Option.any_some, shown last (List.mem_of_getLast? eq), Bool.not_false,
      Bool.not_true, Bool.and_false]; rfl

mutual

theorem unclosed_plain (v : Value F) (plain : Plain p v) : unclosed v = 0 := by
  cases v with
  | array items => exact unclosedItems_plain items plain
  | object fields =>
    exact Nat.add_eq_zero_iff.mpr ⟨unclosedFields_plain fields plain.2, leftOpen_plain plain.2⟩
  | stringMap entries => exact plain.elim
  | instance_ fields => exact plain.elim
  | _ => rfl

theorem unclosedItems_plain (items : List (Value F)) (plain : PlainItems p items) :
    unclosedItems items = 0 := by
  cases items with
  | nil => rfl
  | cons v rest =>
    exact Nat.add_eq_zero_iff.mpr ⟨unclosed_plain v plain.1, unclosedItems_plain rest plain.2⟩

theorem unclosedFields_plain (fields : List (List Nat × Value F)) (plain : PlainFields p fields) :
    unclosedFields fields = 0 := by
  cases fields with
  | nil => rfl
  | cons field rest =>
    exact Nat.add_eq_zero_iff.mpr
      ⟨unclosed_plain field.2 plain.1.2, unclosedFields_plain rest plain.2⟩

end

mutual

theorem laidOut_plain (v : Value F) (plain : Plain p v) (n : Nat) :
    laidOut p space n v = text p space n v := by
  cases v with
  | null => rfl
  | bool b => rfl
  | int i => rfl
  | string s => rfl
  | array items =>
    unfold laidOut text
    rw [laidItems_plain items plain]
  | object fields =>
    unfold laidOut text
    rw [laidFields_plain true fields plain.2 n Bool.noConfusion]
    rfl
  | _ => exact plain.elim

theorem laidItems_plain (items : List (Value F)) (plain : PlainItems p items) (n : Nat) :
    laidItems p space n items = itemsText p space n items := by
  cases items with
  | nil => rfl
  | cons v rest =>
    unfold laidItems itemsText
    rw [laidOut_plain v plain.1, laidItems_plain rest plain.2]

theorem laidFields_plain (first : Bool) (fields : List (List Nat × Value F))
    (plain : PlainFields p fields) (n : Nat) (more : first = false → fields ≠ []) :
    laidFields p space n first fields =
      (if first then [] else [','.toNat]) ++ fieldsText p space n fields := by
  cases fields with
  | nil =>
    cases first with
    | true => rfl
    | false => exact absurd rfl (more rfl)
  | cons field rest =>
    obtain ⟨name, v⟩ := field
    unfold laidFields fieldsText
    rw [isFunction_plain plain.1.2, laidOut_plain v plain.1.2]
    cases rest with
    | nil => simp [laidFields]
    | cons next rest =>
      rw [laidFields_plain false (next :: rest) plain.2 n (fun _ => List.cons_ne_nil _ _)]
      simp

end

theorem print_eq {v : Value F} (plain : Plain p v) : print p space v = text p space 0 v := by
  rw [print_laidOut (unclosed_plain v plain), laidOut_plain v plain]

end Plain

end Haxe.Source.Json
