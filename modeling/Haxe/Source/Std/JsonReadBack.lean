import Haxe.Source.Std.JsonPrinted

/-!
# Reading what is printed: values

The parser on the text of a value, between what the printer puts around it.
-/

namespace Haxe.Source.Json

open Theory Theory.InterruptedRuns

variable {F : Type} {p : Platform F} {str rest : List Nat} {pos : Nat}

section Runs

/-- A call that may meet zero, and what goes on behind it. -/
theorem settles_bind {α β : Type} {f : Nat → Reading α} {g : Nat → Reading β}
    {whole : Nat → Reading β} {k : Nat → α → Reading β} {nul nul' : Bool} {a : α} {b : β}
    (first : Settles f (unlessNul p nul a)) (second : Settles g (unlessNul p nul' b))
    (unfolds : ∀ m, whole (m + 1) = (f m).bind (k m)) (goes : ∀ m, k m a = g m) :
    Settles whole (unlessNul p (nul || nul') b) := by
  apply Settles.step₂ first second
  intro m firstRun secondRun
  rw [unfolds, firstRun]
  by_cases stops : p.eofIsZero = true ∧ nul = true
  · rw [unlessNul_thrown stops.1 stops.2, stops.2, Bool.true_or, unlessNul_thrown stops.1 rfl]
    rfl
  · have inside : p.eofIsZero = true → nul = false :=
      fun zero => Bool.eq_false_iff.mpr (fun null => stops ⟨zero, null⟩)
    rw [unlessNul_returned inside]
    show k m a = _
    rw [goes, secondRun]
    unfold unlessNul
    cases zero : p.eofIsZero with
    | false => rfl
    | true => rw [inside zero, Bool.false_or]

theorem unlessNul_map {α β : Type} (nul : Bool) (a : α) (f : α → β) :
    (unlessNul p nul a).bind (fun a => .returned (f a)) = unlessNul p nul (f a) := by
  unfold unlessNul
  split <;> rfl

end Runs

section Spaces

/-- A loop that goes on behind a space goes on behind spaces. -/
theorem settles_spaces {α : Type} {f : Nat → Nat → Reading α} {ws : List Nat} {r : Reading α}
    (skips : ∀ {pos c rest}, str.drop pos = c :: rest → isSpace c = true →
      ∀ fuel, f (fuel + 1) pos = f fuel (pos + 1))
    (here : str.drop pos = ws ++ rest) (spaces : ∀ c ∈ ws, isSpace c = true)
    (continues : Settles (fun fuel => f fuel (pos + ws.length)) r) :
    Settles (fun fuel => f fuel pos) r := by
  induction ws generalizing pos with
  | nil => exact continues
  | cons c ws ih =>
    have next : pos + (c :: ws).length = pos + 1 + ws.length := by
      rw [List.length_cons]
      omega
    rw [next] at continues
    exact Settles.succ (skips here (spaces c (List.mem_cons_self ..)))
      (ih (drop_cons here) (fun c member => spaces c (List.mem_cons_of_mem _ member)) continues)

theorem parseRec_space {c : Nat} (here : str.drop pos = c :: rest) (space : isSpace c = true)
    (fuel : Nat) : parseRec p str (fuel + 1) pos = parseRec p str fuel (pos + 1) := by
  rw [parseRec, fastCodeAt_of_drop here]
  simp only [space, ↓reduceIte]

theorem parseArray_space {arr : List (Value F)} {comma : Option Bool} {c : Nat}
    (here : str.drop pos = c :: rest) (space : isSpace c = true) (fuel : Nat) :
    parseArray p str (fuel + 1) pos arr comma = parseArray p str fuel (pos + 1) arr comma := by
  rw [parseArray, fastCodeAt_of_drop here]
  simp only [space, ↓reduceIte]

theorem parseObject_space {obj : List (List Nat × Value F)} {field : Option (List Nat)}
    {comma : Option Bool} {c : Nat} (here : str.drop pos = c :: rest)
    (space : isSpace c = true) (fuel : Nat) :
    parseObject p str (fuel + 1) pos obj field comma =
      parseObject p str fuel (pos + 1) obj field comma := by
  rw [parseObject, fastCodeAt_of_drop here]
  simp only [space, ↓reduceIte]

variable {ws : List Nat} {r : Reading (Value F × Nat)}

theorem parseRec_spaces (here : str.drop pos = ws ++ rest) (spaces : ∀ c ∈ ws, isSpace c = true)
    (continues : Settles (fun fuel => parseRec p str fuel (pos + ws.length)) r) :
    Settles (fun fuel => parseRec p str fuel pos) r :=
  settles_spaces (f := parseRec p str) parseRec_space here spaces continues

theorem parseArray_spaces {arr : List (Value F)} {comma : Option Bool}
    (here : str.drop pos = ws ++ rest) (spaces : ∀ c ∈ ws, isSpace c = true)
    (continues : Settles (fun fuel => parseArray p str fuel (pos + ws.length) arr comma) r) :
    Settles (fun fuel => parseArray p str fuel pos arr comma) r :=
  settles_spaces (f := fun fuel pos => parseArray p str fuel pos arr comma) parseArray_space here
    spaces continues

theorem parseObject_spaces {obj : List (List Nat × Value F)} {field : Option (List Nat)}
    {comma : Option Bool} (here : str.drop pos = ws ++ rest)
    (spaces : ∀ c ∈ ws, isSpace c = true)
    (continues :
      Settles (fun fuel => parseObject p str fuel (pos + ws.length) obj field comma) r) :
    Settles (fun fuel => parseObject p str fuel pos obj field comma) r :=
  settles_spaces (f := fun fuel pos => parseObject p str fuel pos obj field comma)
    parseObject_space here spaces continues

end Spaces

section Punctuation

variable {arr : List (Value F)} {comma : Option Bool} {r : Reading (Value F × Nat)}
  {obj : List (List Nat × Value F)} {field : Option (List Nat)}

theorem parseArray_close (here : str.drop pos = ']'.toNat :: rest) (complete : comma ≠ some false)
    (fuel : Nat) : parseArray p str (fuel + 1) pos arr comma = .returned (.array arr, pos + 1) := by
  rw [parseArray, fastCodeAt_of_drop here]
  simp only []
  rw [if_neg (by decide), if_pos trivial, if_neg complete]

theorem parseArray_comma (here : str.drop pos = ','.toNat :: rest) (fuel : Nat) :
    parseArray p str (fuel + 1) pos arr (some true) =
      parseArray p str fuel (pos + 1) arr (some false) := by
  rw [parseArray, fastCodeAt_of_drop here]
  simp only []
  rw [if_neg (by decide), if_neg (by decide), if_pos trivial, if_pos trivial]

/-- A character that starts an element. -/
structure Starts (c : Nat) : Prop where
  space : isSpace c = false
  bracket : c ≠ ']'.toNat
  comma : c ≠ ','.toNat

theorem parseArray_item {c : Nat} (here : str.drop pos = c :: rest) (starts : Starts c)
    (expected : comma ≠ some true) (fuel : Nat) :
    parseArray p str (fuel + 1) pos arr comma =
      (parseRec p str fuel pos).bind
        (fun r => parseArray p str fuel r.2 (arr ++ [r.1]) (some true)) := by
  rw [parseArray, fastCodeAt_of_drop here]
  simp only [starts.space, Bool.false_eq_true, ↓reduceIte]
  rw [if_neg starts.bracket, if_neg starts.comma, if_neg expected]
  rfl

theorem parseObject_close (here : str.drop pos = '}'.toNat :: rest)
    (complete : comma ≠ some false) (fuel : Nat) :
    parseObject p str (fuel + 1) pos obj none comma = .returned (.object obj, pos + 1) := by
  have ends : ¬ ((none : Option (List Nat)).isSome = true ∨ comma = some false) :=
    not_or.mpr ⟨Bool.false_ne_true, complete⟩
  rw [parseObject, fastCodeAt_of_drop here]
  simp only []
  rw [if_neg (by decide), if_pos trivial, if_neg ends]

theorem parseObject_comma (here : str.drop pos = ','.toNat :: rest) (fuel : Nat) :
    parseObject p str (fuel + 1) pos obj field (some true) =
      parseObject p str fuel (pos + 1) obj field (some false) := by
  rw [parseObject, fastCodeAt_of_drop here]
  simp only []
  rw [if_neg (by decide), if_neg (by decide), if_neg (by decide), if_pos trivial, if_pos trivial]

theorem parseObject_name (here : str.drop pos = '"'.toNat :: rest) (expected : comma ≠ some true)
    (fuel : Nat) :
    parseObject p str (fuel + 1) pos obj none comma =
      (parseString p str fuel (pos + 1)).bind
        (fun r => parseObject p str fuel r.2 obj (some r.1) comma) := by
  have free : ¬ ((none : Option (List Nat)).isSome = true ∨ comma = some true) :=
    not_or.mpr ⟨Bool.false_ne_true, expected⟩
  rw [parseObject, fastCodeAt_of_drop here]
  simp only []
  rw [if_neg (by decide), if_neg (by decide), if_neg (by decide), if_neg (by decide), if_pos trivial,
    if_neg free]
  rfl

theorem parseObject_colon {name : List Nat} (here : str.drop pos = ':'.toNat :: rest)
    (fuel : Nat) :
    parseObject p str (fuel + 1) pos obj (some name) comma =
      (parseRec p str fuel (pos + 1)).bind
        (fun r => parseObject p str fuel r.2 (setField obj name r.1) none (some true)) := by
  rw [parseObject, fastCodeAt_of_drop here]
  simp only []
  rw [if_neg (by decide), if_neg (by decide), if_pos trivial]
  rfl

theorem parseRec_bracket (here : str.drop pos = '['.toNat :: rest) (fuel : Nat) :
    parseRec p str (fuel + 1) pos = parseArray p str fuel (pos + 1) [] none := by
  rw [parseRec, fastCodeAt_of_drop here]
  simp only []
  rw [if_neg (by decide), if_neg (by decide), if_pos trivial]

theorem parseRec_brace (here : str.drop pos = '{'.toNat :: rest) (fuel : Nat) :
    parseRec p str (fuel + 1) pos = parseObject p str fuel (pos + 1) [] none none := by
  rw [parseRec, fastCodeAt_of_drop here]
  simp only []
  rw [if_neg (by decide), if_pos trivial]

theorem parseRec_quote (here : str.drop pos = '"'.toNat :: rest) (fuel : Nat) :
    parseRec p str (fuel + 1) pos =
      (parseString p str fuel (pos + 1)).bind (fun r => .returned (.string r.1, r.2)) := by
  rw [parseRec, fastCodeAt_of_drop here]
  simp only []
  rw [if_neg (by decide), if_neg (by decide), if_neg (by decide), if_neg (by decide),
    if_neg (by decide), if_neg (by decide), if_pos trivial]
  rfl

/-- The characters that start a number start nothing else. -/
theorem isNumberStart_other {c : Nat} (number : isNumberStart c = true) :
    isSpace c = false ∧ ∀ c' : Nat, isNumberStart c' = false → c ≠ c' := by
  constructor
  · cases space : isSpace c with
    | false => rfl
    | true =>
      unfold isSpace at space
      simp only [Bool.or_eq_true, beq_iff_eq] at space
      obtain ((rfl | rfl) | rfl) | rfl := space
      all_goals exact absurd number (by decide)
  · rintro c' other rfl
    exact absurd number (by rw [other]; decide)

theorem parseRec_number {c : Nat} (here : str.drop pos = c :: rest)
    (number : isNumberStart c = true) (fuel : Nat) :
    parseRec p str (fuel + 1) pos = parseNumber p str fuel (pos + 1) c := by
  obtain ⟨space, other⟩ := isNumberStart_other number
  rw [parseRec, fastCodeAt_of_drop here]
  simp only [space, Bool.false_eq_true, ↓reduceIte]
  rw [if_neg (other _ (by decide)), if_neg (other _ (by decide)), if_neg (other _ (by decide)),
    if_neg (other _ (by decide)), if_neg (other _ (by decide)), if_neg (other _ (by decide)),
    if_pos number]

theorem parseWord_returned {word : List Nat} {v : Value F} (here : str.drop pos = word ++ rest) :
    parseWord p str pos word v = .returned (v, pos + word.length) := by
  unfold parseWord
  rw [if_pos (substr_of_drop here)]

theorem parseRec_true (here : str.drop pos = ascii "true" ++ rest) (fuel : Nat) :
    parseRec p str (fuel + 1) pos = .returned (.bool true, pos + 4) := by
  have behind : str.drop pos = 't'.toNat :: (ascii "rue" ++ rest) := here
  rw [parseRec, fastCodeAt_of_drop behind]
  simp only []
  rw [if_neg (by decide), if_neg (by decide), if_neg (by decide), if_pos trivial,
    parseWord_returned (drop_cons behind)]
  rfl

theorem parseRec_false (here : str.drop pos = ascii "false" ++ rest) (fuel : Nat) :
    parseRec p str (fuel + 1) pos = .returned (.bool false, pos + 5) := by
  have behind : str.drop pos = 'f'.toNat :: (ascii "alse" ++ rest) := here
  rw [parseRec, fastCodeAt_of_drop behind]
  simp only []
  rw [if_neg (by decide), if_neg (by decide), if_neg (by decide), if_neg (by decide), if_pos trivial,
    parseWord_returned (drop_cons behind)]
  rfl

theorem parseRec_null (here : str.drop pos = ascii "null" ++ rest) (fuel : Nat) :
    parseRec p str (fuel + 1) pos = .returned (.null, pos + 4) := by
  have behind : str.drop pos = 'n'.toNat :: (ascii "ull" ++ rest) := here
  rw [parseRec, fastCodeAt_of_drop behind]
  simp only []
  rw [if_neg (by decide), if_neg (by decide), if_neg (by decide), if_neg (by decide),
    if_neg (by decide), if_pos trivial, parseWord_returned (drop_cons behind)]
  rfl

end Punctuation

section Printed

variable {space : Option (List Nat)}

/-- White space of JSON. -/
def Blank (space : Option (List Nat)) : Prop := ∀ indent ∈ space, ∀ c ∈ indent, isSpace c = true

theorem gap_spaces (blank : Blank space) (n : Nat) : ∀ c ∈ gap space n, isSpace c = true := by
  intro c member
  unfold gap at member
  cases space with
  | none => exact nomatch member
  | some indent =>
    simp only [List.mem_cons, List.mem_flatten] at member
    obtain rfl | ⟨line, copy, inside⟩ := member
    · rfl
    · obtain ⟨-, rfl⟩ := List.mem_replicate.mp copy
      exact blank _ rfl c inside

/-- What a value starts with. -/
theorem text_first (space : Option (List Nat)) {v : Value F} (plain : Plain p v) (n : Nat) :
    ∃ c more, text p space n v = c :: more ∧ Starts c := by
  cases v with
  | null => exact ⟨_, _, rfl, by decide, by decide, by decide⟩
  | bool b => cases b <;> exact ⟨_, _, rfl, by decide, by decide, by decide⟩
  | int i =>
    have whole : (decimal i ++ []).drop 0 = decimal i ++ [] := rfl
    obtain ⟨c, more, -, eq, number, -⟩ :=
      numberLoop_decimal p 0 i whole (fun c member => nomatch member)
    have := isNumberStart_other number
    exact ⟨c, more, eq, this.1, this.2 _ (by decide), this.2 _ (by decide)⟩
  | string s => exact ⟨_, _, rfl, by decide, by decide, by decide⟩
  | array items => exact ⟨_, _, rfl, by decide, by decide, by decide⟩
  | object fields => exact ⟨_, _, rfl, by decide, by decide, by decide⟩
  | _ => exact plain.elim

/-- What stands behind an element. -/
theorem stops_behind {close : Nat} {more : List Nat} {last : Bool} (n : Nat)
    (ends : endsNumber close = true) :
    Stops ((if last then gap space n else ','.toNat :: more) ++ close :: rest) := by
  intro c member
  cases last with
  | false =>
    obtain rfl := Option.some.inj member
    rfl
  | true =>
    cases space with
    | none =>
      obtain rfl := Option.some.inj member
      exact ends
    | some indent =>
      obtain rfl := Option.some.inj member
      rfl

/-- The end of an array behind its last element. -/
theorem parseArray_last (blank : Blank space) {arr : List (Value F)} (n : Nat)
    (here : str.drop pos = gap space n ++ ']'.toNat :: rest) :
    Settles (fun fuel => parseArray p str fuel pos arr (some true))
      (.returned (.array arr, pos + (gap space n).length + 1)) := by
  apply parseArray_spaces here (gap_spaces blank n)
  exact Settles.done (parseArray_close (drop_append here) (by decide))

theorem parseObject_last (blank : Blank space) {obj : List (List Nat × Value F)} (n : Nat)
    (here : str.drop pos = gap space n ++ '}'.toNat :: rest) :
    Settles (fun fuel => parseObject p str fuel pos obj none (some true))
      (.returned (.object obj, pos + (gap space n).length + 1)) := by
  apply parseObject_spaces here (gap_spaces blank n)
  exact Settles.done (parseObject_close (drop_append here) (by decide))

theorem parseNumber_settles {c end_ : Nat} {s : NumberState} {v : Value F}
    (loop : Settles (fun fuel => numberLoop p str pos fuel (pos + 1) (firstNumberState c))
      (.returned (s, end_)))
    (value : numberValue p (substr str pos (end_ - pos)) s.point = v) :
    Settles (fun fuel => parseNumber p str fuel (pos + 1) c) (.returned (v, end_)) := by
  obtain ⟨n, settled⟩ := loop
  refine ⟨n, fun m more => ?_⟩
  unfold parseNumber
  rw [Nat.add_sub_cancel]
  have run : numberLoop p str pos m (pos + 1) (firstNumberState c) = .returned (s, end_) :=
    settled m more
  show Outcome.bind (numberLoop p str pos m (pos + 1) (firstNumberState c)) _ = _
  rw [run]
  exact congrArg (fun v => Outcome.returned (v, end_)) value

/-- A value behind the space that may follow a colon. -/
theorem parseRec_padded {r : Reading (Value F × Nat)}
    (here : str.drop pos = (if space.isSome then [' '.toNat] else []) ++ rest)
    (continues : Settles (fun fuel => parseRec p str fuel
      (pos + (if space.isSome then [' '.toNat] else []).length)) r) :
    Settles (fun fuel => parseRec p str fuel pos) r := by
  apply parseRec_spaces here ?_ continues
  intro c member
  split at member
  · rw [List.mem_singleton] at member
    rw [member]
    rfl
  · exact nomatch member

mutual

/-- A value behind a position. -/
theorem parseRec_text (exact_ : Exact p) (blank : Blank space) (v : Value F) (plain : Plain p v)
    (n pos : Nat) (rest : List Nat) (here : str.drop pos = text p space n v ++ rest)
    (stops : Stops rest) :
    Settles (fun fuel => parseRec p str fuel pos)
      (unlessNul p v.hasNul (v, pos + (text p space n v).length)) := by
  cases v with
  | null =>
    unfold Value.hasNul
    rw [unlessNul_false]
    exact Settles.done (parseRec_null here)
  | bool b =>
    unfold Value.hasNul
    rw [unlessNul_false]
    cases b with
    | true => exact Settles.done (parseRec_true here)
    | false => exact Settles.done (parseRec_false here)
  | int i =>
    unfold text at here ⊢
    unfold Value.hasNul
    obtain ⟨c, more, s, eq, number, point, loop⟩ :=
      numberLoop_decimal p pos i here stops
    have first : str.drop pos = c :: (more ++ rest) := by
      rw [here, eq]
      rfl
    have value : numberValue p (substr str pos (pos + (decimal i).length - pos)) s.point =
        .int i := by
      rw [Nat.add_sub_cancel_left, substr_of_drop here, point,
        numberValue_decimal exact_ plain.1 plain.2]
    rw [unlessNul_false]
    apply Settles.succ (parseRec_number first number)
    exact parseNumber_settles loop value
  | string s =>
    unfold text at here ⊢
    unfold Value.hasNul
    have read := parseString_quote plain here
    have first : str.drop pos = '"'.toNat :: _ := here
    apply Settles.step read
    intro m run
    rw [parseRec_quote first, run, unlessNul_map]
  | array items =>
    unfold text at here ⊢
    unfold Value.hasNul
    have first : str.drop pos = '['.toNat :: (itemsText p space n items ++ ']'.toNat :: rest) := by
      rw [here, List.append_assoc]
      rfl
    have read := parseArray_items exact_ blank items plain n (pos + 1) rest [] none
      (drop_cons first) (by decide) (fun _ => rfl)
    have behind : pos + 1 + (itemsText p space n items).length + 1 =
        pos + ('['.toNat :: itemsText p space n items ++ [']'.toNat]).length := by
      rw [List.length_append, List.length_cons, List.length_singleton]
      omega
    rw [List.nil_append, behind] at read
    exact Settles.succ (parseRec_bracket first) read
  | object fields =>
    unfold text at here ⊢
    unfold Value.hasNul
    have first : str.drop pos =
        '{'.toNat :: (fieldsText p space n fields ++ '}'.toNat :: rest) := by
      rw [here, List.append_assoc]
      rfl
    have read := parseObject_fields exact_ blank fields plain.2 n (pos + 1) rest [] none plain.1
      (drop_cons first) (by decide) (fun _ => rfl)
    have behind : pos + 1 + (fieldsText p space n fields).length + 1 =
        pos + ('{'.toNat :: fieldsText p space n fields ++ ['}'.toNat]).length := by
      rw [List.length_append, List.length_cons, List.length_singleton]
      omega
    rw [List.nil_append, behind] at read
    exact Settles.succ (parseRec_brace first) read
  | _ => exact plain.elim

/-- The elements of an array behind a bracket or a comma. -/
theorem parseArray_items (exact_ : Exact p) (blank : Blank space) (items : List (Value F))
    (plain : PlainItems p items) (n pos : Nat) (rest : List Nat) (arr : List (Value F))
    (comma : Option Bool)
    (here : str.drop pos = itemsText p space n items ++ ']'.toNat :: rest)
    (expected : comma ≠ some true) (complete : items = [] → comma = none) :
    Settles (fun fuel => parseArray p str fuel pos arr comma)
      (unlessNul p (itemsHaveNul items)
        (.array (arr ++ items), pos + (itemsText p space n items).length + 1)) := by
  cases items with
  | nil =>
    unfold itemsHaveNul
    rw [unlessNul_false, List.append_nil]
    exact Settles.done (parseArray_close here (by rw [complete rfl]; decide))
  | cons v rest' =>
    have head := parseRec_text exact_ blank v plain.1 (n + 1)
    have tail := parseArray_items exact_ blank rest' plain.2 n
    unfold itemsText at here ⊢
    rw [List.append_assoc, List.append_assoc] at here
    obtain ⟨c, more, first, starts⟩ := text_first space plain.1 (n + 1)
    have inside := drop_append here
    obtain ⟨others, first'⟩ : ∃ others,
        str.drop (pos + (gap space (n + 1)).length) = c :: others := by
      rw [inside, first]
      exact ⟨_, rfl⟩
    have item := head _ _ inside (stops_behind n (by decide))
    have behind := drop_append inside
    have other : Settles (fun fuel => parseArray p str fuel
          (pos + (gap space (n + 1)).length + (text p space (n + 1) v).length) (arr ++ [v])
          (some true))
        (unlessNul p (itemsHaveNul rest') (.array (arr ++ v :: rest'),
          pos + (gap space (n + 1) ++ text p space (n + 1) v ++
            (if rest'.isEmpty then gap space n else ','.toNat :: itemsText p space n rest')).length
              + 1)) := by
      cases rest' with
      | nil =>
        unfold itemsHaveNul
        rw [unlessNul_false]
        have end_ : pos + (gap space (n + 1) ++ text p space (n + 1) v ++
              (if ([] : List (Value F)).isEmpty then gap space n else
                ','.toNat :: itemsText p space n [])).length + 1 =
            pos + (gap space (n + 1)).length + (text p space (n + 1) v).length +
              (gap space n).length + 1 := by
          simp only [List.isEmpty_nil, ↓reduceIte, List.length_append]
          omega
        rw [end_]
        exact parseArray_last blank n behind
      | cons w rest'' =>
        have comma := tail _ _ (arr ++ [v]) (some false) (drop_cons behind) (by decide)
          (fun empty => nomatch empty)
        have end_ : pos + (gap space (n + 1) ++ text p space (n + 1) v ++
              (if (w :: rest'').isEmpty then gap space n else
                ','.toNat :: itemsText p space n (w :: rest''))).length + 1 =
            pos + (gap space (n + 1)).length + (text p space (n + 1) v).length + 1 +
              (itemsText p space n (w :: rest'')).length + 1 := by
          simp only [List.isEmpty_cons, Bool.false_eq_true, ↓reduceIte, List.length_append,
            List.length_cons]
          omega
        rw [List.append_assoc, List.singleton_append] at comma
        rw [end_]
        exact Settles.succ (parseArray_comma behind) comma
    apply parseArray_spaces here (gap_spaces blank _)
    exact settles_bind item other (parseArray_item first' starts expected) (fun _ => rfl)

/-- The fields of an object behind a brace or a comma. -/
theorem parseObject_fields (exact_ : Exact p) (blank : Blank space)
    (fields : List (List Nat × Value F)) (plain : PlainFields p fields) (n pos : Nat)
    (rest : List Nat) (obj : List (List Nat × Value F)) (comma : Option Bool)
    (distinct : ((obj ++ fields).map Prod.fst).Nodup)
    (here : str.drop pos = fieldsText p space n fields ++ '}'.toNat :: rest)
    (expected : comma ≠ some true) (complete : fields = [] → comma = none) :
    Settles (fun fuel => parseObject p str fuel pos obj none comma)
      (unlessNul p (fieldsHaveNul fields)
        (.object (obj ++ fields), pos + (fieldsText p space n fields).length + 1)) := by
  cases fields with
  | nil =>
    unfold fieldsHaveNul
    rw [unlessNul_false, List.append_nil]
    exact Settles.done (parseObject_close here (by rw [complete rfl]; decide))
  | cons field rest' =>
    obtain ⟨name, v⟩ := field
    have value := parseRec_text exact_ blank v plain.1.2 (n + 1)
    have tail := parseObject_fields exact_ blank rest' plain.2 n
    unfold fieldsText at here ⊢
    simp only [List.append_assoc, List.cons_append] at here
    have named := drop_append here
    have quoteFirst : str.drop (pos + (gap space (n + 1)).length) = '"'.toNat :: _ := named
    have nameRead := parseString_quote plain.1.1 named
    have colon := drop_append named
    have padding := drop_cons colon
    have inside := drop_append padding
    have valueRead := value _ _ inside (stops_behind n (by decide))
    have behind := drop_append inside
    have fresh : name ∉ obj.map Prod.fst := by
      rw [List.map_append, List.nodup_append] at distinct
      exact fun member => distinct.2.2 name member name (List.mem_cons_self ..) rfl
    have fields_eq : setField obj name v ++ rest' = obj ++ (name, v) :: rest' := by
      rw [setField_fresh fresh, List.append_assoc]
      rfl
    have other : Settles (fun fuel => parseObject p str fuel
          (pos + (gap space (n + 1)).length + (quote p name).length + 1 +
            (if space.isSome then [' '.toNat] else []).length + (text p space (n + 1) v).length)
          (setField obj name v) none (some true))
        (unlessNul p (fieldsHaveNul rest') (.object (obj ++ (name, v) :: rest'),
          pos + (gap space (n + 1) ++ quote p name ++
            ':'.toNat :: (if space.isSome then [' '.toNat] else []) ++ text p space (n + 1) v ++
            (if rest'.isEmpty then gap space n else
              ','.toNat :: fieldsText p space n rest')).length + 1)) := by
      rw [← fields_eq]
      cases rest' with
      | nil =>
        unfold fieldsHaveNul
        rw [unlessNul_false, List.append_nil]
        have end_ : pos + (gap space (n + 1) ++ quote p name ++
              ':'.toNat :: (if space.isSome then [' '.toNat] else []) ++ text p space (n + 1) v ++
              (if ([] : List (List Nat × Value F)).isEmpty then gap space n else
                ','.toNat :: fieldsText p space n [])).length + 1 =
            pos + (gap space (n + 1)).length + (quote p name).length + 1 +
              (if space.isSome then [' '.toNat] else []).length +
              (text p space (n + 1) v).length + (gap space n).length + 1 := by
          simp only [List.isEmpty_nil, ↓reduceIte, List.length_append, List.length_cons]
          omega
        rw [end_]
        exact parseObject_last blank n behind
      | cons w rest'' =>
        have comma := tail _ _ (setField obj name v) (some false) (by rw [fields_eq]; exact distinct)
          (drop_cons behind) (by decide) (fun empty => nomatch empty)
        have end_ : pos + (gap space (n + 1) ++ quote p name ++
              ':'.toNat :: (if space.isSome then [' '.toNat] else []) ++ text p space (n + 1) v ++
              (if (w :: rest'').isEmpty then gap space n else
                ','.toNat :: fieldsText p space n (w :: rest''))).length + 1 =
            pos + (gap space (n + 1)).length + (quote p name).length + 1 +
              (if space.isSome then [' '.toNat] else []).length +
              (text p space (n + 1) v).length + 1 +
              (fieldsText p space n (w :: rest'')).length + 1 := by
          simp only [List.isEmpty_cons, Bool.false_eq_true, ↓reduceIte, List.length_append,
            List.length_cons]
          omega
        rw [end_]
        exact Settles.succ (parseObject_comma behind) comma
    have afterName : Settles (fun fuel => parseObject p str fuel
          (pos + (gap space (n + 1)).length + (quote p name).length) obj (some name) comma)
        (unlessNul p (v.hasNul || fieldsHaveNul rest') (.object (obj ++ (name, v) :: rest'),
          pos + (gap space (n + 1) ++ quote p name ++
            ':'.toNat :: (if space.isSome then [' '.toNat] else []) ++ text p space (n + 1) v ++
            (if rest'.isEmpty then gap space n else
              ','.toNat :: fieldsText p space n rest')).length + 1)) :=
      settles_bind (parseRec_padded padding valueRead) other (parseObject_colon colon)
        (fun _ => rfl)
    apply parseObject_spaces here (gap_spaces blank _)
    exact settles_bind nameRead afterName (parseObject_name quoteFirst expected) (fun _ => rfl)

end

/-- The end of a text. -/
theorem trailing_end (v : Value F) (here : str.drop pos = []) (fuel : Nat) :
    trailing p str v (fuel + 1) pos = .returned v := by
  have eof : p.isEof (p.fastCodeAt str pos) = true := by
    rw [fastCodeAt_end here]
    unfold Platform.isEof
    cases p.eofIsZero <;> rfl
  rw [trailing]
  simp only [eof, ↓reduceIte]

/-- A printed value is read back, up to a zero where that is the end of a string. -/
theorem parse_print (exact_ : Exact p) (blank : Blank space) {v : Value F} (plain : Plain p v) :
    Settles (fun fuel => parse p (print p space v) fuel) (unlessNul p v.hasNul v) := by
  rw [print_eq plain]
  have here : (text p space 0 v).drop 0 = text p space 0 v ++ [] := (List.append_nil _).symm
  have read := parseRec_text exact_ blank v plain 0 0 [] here (fun c member => nomatch member)
  have end_ : Settles (fun fuel => trailing p (text p space 0 v) v fuel
      (0 + (text p space 0 v).length)) (.returned v) :=
    Settles.done (trailing_end v (drop_append here))
  obtain ⟨n, settled⟩ := read
  obtain ⟨n', settled'⟩ := end_
  refine ⟨max n n', fun m more => ?_⟩
  show Outcome.bind (parseRec p (text p space 0 v) m 0) _ = _
  have run : parseRec p (text p space 0 v) m 0 = _ :=
    settled m (Nat.le_trans (Nat.le_max_left ..) more)
  have last : trailing p (text p space 0 v) v m (0 + (text p space 0 v).length) = _ :=
    settled' m (Nat.le_trans (Nat.le_max_right ..) more)
  rw [run]
  unfold unlessNul
  split
  · rfl
  · exact last

end Printed

end Haxe.Source.Json
