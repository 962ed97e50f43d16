import Haxe.Source.Std.JsonDerivations

/-!
# Every text is read or refused

With enough fuel `JsonParser` returns or throws, since each turn of a loop and each value takes a
character at least.
-/

namespace Haxe.Source.Json

open Theory Theory.InterruptedRuns
open Theory.JsonGrammar hiding Stops

variable {F : Type} {p : Platform F} {str : List Nat}

/-- A run that returns or throws with enough fuel. -/
def Total {α : Type} (f : Nat → Reading α) : Prop :=
  (∃ a, Settles f (.returned a)) ∨ ∃ e, Settles f (.thrown e)

namespace Total

variable {α β : Type}

theorem returned {f : Nat → Reading α} {a : α} (done : ∀ m, f (m + 1) = .returned a) : Total f :=
  Or.inl ⟨a, Settles.done done⟩

theorem thrown {f : Nat → Reading α} {e : Exn} (done : ∀ m, f (m + 1) = .thrown e) : Total f :=
  Or.inr ⟨e, Settles.done done⟩

theorem succ {f g : Nat → Reading α} (again : ∀ m, f (m + 1) = g m) (total : Total g) :
    Total f := by
  obtain ⟨a, settles⟩ | ⟨e, settles⟩ := total
  · exact Or.inl ⟨a, Settles.succ again settles⟩
  · exact Or.inr ⟨e, Settles.succ again settles⟩

theorem bind {f : Nat → Reading α} {whole : Nat → Reading β} {k : Nat → α → Reading β}
    (first : Total f) (unfolds : ∀ m, whole (m + 1) = (f m).bind (k m))
    (second : ∀ a fuel, f fuel = .returned a → Total (fun m => k m a)) : Total whole := by
  obtain ⟨a, n, settled⟩ | ⟨e, settles⟩ := first
  · obtain ⟨b, settles⟩ | ⟨e, settles⟩ := second a n (settled n (Nat.le_refl n))
    · exact Or.inl ⟨b, settles_then ⟨n, settled⟩ unfolds settles⟩
    · exact Or.inr ⟨e, settles_then ⟨n, settled⟩ unfolds settles⟩
  · refine Or.inr ⟨e, Settles.step settles (fun m run => ?_)⟩
    rw [unfolds, run]
    rfl

end Total

theorem length_pos_of_drop {pos c : Nat} {rest : List Nat} (here : str.drop pos = c :: rest) :
    pos < str.length := by
  by_contra outside
  rw [List.drop_of_length_le (Nat.not_lt.mp outside)] at here
  cases here

section Tokens

theorem eof_behind {pos : Nat} (here : str.drop pos = []) :
    p.isEof (p.fastCodeAt str pos) = true := by
  rw [fastCodeAt_end here]
  unfold Platform.isEof
  cases p.eofIsZero <;> rfl

theorem total_parseEscape (p : Platform F) (str : List Nat) (pos : Nat) (s : StringState) :
    (∃ r, parseEscape p str pos s = .returned r) ∨ ∃ e, parseEscape p str pos s = .thrown e := by
  cases parsed : parseEscape p str pos s with
  | returned r => exact Or.inl ⟨r, rfl⟩
  | thrown e => exact Or.inr ⟨e, rfl⟩
  | exhausted =>
    unfold parseEscape at parsed
    simp only [] at parsed
    split at parsed
    · cases number : unicodeEscape p str (pos + 1) with
      | returned uc =>
        rw [number] at parsed
        cases parsed
      | thrown e =>
        rw [number] at parsed
        cases parsed
      | exhausted =>
        unfold unicodeEscape at number
        repeat' split at number
        all_goals cases number
    · split at parsed <;> cases parsed

theorem parseEscape_forward {pos : Nat} {s : StringState} {r : StringState × Nat}
    (parsed : parseEscape p str pos s = .returned r) : pos < r.2 := by
  obtain ⟨x, rest, -, -, -, eq⟩ | ⟨rest, -, -, eq⟩ := parseEscape_cases parsed
  · rw [eq]
    exact Nat.lt_succ_self pos
  · rw [eq]
    omega

theorem total_stringLoop (pos : Nat) (s : StringState) :
    Total (fun fuel => stringLoop p str fuel pos s) := by
  induction left : str.length - pos using Nat.strongRecOn generalizing pos s with
  | ind left ih =>
    by_cases quote : p.fastCodeAt str pos = some '"'.toNat
    · have done : ∀ m, stringLoop p str (m + 1) pos s =
          .returned (finishString p str (pos + 1) s, pos + 1) := by
        intro m
        rw [stringLoop]
        exact if_pos quote
      exact Total.returned done
    by_cases backslash : p.fastCodeAt str pos = some '\\'.toNat
    · obtain ⟨rest, here⟩ := drop_of_fastCodeAt backslash (fun _ => by decide)
      have inside := length_pos_of_drop here
      obtain ⟨r, parsed⟩ | ⟨e, parsed⟩ := total_parseEscape p str (pos + 1) s
      · have forward := parseEscape_forward parsed
        have again : ∀ m, stringLoop p str (m + 1) pos s = stringLoop p str m r.2 r.1 := by
          intro m
          rw [stringLoop_backslash s here, parsed]
          rfl
        exact Total.succ again (ih _ (by omega) r.2 r.1 rfl)
      · have done : ∀ m, stringLoop p str (m + 1) pos s = .thrown e := by
          intro m
          rw [stringLoop_backslash s here, parsed]
          rfl
        exact Total.thrown done
    by_cases wide : p.encoding = .bytes ∧ 0x80 ≤ (p.fastCodeAt str pos).getD 0
    · obtain ⟨c, found⟩ : ∃ c, p.fastCodeAt str pos = some c := by
        cases found : p.fastCodeAt str pos with
        | some c => exact ⟨c, rfl⟩
        | none =>
          rw [found] at wide
          exact absurd wide.2 (by decide)
      rw [found] at wide
      have above : 128 ≤ c := wide.2
      obtain ⟨rest, here⟩ := drop_of_fastCodeAt found (fun _ => by omega)
      have inside := length_pos_of_drop here
      exact Total.succ (stringLoop_skip s here wide.1 above) (ih _ (by omega) _ s rfl)
    cases eof : p.isEof (p.fastCodeAt str pos) with
    | true =>
      have done : ∀ m, stringLoop p str (m + 1) pos s = .thrown .unclosedString := by
        intro m
        rw [stringLoop]
        simp only [eof, ↓reduceIte]
        rw [if_neg quote, if_neg backslash, if_neg wide]
      exact Total.thrown done
    | false =>
      obtain ⟨c, rest, here, -⟩ := drop_of_not_eof eof
      have inside := length_pos_of_drop here
      have again : ∀ m, stringLoop p str (m + 1) pos s = stringLoop p str m (pos + 1) s := by
        intro m
        rw [stringLoop]
        simp only [eof, Bool.false_eq_true, ↓reduceIte]
        rw [if_neg quote, if_neg backslash, if_neg wide]
      exact Total.succ again (ih _ (by omega) _ s rfl)

theorem total_numberLoop (p : Platform F) (str : List Nat) (start pos : Nat) (s : NumberState) :
    Total (fun fuel => numberLoop p str start fuel pos s) := by
  induction left : str.length - pos using Nat.strongRecOn generalizing pos s with
  | ind left ih =>
    cases step : s.step (p.fastCodeAt str pos) with
    | next s' =>
      obtain ⟨rest, c, here⟩ : ∃ rest c, str.drop pos = c :: rest := by
        cases found : p.fastCodeAt str pos with
        | none =>
          rw [found] at step
          unfold NumberState.step at step
          simp only [] at step
          split at step <;> cases step
        | some c =>
          rw [found] at step
          have nonzero : c ≠ 0 := by
            rintro rfl
            exact stuck_other s (by unfold NumberChar Digit; decide) s' step
          obtain ⟨rest, here⟩ := drop_of_fastCodeAt found (fun _ => nonzero)
          exact ⟨rest, c, here⟩
      have inside := length_pos_of_drop here
      have again : ∀ m, numberLoop p str start (m + 1) pos s =
          numberLoop p str start m (pos + 1) s' := by
        intro m
        rw [numberLoop, step]
      exact Total.succ again (ih _ (by omega) _ s' rfl)
    | invalid =>
      have done : ∀ m, numberLoop p str start (m + 1) pos s =
          .thrown (.invalidNumber start (substr str start (pos + 1 - start))) := by
        intro m
        rw [numberLoop, step]
      exact Total.thrown done
    | last =>
      have done : ∀ m, numberLoop p str start (m + 1) pos s = .returned (s, pos) := by
        intro m
        rw [numberLoop, step]
      exact Total.returned done

theorem total_parseNumber (pos c : Nat) : Total (fun fuel => parseNumber p str fuel pos c) := by
  obtain ⟨r, n, settled⟩ | ⟨e, n, settled⟩ :=
    total_numberLoop p str (pos - 1) pos (firstNumberState c)
  · refine Or.inl ⟨(numberValue p (substr str (pos - 1) (r.2 - (pos - 1))) r.1.point, r.2), n,
      fun m more => ?_⟩
    have run := settled m more
    unfold parseNumber
    simp only [] at run ⊢
    rw [run]
    rfl
  · refine Or.inr ⟨e, n, fun m more => ?_⟩
    have run := settled m more
    unfold parseNumber
    simp only [] at run ⊢
    rw [run]
    rfl

theorem total_parseWord (p : Platform F) (str : List Nat) (pos : Nat) (word : List Nat)
    (v : Value F) :
    (∃ r, parseWord p str pos word v = .returned r) ∨
      ∃ e, parseWord p str pos word v = .thrown e := by
  unfold parseWord
  split
  · exact Or.inl ⟨_, rfl⟩
  · exact Or.inr ⟨_, rfl⟩

end Tokens

section Values

theorem total_invalid (p : Platform F) (str : List Nat) {α : Type} {f : Nat → Reading α} (pos : Nat)
    (done : ∀ m, f (m + 1) = invalidChar p str pos) : Total f :=
  Total.thrown done

/-- What has been read is behind a character. -/
theorem forward {fuel pos : Nat} {r : Value F × Nat}
    (read : parseRec p str fuel pos = .returned r) : pos < str.length ∧ pos < r.2 := by
  obtain ⟨v, end_⟩ := r
  obtain ⟨ws, t, tree, rest, -, spells, all, -, here, rfl⟩ := (sound p str fuel).value read
  obtain ⟨c, more, rfl, -⟩ := spells_first (lenient_separate p) all spells
  constructor
  · by_contra outside
    rw [List.drop_of_length_le (Nat.not_lt.mp outside)] at here
    simp at here
  · show pos < pos + ws.length + (c :: more).length
    rw [List.length_cons]
    omega

/-- The calls at a position. -/
structure TotalAt (p : Platform F) (str : List Nat) (pos : Nat) : Prop where
  value : Total (fun fuel => parseRec p str fuel pos)
  items : ∀ arr comma, Total (fun fuel => parseArray p str fuel pos arr comma)
  members : ∀ obj field comma, Total (fun fuel => parseObject p str fuel pos obj field comma)

theorem total_parseRec {pos : Nat}
    (later : pos < str.length → TotalAt p str (pos + 1)) :
    Total (fun fuel => parseRec p str fuel pos) := by
  cases found : p.fastCodeAt str pos with
  | none =>
    apply total_invalid p str (pos + 1)
    intro m
    rw [parseRec, found]
  | some c =>
    have inside : c ≠ 0 → TotalAt p str (pos + 1) := by
      intro nonzero
      obtain ⟨rest, here⟩ := drop_of_fastCodeAt found (fun _ => nonzero)
      exact later (length_pos_of_drop here)
    have word : ∀ (word : List Nat) (v : Value F),
        (∀ m, parseRec p str (m + 1) pos = parseWord p str (pos + 1) word v) →
        Total (fun fuel => parseRec p str fuel pos) := by
      intro word v run
      obtain ⟨r, done⟩ | ⟨e, done⟩ := total_parseWord p str (pos + 1) word v
      · exact Total.returned (fun m => (run m).trans done)
      · exact Total.thrown (fun m => (run m).trans done)
    have here : c ≠ 0 → ∃ rest, str.drop pos = c :: rest :=
      fun nonzero => drop_of_fastCodeAt found (fun _ => nonzero)
    by_cases space : isSpace c = true
    · obtain ⟨rest, here⟩ := here (space_nonzero space)
      exact Total.succ (parseRec_space here space) (inside (space_nonzero space)).value
    by_cases brace : c = '{'.toNat
    · subst brace
      obtain ⟨rest, here⟩ := here (by decide)
      exact Total.succ (parseRec_brace here) ((inside (by decide)).members [] none none)
    by_cases bracket : c = '['.toNat
    · subst bracket
      obtain ⟨rest, here⟩ := here (by decide)
      exact Total.succ (parseRec_bracket here) ((inside (by decide)).items [] none)
    by_cases t : c = 't'.toNat
    · apply word (ascii "rue") (.bool true)
      intro m
      rw [parseRec, found]
      simp only []
      rw [if_neg space, if_neg brace, if_neg bracket, if_pos t]
    by_cases f : c = 'f'.toNat
    · apply word (ascii "alse") (.bool false)
      intro m
      rw [parseRec, found]
      simp only []
      rw [if_neg space, if_neg brace, if_neg bracket, if_neg t, if_pos f]
    by_cases n : c = 'n'.toNat
    · apply word (ascii "ull") .null
      intro m
      rw [parseRec, found]
      simp only []
      rw [if_neg space, if_neg brace, if_neg bracket, if_neg t, if_neg f, if_pos n]
    by_cases quote : c = '"'.toNat
    · subst quote
      obtain ⟨rest, here⟩ := here (by decide)
      exact Total.bind (total_stringLoop (pos + 1) ⟨pos + 1, none, none⟩) (parseRec_quote here)
        (fun r _ _ => Or.inl ⟨_, Settles.const _⟩)
    by_cases number : isNumberStart c = true
    · obtain ⟨rest, here⟩ := here ((isNumberStart_other number).2 _ (by decide))
      exact Total.succ (parseRec_number here number) (total_parseNumber (pos + 1) c)
    apply total_invalid p str (pos + 1)
    intro m
    rw [parseRec, found]
    simp only []
    rw [if_neg space, if_neg brace, if_neg bracket, if_neg t, if_neg f, if_neg n, if_neg quote,
      if_neg number]

theorem total_parseArray {pos : Nat} (value : Total (fun fuel => parseRec p str fuel pos))
    (later : ∀ pos', pos < str.length → pos < pos' → TotalAt p str pos') (arr : List (Value F))
    (comma : Option Bool) : Total (fun fuel => parseArray p str fuel pos arr comma) := by
  have item (unfolds : ∀ m, parseArray p str (m + 1) pos arr comma =
      (parseRec p str m pos).bind
        (fun r => parseArray p str m r.2 (arr ++ [r.1]) (some true))) :
      Total (fun fuel => parseArray p str fuel pos arr comma) := by
    apply Total.bind value unfolds
    intro r fuel read
    obtain ⟨inside, behind⟩ := forward read
    exact (later r.2 inside behind).items _ _
  have invalid (unfolds : ∀ m, parseArray p str (m + 1) pos arr comma =
      invalidChar p str (pos + 1)) : Total (fun fuel => parseArray p str fuel pos arr comma) :=
    total_invalid p str _ unfolds
  cases found : p.fastCodeAt str pos with
  | none =>
    by_cases given : comma = some true
    · apply invalid
      intro m
      rw [parseArray, found]
      exact if_pos given
    · apply item
      intro m
      rw [parseArray, found]
      exact if_neg given
  | some c =>
    have inside : c ≠ 0 → TotalAt p str (pos + 1) := by
      intro nonzero
      obtain ⟨rest, here⟩ := drop_of_fastCodeAt found (fun _ => nonzero)
      exact later (pos + 1) (length_pos_of_drop here) (Nat.lt_succ_self pos)
    have here : c ≠ 0 → ∃ rest, str.drop pos = c :: rest :=
      fun nonzero => drop_of_fastCodeAt found (fun _ => nonzero)
    by_cases space : isSpace c = true
    · obtain ⟨rest, here⟩ := here (space_nonzero space)
      exact Total.succ (parseArray_space here space) ((inside (space_nonzero space)).items arr comma)
    by_cases close : c = ']'.toNat
    · subst close
      obtain ⟨rest, here⟩ := here (by decide)
      by_cases missing : comma = some false
      · apply invalid
        intro m
        rw [parseArray, found]
        exact if_pos missing
      · exact Total.returned (parseArray_close here missing)
    by_cases mark : c = ','.toNat
    · subst mark
      obtain ⟨rest, here⟩ := here (by decide)
      by_cases given : comma = some true
      · subst given
        exact Total.succ (parseArray_comma here) ((inside (by decide)).items arr (some false))
      · apply invalid
        intro m
        rw [parseArray, found]
        exact if_neg given
    by_cases given : comma = some true
    · apply invalid
      intro m
      rw [parseArray, found]
      simp only []
      rw [if_neg space, if_neg close, if_neg mark, if_pos given]
    · apply item
      intro m
      rw [parseArray, found]
      simp only []
      rw [if_neg space, if_neg close, if_neg mark, if_neg given]
      rfl

theorem total_parseObject {pos : Nat}
    (later : ∀ pos', pos < str.length → pos < pos' → TotalAt p str pos')
    (obj : List (List Nat × Value F)) (field : Option (List Nat)) (comma : Option Bool) :
    Total (fun fuel => parseObject p str fuel pos obj field comma) := by
  have invalid (unfolds : ∀ m, parseObject p str (m + 1) pos obj field comma =
      invalidChar p str (pos + 1)) :
      Total (fun fuel => parseObject p str fuel pos obj field comma) :=
    total_invalid p str _ unfolds
  cases found : p.fastCodeAt str pos with
  | none =>
    apply invalid
    intro m
    rw [parseObject, found]
  | some c =>
    have here : c ≠ 0 → ∃ rest, str.drop pos = c :: rest :=
      fun nonzero => drop_of_fastCodeAt found (fun _ => nonzero)
    have inside : c ≠ 0 → pos < str.length := by
      intro nonzero
      obtain ⟨rest, here⟩ := here nonzero
      exact length_pos_of_drop here
    by_cases space : isSpace c = true
    · obtain ⟨rest, here⟩ := here (space_nonzero space)
      exact Total.succ (parseObject_space here space)
        ((later _ (inside (space_nonzero space)) (Nat.lt_succ_self pos)).members obj field comma)
    by_cases close : c = '}'.toNat
    · subst close
      by_cases incomplete : field.isSome = true ∨ comma = some false
      · apply invalid
        intro m
        rw [parseObject, found]
        exact if_pos incomplete
      · apply Total.returned (a := (.object obj, pos + 1))
        intro m
        rw [parseObject, found]
        exact if_neg incomplete
    by_cases colon : c = ':'.toNat
    · subst colon
      cases field with
      | none =>
        apply invalid
        intro m
        rw [parseObject, found]
        rfl
      | some name =>
        obtain ⟨rest, here⟩ := here (by decide)
        have next := later (pos + 1) (inside (by decide)) (Nat.lt_succ_self pos)
        apply Total.bind next.value (parseObject_colon here)
        intro r fuel read
        exact (later r.2 (inside (by decide))
          (Nat.lt_trans (Nat.lt_succ_self pos) (forward read).2)).members _ _ _
    by_cases mark : c = ','.toNat
    · subst mark
      obtain ⟨rest, here⟩ := here (by decide)
      by_cases given : comma = some true
      · subst given
        exact Total.succ (parseObject_comma here)
          ((later _ (inside (by decide)) (Nat.lt_succ_self pos)).members obj field (some false))
      · apply invalid
        intro m
        rw [parseObject, found]
        exact if_neg given
    by_cases quote : c = '"'.toNat
    · by_cases taken : field.isSome = true ∨ comma = some true
      · apply invalid
        intro m
        rw [parseObject, found]
        simp only []
        rw [if_neg space, if_neg close, if_neg colon, if_neg mark, if_pos quote, if_pos taken]
      · have unfolds : ∀ m, parseObject p str (m + 1) pos obj field comma =
            (parseString p str m (pos + 1)).bind
              (fun r => parseObject p str m r.2 obj (some r.1) comma) := by
          intro m
          rw [parseObject, found]
          simp only []
          rw [if_neg space, if_neg close, if_neg colon, if_neg mark, if_pos quote, if_neg taken]
          rfl
        apply Total.bind (total_stringLoop (pos + 1) ⟨pos + 1, none, none⟩) unfolds
        intro r fuel read
        have nonzero : c ≠ 0 := by
          rw [quote]
          decide
        have ended : stringLoop p str fuel (pos + 1) ⟨pos + 1, none, none⟩ = .returned (r.1, r.2) :=
          read
        obtain ⟨t, rest, -, -, eq⟩ := lenient_of_stringLoop ended
        exact (later r.2 (inside nonzero) (by omega)).members _ _ _
    apply invalid
    intro m
    rw [parseObject, found]
    simp only []
    rw [if_neg space, if_neg close, if_neg colon, if_neg mark, if_neg quote]

theorem totalAt (p : Platform F) (str : List Nat) (pos : Nat) : TotalAt p str pos := by
  induction left : str.length - pos using Nat.strongRecOn generalizing pos with
  | ind left ih =>
    have later : ∀ pos', pos < str.length → pos < pos' → TotalAt p str pos' :=
      fun pos' inside order => ih _ (by omega) pos' rfl
    have value := total_parseRec (fun inside => later (pos + 1) inside (Nat.lt_succ_self pos))
    exact ⟨value, total_parseArray value later, total_parseObject later⟩

theorem total_trailing (p : Platform F) (str : List Nat) (v : Value F) (pos : Nat) :
    Total (fun fuel => trailing p str v fuel pos) := by
  induction left : str.length - pos using Nat.strongRecOn generalizing pos with
  | ind left ih =>
    cases eof : p.isEof (p.fastCodeAt str pos) with
    | true =>
      apply Total.returned (a := v)
      intro m
      rw [trailing]
      simp only [eof, ↓reduceIte]
    | false =>
      obtain ⟨c, rest, here, -⟩ := drop_of_not_eof eof
      have inside := length_pos_of_drop here
      by_cases space : isSpace ((p.fastCodeAt str pos).getD 0) = true
      · have again : ∀ m, trailing p str v (m + 1) pos = trailing p str v m (pos + 1) := by
          intro m
          rw [trailing]
          simp only [eof, Bool.false_eq_true, ↓reduceIte, space]
        exact Total.succ again (ih _ (by omega) (pos + 1) rfl)
      · apply total_invalid p str (pos + 1)
        intro m
        rw [trailing]
        simp only [eof, Bool.false_eq_true, ↓reduceIte]
        rw [if_neg space]

end Values

end Haxe.Source.Json
