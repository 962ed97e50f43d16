import Haxe.Source.Std.StringEncoding
import Haxe.Theory.CommandLines

/-!
# Quoting of arguments

`haxe.SysTools`. A string is the list of its code units, as `charCodeAt` gives them one by one.
-/

namespace Haxe.Source.SysTools

open Theory.CommandLines

/-- `winMetaCharacters` -/
def winMetaCharacters : List Nat := ascii " ()%!^\"<>&|\n\r,;"

/-- A letter, a digit or one of `_@%+=:,.`, the slash and the hyphen: all that the regular
expression of `quoteUnixArg` does not match. -/
def safe (c : Nat) : Bool :=
  (97 ≤ c && c ≤ 122) || (65 ≤ c && c ≤ 90) || (48 ≤ c && c ≤ 57) ||
    (ascii "_@%+=:,./-").contains c

/-- `StringTools.replace` of a single character. -/
def replaceChar (sub : Nat) (by_ s : List Nat) : List Nat :=
  s.flatMap (fun c => if c = sub then by_ else [c])

def quoteUnixArg (argument : List Nat) : List Nat :=
  if argument = [] then [39, 39]
  else if !argument.any (fun c => !safe c) then argument
  else 39 :: replaceChar 39 [39, '"'.toNat, 39, '"'.toNat, 39] argument ++ [39]

section Windows

/-- On HashLink a code unit is a half of a pair in UTF-16, or a character. -/
def isSurrogate (c : Nat) : Bool := 0xD800 ≤ c && c ≤ 0xDFFF

variable (hl : Bool)

/-- `StringBuf.addChar` of a code unit; HashLink throws for half a pair. -/
@[grind =] def addChar (result : List Nat) (c : Nat) : Except String (List Nat) :=
  if hl && isSurrogate c then .error ("Invalid unicode char " ++ toString c)
  else .ok (result ++ [c])

/-- `~/^[^ \t\\"]+$/` matches. -/
def needsNothing (argument : List Nat) : Bool :=
  !argument.isEmpty && argument.all (fun c => !(ascii " \t\\\"").contains c)

/-- The buffers of `quoteWinArg`. -/
structure Buffers where
  result : List Nat
  bsBuf : List Nat

/-- One turn of the loop of `quoteWinArg`. -/
@[grind =] def quoteStep (s : Buffers) (c : Nat) : Except String Buffers :=
  if c = '\\'.toNat then .ok { s with bsBuf := s.bsBuf ++ ['\\'.toNat] }
  else if c = '"'.toNat then .ok ⟨s.result ++ s.bsBuf ++ s.bsBuf ++ ascii "\\\"", []⟩
  else
    let s : Buffers := if 0 < s.bsBuf.length then ⟨s.result ++ s.bsBuf, []⟩ else s
    (addChar hl s.result c).map (fun result => { s with result })

/-- `needquote` -/
def needsQuotes (argument : List Nat) : Bool :=
  argument.contains ' '.toNat || argument.contains '\t'.toNat || argument.isEmpty

/-- The part of `quoteWinArg` for an argument that cannot stay as it is. -/
@[grind =] def quoted (argument : List Nat) : Except String (List Nat) := do
  let needquote := needsQuotes argument
  let s ← argument.foldlM (quoteStep hl) ⟨if needquote then ['"'.toNat] else [], []⟩
  let result := s.result ++ s.bsBuf
  return if needquote then result ++ s.bsBuf ++ ['"'.toNat] else result

/-- One turn of the loop over the meta characters. -/
@[grind =] def escapeStep (result : List Nat) (c : Nat) : Except String (List Nat) :=
  addChar hl (if winMetaCharacters.contains c then result ++ ['^'.toNat] else result) c

/-- The first half of `quoteWinArg`. -/
@[grind =] def unescaped (argument : List Nat) : Except String (List Nat) :=
  if needsNothing argument then .ok argument else quoted hl argument

@[grind =] def quoteWinArg (argument : List Nat) (escapeMetaCharacters : Bool) :
    Except String (List Nat) := do
  let argument ← unescaped hl argument
  if escapeMetaCharacters then argument.foldlM (escapeStep hl) [] else return argument

/-- No half of a pair is passed to `addChar` on HashLink. -/
def Addable (text : List Nat) : Prop := hl = true → ∀ c ∈ text, isSurrogate c = false

end Windows

section Doubled

/-- What the rest of an argument is quoted to behind so many backslashes. -/
@[grind =] def doubled (needquote : Bool) (n : Nat) : List Nat → List Nat
  | [] =>
    List.replicate n '\\'.toNat ++
      if needquote then List.replicate n '\\'.toNat ++ ['"'.toNat] else []
  | c :: rest =>
    if c = '\\'.toNat then doubled needquote (n + 1) rest
    else if c = '"'.toNat then
      List.replicate (2 * n + 1) '\\'.toNat ++ '"'.toNat :: doubled needquote 0 rest
    else List.replicate n '\\'.toNat ++ c :: doubled needquote 0 rest

variable {hl : Bool}

theorem addChar_ok {c : Nat} (addable : hl = true → isSurrogate c = false) (result : List Nat) :
    addChar hl result c = .ok (result ++ [c]) := by
  have guard : (hl && isSurrogate c) = false := by
    cases hl with
    | true => exact addable rfl
    | false => rfl
  unfold addChar
  rw [guard]
  rfl

theorem replicate_twice (n : Nat) (rest : List Nat) :
    List.replicate n '\\'.toNat ++ (List.replicate n '\\'.toNat ++ (ascii "\\\"" ++ rest)) =
      List.replicate (2 * n + 1) '\\'.toNat ++ '"'.toNat :: rest := by
  rw [← List.append_assoc, List.replicate_append_replicate, ← Nat.two_mul, List.replicate_succ',
    List.append_assoc]
  rfl

theorem foldlM_doubled {argument : List Nat} (addable : Addable hl argument)
    (result : List Nat) (n : Nat) :
    ∃ s, argument.foldlM (quoteStep hl) ⟨result, List.replicate n '\\'.toNat⟩ = .ok s ∧
      ∀ needquote, s.result ++ s.bsBuf ++ (if needquote then s.bsBuf ++ ['"'.toNat] else []) =
        result ++ doubled needquote n argument := by
  induction argument generalizing result n with
  | nil => exact ⟨_, rfl, fun needquote => by rw [doubled, List.append_assoc]⟩
  | cons c rest ih =>
    have ih := ih (fun target d member => addable target d (List.mem_cons_of_mem _ member))
    have added := addChar_ok (fun target => addable target c (List.mem_cons_self ..))
    rw [List.foldlM_cons]
    unfold quoteStep doubled
    by_cases backslash : c = '\\'.toNat
    · simp only [if_pos backslash, ← List.replicate_succ']
      exact ih result (n + 1)
    · by_cases quote : c = '"'.toNat
      · simp only [if_neg backslash, if_pos quote]
        obtain ⟨s, run, text⟩ := ih (result ++ List.replicate n '\\'.toNat ++
          List.replicate n '\\'.toNat ++ ascii "\\\"") 0
        refine ⟨s, run, fun needquote => ?_⟩
        rw [text needquote, List.append_assoc, List.append_assoc, List.append_assoc,
          replicate_twice]
      · simp only [if_neg backslash, if_neg quote]
        obtain ⟨s, run, text⟩ := ih (result ++ List.replicate n '\\'.toNat ++ [c]) 0
        have flushed : (if 0 < (List.replicate n '\\'.toNat).length then
            (⟨result ++ List.replicate n '\\'.toNat, []⟩ : Buffers)
            else ⟨result, List.replicate n '\\'.toNat⟩) =
            ⟨result ++ List.replicate n '\\'.toNat, []⟩ := by
          cases n with
          | zero => rw [if_neg (by decide), List.replicate_zero, List.append_nil]
          | succ n => rw [if_pos (by rw [List.length_replicate]; omega)]
        rw [flushed, added]
        refine ⟨s, run, fun needquote => ?_⟩
        rw [text needquote, List.append_assoc, List.append_assoc]
        rfl

theorem arguments_doubled {needquote : Bool} {argument rest : List Nat}
    (inside : needquote = false → ∀ c ∈ argument, separates c = false) (ends : Ends rest)
    (word : List Nat) (n : Nat) :
    arguments needquote 0 (some word) (doubled needquote n argument ++ rest) =
      arguments false 0 (some (word ++ List.replicate n '\\'.toNat ++ argument)) rest := by
  induction argument generalizing word n with
  | nil =>
    unfold doubled
    cases needquote with
    | true =>
      have twice : List.replicate n '\\'.toNat ++
          (if true then List.replicate n '\\'.toNat ++ ['"'.toNat] else []) ++ rest =
          List.replicate (2 * n) '\\'.toNat ++ '"'.toNat :: rest := by
        rw [if_pos rfl, ← List.append_assoc, List.replicate_append_replicate, ← Nat.two_mul,
          List.append_assoc]
        rfl
      rw [twice, arguments_backslashes, Nat.zero_add, arguments_quote, List.append_nil]
      rfl
    | false =>
      rw [if_neg Bool.false_ne_true, List.append_nil, List.append_nil, arguments_backslashes,
        Nat.zero_add, arguments_ends ends]
  | cons c argument ih =>
    have ih := ih (fun none d member => inside none d (List.mem_cons_of_mem _ member))
    unfold doubled
    by_cases backslash : c = '\\'.toNat
    · rw [if_pos backslash, ih, backslash, List.replicate_succ', ← List.append_assoc,
        List.append_assoc _ ['\\'.toNat]]
      rfl
    · by_cases quote : c = '"'.toNat
      · rw [if_neg backslash, if_pos quote, List.append_assoc, arguments_backslashes, Nat.zero_add,
          List.cons_append, arguments_escaped, ih, quote, Option.getD_some, List.replicate_zero,
          List.append_nil, List.append_assoc _ ['"'.toNat]]
        rfl
      · have stays : needquote = false → separates c = false :=
          fun none => inside none c (List.mem_cons_self ..)
        rw [if_neg backslash, if_neg quote, List.append_assoc, arguments_backslashes,
          List.cons_append, arguments_other backslash quote stays, ih, Option.getD_some,
          Nat.zero_add, List.replicate_zero, List.append_nil, List.append_assoc _ [c]]
        rfl

theorem doubled_first {argument : List Nat} (n : Nat) (some_ : 0 < n ∨ argument ≠ [])
    (inside : ∀ c ∈ argument, separates c = false) (needquote : Bool) :
    ∃ c more, doubled needquote n argument = c :: more ∧ separates c = false := by
  induction argument generalizing n with
  | nil =>
    have positive := some_.resolve_right (fun other => other rfl)
    obtain ⟨k, rfl⟩ := Nat.exists_eq_succ_of_ne_zero (Nat.pos_iff_ne_zero.mp positive)
    exact ⟨'\\'.toNat, _, rfl, by decide⟩
  | cons c argument ih =>
    unfold doubled
    by_cases backslash : c = '\\'.toNat
    · rw [if_pos backslash]
      exact ih (n + 1) (.inl (Nat.succ_pos n))
        (fun d member => inside d (List.mem_cons_of_mem _ member))
    · rw [if_neg backslash]
      by_cases quote : c = '"'.toNat
      · rw [if_pos quote]
        exact ⟨'\\'.toNat, _, rfl, by decide⟩
      · rw [if_neg quote]
        cases n with
        | zero => exact ⟨c, _, rfl, inside c (List.mem_cons_self ..)⟩
        | succ n => exact ⟨'\\'.toNat, _, rfl, by decide⟩

/-- Nothing is doubled where neither a backslash nor a quote is. -/
theorem doubled_same {argument : List Nat}
    (plain : ∀ c ∈ argument, c ≠ '\\'.toNat ∧ c ≠ '"'.toNat) :
    doubled false 0 argument = argument := by
  induction argument with
  | nil => rfl
  | cons c argument ih =>
    have here := plain c (List.mem_cons_self ..)
    unfold doubled
    rw [if_neg here.1, if_neg here.2, ih (fun d member => plain d (List.mem_cons_of_mem _ member))]
    rfl

theorem needsQuotes_inside {argument : List Nat} (none : needsQuotes argument = false) :
    argument ≠ [] ∧ ∀ c ∈ argument, separates c = false := by
  obtain ⟨blanks, nonempty⟩ := Bool.or_eq_false_iff.mp none
  obtain ⟨space, tab⟩ := Bool.or_eq_false_iff.mp blanks
  refine ⟨fun empty => ?_, fun c member => ?_⟩
  · rw [empty] at nonempty
    exact nomatch nonempty
  · have noSpace : c ≠ ' '.toNat := by
      intro eq
      rw [← eq, List.contains_iff_mem.mpr member] at space
      exact nomatch space
    have noTab : c ≠ '\t'.toNat := by
      intro eq
      rw [← eq, List.contains_iff_mem.mpr member] at tab
      exact nomatch tab
    unfold separates
    rw [beq_false_of_ne noSpace, beq_false_of_ne noTab]
    rfl

/-- What `quoteWinArg` gives without carets. -/
@[grind =] def winQuoted (argument : List Nat) : List Nat :=
  (if needsQuotes argument then ['"'.toNat] else []) ++ doubled (needsQuotes argument) 0 argument

theorem needsNothing_plain {argument : List Nat} (fast : needsNothing argument = true) :
    winQuoted argument = argument := by
  obtain ⟨nonempty, all⟩ := Bool.and_eq_true_iff.mp fast
  have none : ∀ c ∈ argument, ¬ c ∈ ascii " \t\\\"" := by
    intro c member special
    have plain := List.all_eq_true.mp all c member
    rw [List.contains_iff_mem.mpr special] at plain
    exact nomatch plain
  have blanks : needsQuotes argument = false := by
    unfold needsQuotes
    rw [Bool.not_eq_true'] at nonempty
    rw [nonempty, Bool.or_false, Bool.or_eq_false_iff]
    constructor
    · exact Bool.not_eq_true _ ▸ fun has => none _ (List.contains_iff_mem.mp has) (by decide)
    · exact Bool.not_eq_true _ ▸ fun has => none _ (List.contains_iff_mem.mp has) (by decide)
  unfold winQuoted
  rw [blanks, doubled_same]
  · rfl
  · intro c member
    exact ⟨fun eq => none c member (by rw [eq]; decide),
      fun eq => none c member (by rw [eq]; decide)⟩

theorem unescaped_ok {argument : List Nat} (addable : Addable hl argument) :
    unescaped hl argument = .ok (winQuoted argument) := by
  unfold unescaped
  cases fast : needsNothing argument with
  | true => exact congrArg Except.ok (needsNothing_plain fast).symm
  | false =>
    obtain ⟨s, run, text⟩ := foldlM_doubled addable
      (if needsQuotes argument then ['"'.toNat] else []) 0
    have result : quoted hl argument = .ok (winQuoted argument) := by
      unfold quoted winQuoted
      rw [← text (needsQuotes argument)]
      rw [List.replicate_zero] at run
      simp only []
      rw [run]
      cases needsQuotes argument with
      | true => exact congrArg Except.ok (List.append_assoc ..)
      | false => exact congrArg Except.ok (List.append_nil _).symm
    rw [if_neg Bool.false_ne_true, result]

theorem quoteWinArg_ok {argument : List Nat} (addable : Addable hl argument) :
    quoteWinArg hl argument false = .ok (winQuoted argument) := by
  unfold quoteWinArg
  rw [unescaped_ok addable]
  rfl

theorem winQuoted_arguments (argument : List Nat) {rest : List Nat} (ends : Ends rest) :
    arguments false 0 none (winQuoted argument ++ rest) =
      arguments false 0 (some argument) rest := by
  unfold winQuoted
  cases quotes : needsQuotes argument with
  | true =>
    rw [if_pos rfl, List.append_assoc, List.singleton_append]
    exact (arguments_quote 0).trans (arguments_doubled Bool.noConfusion ends [] 0)
  | false =>
    have inside := needsQuotes_inside quotes
    have word := @arguments_doubled false argument rest (fun _ => inside.2) ends [] 0
    obtain ⟨c, more, text, outside⟩ := doubled_first 0 (.inr inside.1) inside.2 false
    rw [if_neg Bool.false_ne_true, List.nil_append]
    rw [text, List.cons_append] at word ⊢
    exact (arguments_begun (.inr outside)).trans word

/-- What `quoteWinArg` makes of a quoted argument with carets. -/
@[grind =] def careted (text : List Nat) : List Nat :=
  text.flatMap (fun c => if winMetaCharacters.contains c then ['^'.toNat, c] else [c])

theorem careted_meta {c : Nat} (special : winMetaCharacters.contains c = true) (text : List Nat) :
    careted (c :: text) = '^'.toNat :: c :: careted text := by
  unfold careted
  rw [List.flatMap_cons, special]
  rfl

theorem careted_other {c : Nat} (other : winMetaCharacters.contains c = false) (text : List Nat) :
    careted (c :: text) = c :: careted text := by
  unfold careted
  rw [List.flatMap_cons, other]
  rfl

theorem caret_meta {c : Nat} (other : winMetaCharacters.contains c = false) : c ≠ '^'.toNat := by
  intro eq
  rw [eq] at other
  exact absurd other (by decide)

theorem foldlM_careted {text : List Nat} (addable : Addable hl text) (result : List Nat) :
    text.foldlM (escapeStep hl) result = .ok (result ++ careted text) := by
  induction text generalizing result with
  | nil => exact congrArg Except.ok (List.append_nil result).symm
  | cons c text ih =>
    have ih := ih (fun target d member => addable target d (List.mem_cons_of_mem _ member))
    have added := addChar_ok (fun target => addable target c (List.mem_cons_self ..))
    rw [List.foldlM_cons]
    unfold escapeStep
    rw [added]
    show List.foldlM (escapeStep hl) _ text = _
    rw [ih]
    cases special : winMetaCharacters.contains c with
    | true => simp [careted_meta special]
    | false => simp [careted_other special]

theorem uncaret_careted (text : List Nat) : uncaret false (careted text) = text := by
  induction text with
  | nil => rfl
  | cons c text ih =>
    cases special : winMetaCharacters.contains c with
    | true =>
      rw [careted_meta special]
      exact congrArg (c :: ·) ih
    | false => rw [careted_other special, uncaret, if_neg (caret_meta special), ih]

theorem allEscaped_careted (text : List Nat) :
    allEscaped winMetaCharacters false (careted text) = true := by
  induction text with
  | nil => rfl
  | cons c text ih =>
    cases special : winMetaCharacters.contains c with
    | true =>
      rw [careted_meta special]
      exact ih
    | false =>
      rw [careted_other special, allEscaped, if_neg (caret_meta special), special, ih]
      rfl

theorem mem_doubled {c : Nat} {argument : List Nat} {needquote : Bool} {n : Nat}
    (member : c ∈ doubled needquote n argument) :
    c = '\\'.toNat ∨ c = '"'.toNat ∨ c ∈ argument := by
  induction argument generalizing n with
  | nil =>
    unfold doubled at member
    rcases List.mem_append.mp member with slash | behind
    · exact .inl (List.eq_of_mem_replicate slash)
    · cases needquote with
      | true =>
        rcases List.mem_append.mp behind with slash | quote
        · exact .inl (List.eq_of_mem_replicate slash)
        · exact .inr (.inl (List.mem_singleton.mp quote))
      | false => exact nomatch behind
  | cons d argument ih =>
    have later : ∀ {n}, c ∈ doubled needquote n argument →
        c = '\\'.toNat ∨ c = '"'.toNat ∨ c ∈ d :: argument := by
      intro n member
      rcases ih member with slash | quote | inner
      · exact .inl slash
      · exact .inr (.inl quote)
      · exact .inr (.inr (List.mem_cons_of_mem _ inner))
    unfold doubled at member
    by_cases backslash : d = '\\'.toNat
    · rw [if_pos backslash] at member
      exact later member
    · rw [if_neg backslash] at member
      by_cases quote : d = '"'.toNat
      · rw [if_pos quote] at member
        rcases List.mem_append.mp member with slash | behind
        · exact .inl (List.eq_of_mem_replicate slash)
        · rcases List.mem_cons.mp behind with same | behind
          · exact .inr (.inl same)
          · exact later behind
      · rw [if_neg quote] at member
        rcases List.mem_append.mp member with slash | behind
        · exact .inl (List.eq_of_mem_replicate slash)
        · rcases List.mem_cons.mp behind with rfl | behind
          · exact .inr (.inr (List.mem_cons_self ..))
          · exact later behind

theorem winQuoted_addable {argument : List Nat} (addable : Addable hl argument) :
    Addable hl (winQuoted argument) := by
  intro target c member
  unfold winQuoted at member
  have parts : c = '"'.toNat ∨ c ∈ doubled (needsQuotes argument) 0 argument := by
    rcases List.mem_append.mp member with quote | behind
    · cases quotes : needsQuotes argument with
      | true =>
        rw [quotes] at quote
        exact .inl (List.mem_singleton.mp quote)
      | false =>
        rw [quotes] at quote
        exact nomatch quote
    · exact .inr behind
  rcases parts with rfl | behind
  · decide
  · rcases mem_doubled behind with rfl | rfl | inner
    · decide
    · decide
    · exact addable target c inner

theorem quoteWinArg_careted {argument : List Nat} (addable : Addable hl argument) :
    quoteWinArg hl argument true = .ok (careted (winQuoted argument)) := by
  unfold quoteWinArg
  rw [unescaped_ok addable]
  exact foldlM_careted (winQuoted_addable addable) []

/-- Each character was gone through in a loop that has ended. -/
theorem foldlM_step {σ : Type} {f : σ → Nat → Except String σ} {text : List Nat} {s s' : σ}
    (run : text.foldlM f s = .ok s') {c : Nat} (member : c ∈ text) : ∃ t t', f t c = .ok t' := by
  induction text generalizing s with
  | nil => exact nomatch member
  | cons d text ih =>
    rw [List.foldlM_cons] at run
    cases step : f s d with
    | error e =>
      rw [step] at run
      exact nomatch run
    | ok t =>
      rw [step] at run
      rcases List.mem_cons.mp member with rfl | behind
      · exact ⟨s, t, step⟩
      · exact ih run behind

theorem addChar_surrogate {c : Nat} (half : isSurrogate c = true) (result : List Nat) :
    addChar true result c = .error ("Invalid unicode char " ++ toString c) := by
  unfold addChar
  rw [half]
  rfl

theorem addable_of_quoted {argument text : List Nat} (run : quoted hl argument = .ok text) :
    Addable hl argument := by
  rintro rfl c member
  by_contra other
  have half : isSurrogate c = true := (Bool.not_eq_false _).mp other
  unfold quoted at run
  simp only [] at run
  cases loop : argument.foldlM (quoteStep true)
      ⟨if needsQuotes argument then ['"'.toNat] else [], []⟩ with
  | error e =>
    rw [loop] at run
    exact nomatch run
  | ok s =>
    obtain ⟨t, t', step⟩ := foldlM_step loop member
    have backslash : c ≠ '\\'.toNat := fun eq => absurd half (by rw [eq]; decide)
    have quote : c ≠ '"'.toNat := fun eq => absurd half (by rw [eq]; decide)
    unfold quoteStep at step
    rw [if_neg backslash, if_neg quote] at step
    simp only [addChar_surrogate half] at step
    exact nomatch step

theorem unescaped_eq {argument text : List Nat} (run : unescaped hl argument = .ok text) :
    text = winQuoted argument := by
  unfold unescaped at run
  cases fast : needsNothing argument with
  | true =>
    rw [fast] at run
    exact (Except.ok.inj run).symm.trans (needsNothing_plain fast).symm
  | false =>
    rw [fast, if_neg Bool.false_ne_true] at run
    have whole := unescaped_ok (addable_of_quoted run)
    unfold unescaped at whole
    rw [fast, if_neg Bool.false_ne_true, run] at whole
    exact Except.ok.inj whole

theorem unescaped_of_ok {argument text : List Nat} {escapeMetaCharacters : Bool}
    (run : quoteWinArg hl argument escapeMetaCharacters = .ok text) :
    ∃ part, unescaped hl argument = .ok part ∧
      (if escapeMetaCharacters then part.foldlM (escapeStep hl) [] else .ok part) = .ok text := by
  unfold quoteWinArg at run
  cases first : unescaped hl argument with
  | error e =>
    rw [first] at run
    exact nomatch run
  | ok part =>
    rw [first] at run
    exact ⟨part, rfl, run⟩

theorem quoteWinArg_eq {argument text : List Nat} (run : quoteWinArg hl argument false = .ok text) :
    text = winQuoted argument := by
  obtain ⟨part, first, second⟩ := unescaped_of_ok run
  exact (Except.ok.inj second).symm.trans (unescaped_eq first)

/-- Each character of the argument is passed to `addChar` where the carets are put in, if not
before. -/
theorem addable_of_careted {argument text : List Nat}
    (run : quoteWinArg hl argument true = .ok text) : Addable hl argument := by
  obtain ⟨part, first, second⟩ := unescaped_of_ok run
  unfold unescaped at first
  cases fast : needsNothing argument with
  | true =>
    rw [fast] at first
    obtain rfl := Except.ok.inj first
    rintro rfl c member
    by_contra other
    obtain ⟨t, t', step⟩ := foldlM_step second member
    unfold escapeStep at step
    rw [addChar_surrogate ((Bool.not_eq_false _).mp other)] at step
    exact nomatch step
  | false =>
    rw [fast, if_neg Bool.false_ne_true] at first
    exact addable_of_quoted first

end Doubled

section Words

/-- A character that stays as it is for the regular expression does so for the shell. -/
theorem safe_ordinary {c : Nat} (ok : safe c = true) : ordinary c = true := by
  have narrow : c < 128 := by
    by_contra wide
    have other : ∀ d ∈ ascii "_@%+=:,./-", d < 128 := by decide
    have notListed : (ascii "_@%+=:,./-").contains c = false := by
      by_contra listed
      exact wide (other c (List.contains_iff_mem.mp ((Bool.not_eq_false _).mp listed)))
    unfold safe at ok
    rw [notListed] at ok
    simp only [Bool.or_eq_true, Bool.and_eq_true, decide_eq_true_eq, Bool.or_false] at ok
    omega
  have all : ∀ c < 128, safe c = true → ordinary c = true := by decide
  exact all c narrow ok

theorem shellWords_replaced (argument word rest : List Nat) :
    shellWords .single (some word)
      (replaceChar 39 [39, '"'.toNat, 39, '"'.toNat, 39] argument ++ 39 :: rest) =
      shellWords .plain (some (word ++ argument)) rest := by
  induction argument generalizing word with
  | nil =>
    rw [List.append_nil]
    rfl
  | cons c argument ih =>
    unfold replaceChar at ih ⊢
    rw [List.flatMap_cons]
    by_cases apostrophe : c = 39
    · rw [if_pos apostrophe, apostrophe]
      have again := ih (word ++ [39])
      rw [List.append_assoc _ [39]] at again
      exact (shellWords_apostrophe word).trans again
    · have again := ih (word ++ [c])
      rw [List.append_assoc _ [c]] at again
      rw [if_neg apostrophe]
      exact (shellWords_single apostrophe word).trans again

theorem quoteUnixArg_words (argument rest : List Nat) :
    shellWords .plain none (quoteUnixArg argument ++ rest) =
      shellWords .plain (some argument) rest := by
  unfold quoteUnixArg
  by_cases empty : argument = []
  · rw [if_pos empty, empty]
    rfl
  · rw [if_neg empty]
    cases special : argument.any (fun c => !safe c) with
    | true =>
      rw [Bool.not_true, if_neg Bool.false_ne_true, List.cons_append, List.cons_append,
        List.append_assoc]
      exact shellWords_replaced argument [] rest
    | false =>
      have plain : ∀ c ∈ argument, ordinary c = true := by
        intro c member
        apply safe_ordinary
        by_contra unsafe_
        have some_ := List.any_eq_false.mp special c member
        rw [Bool.not_eq_true', (Bool.not_eq_true _).mp unsafe_] at some_
        exact some_ rfl
      obtain ⟨c, more, rfl⟩ := List.exists_cons_of_ne_nil empty
      have more_ := fun d member => plain d (List.mem_cons_of_mem c member)
      rw [Bool.not_false, if_pos rfl, List.cons_append,
        shellWords_ordinary (plain c (List.mem_cons_self ..)), shellWords_allOrdinary more_]
      rfl

end Words

end Haxe.Source.SysTools
