import Mathlib.Data.List.Basic

/-!
# Command lines

How the receiver takes a command line apart: the Microsoft C run-time, the command interpreter of
Windows with its carets, and a POSIX shell, of which only the words without expansion are looked at.
A text is the list of its code units.
-/

namespace Haxe.Theory.CommandLines

/-- The argument in progress, if there is one, behind backslashes that stand for themselves. -/
def flushed (current : Option (List Nat)) (slashes : Nat) : Option (List Nat) :=
  if slashes = 0 then current
  else some (current.getD [] ++ List.replicate slashes '\\'.toNat)

/-- The arguments that the Microsoft C run-time makes of a text, inside of quotes or outside, behind
so many backslashes. -/
@[grind =] def arguments (quoted : Bool) (slashes : Nat) (current : Option (List Nat)) :
    List Nat → List (List Nat)
  | [] => (flushed current slashes).toList
  | c :: rest =>
    if c = '\\'.toNat then arguments quoted (slashes + 1) current rest
    else if c = '"'.toNat then
      let word := current.getD [] ++ List.replicate (slashes / 2) '\\'.toNat
      if slashes % 2 = 1 then arguments quoted 0 (some (word ++ ['"'.toNat])) rest
      else arguments (!quoted) 0 (some word) rest
    else if !quoted && (c == ' '.toNat || c == '\t'.toNat) then
      (flushed current slashes).toList ++ arguments false 0 none rest
    else
      arguments quoted 0
        (some (current.getD [] ++ List.replicate slashes '\\'.toNat ++ [c])) rest

/-- The arguments of a command line. -/
def argv (text : List Nat) : List (List Nat) := arguments false 0 none text

/-- Each caret is removed and the character behind it kept, which a caret may stand in front of. -/
def uncaret : Bool → List Nat → List Nat
  | _, [] => []
  | true, c :: rest => c :: uncaret false rest
  | false, c :: rest => if c = '^'.toNat then uncaret true rest else c :: uncaret false rest

/-- Each character of a list has a caret in front of it, and each caret a character behind it. -/
def allEscaped (special : List Nat) : Bool → List Nat → Bool
  | escaped, [] => !escaped
  | true, _ :: rest => allEscaped special false rest
  | false, c :: rest =>
    if c = '^'.toNat then allEscaped special true rest
    else !special.contains c && allEscaped special false rest

/-- What the shell is inside of. -/
inductive Quoting where
  | plain
  | single
  | double
  | escaped
  | doubleEscaped
  deriving DecidableEq

/-- What is more than a character of a word for a shell, where it is not quoted. -/
def operators : List Nat := "|&;<>()$`*?[]\x7b\x7d#~!\n".toList.map Char.toNat

/-- What is special behind a backslash in double quotes. -/
def escapable : List Nat := "$`\"\\".toList.map Char.toNat

/-- The words of a command after the removal of quotes, unless something in it is expanded, is an
operator or is not closed. -/
@[grind =] def shellWords (quoting : Quoting) (current : Option (List Nat)) :
    List Nat → Option (List (List Nat))
  | [] => if quoting = .plain then some current.toList else none
  | c :: rest =>
    let more := some (current.getD [] ++ [c])
    match quoting with
    | .plain =>
      if c = ' '.toNat ∨ c = '\t'.toNat then
        (shellWords .plain none rest).map (current.toList ++ ·)
      else if c = 39 then shellWords .single (some (current.getD [])) rest
      else if c = '"'.toNat then shellWords .double (some (current.getD [])) rest
      else if c = '\\'.toNat then shellWords .escaped current rest
      else if operators.contains c then none
      else shellWords .plain more rest
    | .single =>
      if c = 39 then shellWords .plain current rest else shellWords .single more rest
    | .double =>
      if c = '"'.toNat then shellWords .plain current rest
      else if c = '\\'.toNat then shellWords .doubleEscaped current rest
      else if c = '$'.toNat ∨ c = 96 then none
      else shellWords .double more rest
    | .escaped => shellWords .plain (if c = '\n'.toNat then current else more) rest
    | .doubleEscaped =>
      shellWords .double
        (if c = '\n'.toNat then current
          else if escapable.contains c then more
          else some (current.getD [] ++ ['\\'.toNat, c])) rest

section Arguments

variable {quoted : Bool} {slashes : Nat} {current : Option (List Nat)} {rest : List Nat}

theorem arguments_backslashes (n : Nat) :
    arguments quoted slashes current (List.replicate n '\\'.toNat ++ rest) =
      arguments quoted (slashes + n) current rest := by
  induction n generalizing slashes with
  | zero => rfl
  | succ n ih =>
    rw [List.replicate_succ, List.cons_append, arguments, if_pos rfl, ih]
    exact congrArg (fun k => arguments quoted k current rest) (by omega)

/-- A quote behind an odd number of backslashes. -/
theorem arguments_escaped (n : Nat) :
    arguments quoted (2 * n + 1) current ('"'.toNat :: rest) =
      arguments quoted 0
        (some (current.getD [] ++ List.replicate n '\\'.toNat ++ ['"'.toNat])) rest := by
  have half : (2 * n + 1) / 2 = n := by omega
  have odd : (2 * n + 1) % 2 = 1 := by omega
  rw [arguments, if_neg (by decide), if_pos rfl, half, odd]
  rfl

/-- A quote behind an even number of backslashes. -/
theorem arguments_quote (n : Nat) :
    arguments quoted (2 * n) current ('"'.toNat :: rest) =
      arguments (!quoted) 0 (some (current.getD [] ++ List.replicate n '\\'.toNat)) rest := by
  have half : 2 * n / 2 = n := by omega
  have even : 2 * n % 2 = 0 := by omega
  rw [arguments, if_neg (by decide), if_pos rfl, half, even]
  rfl

/-- Separates arguments outside of quotes. -/
def separates (c : Nat) : Bool := c == ' '.toNat || c == '\t'.toNat

theorem arguments_other {c : Nat} (noBackslash : c ≠ '\\'.toNat) (noQuote : c ≠ '"'.toNat)
    (inside : quoted = false → separates c = false) :
    arguments quoted slashes current (c :: rest) =
      arguments quoted 0
        (some (current.getD [] ++ List.replicate slashes '\\'.toNat ++ [c])) rest := by
  have stays : (!quoted && (c == ' '.toNat || c == '\t'.toNat)) = false := by
    cases quoted with
    | true => rfl
    | false => exact inside rfl
  rw [arguments, if_neg noBackslash, if_neg noQuote, stays]
  rfl

/-- An argument that is not begun yet is like an empty one, if the text goes on with it. -/
theorem arguments_begun {c : Nat} (inside : quoted = true ∨ separates c = false) :
    arguments quoted slashes none (c :: rest) = arguments quoted slashes (some []) (c :: rest) := by
  have begun : ∀ (rest : List Nat) (n : Nat),
      arguments quoted (n + 1) none rest = arguments quoted (n + 1) (some []) rest := by
    intro rest
    induction rest with
    | nil => exact fun n => rfl
    | cons c rest ih =>
      intro n
      unfold arguments
      rw [ih (n + 1)]
      rfl
  have stays : (!quoted && (c == ' '.toNat || c == '\t'.toNat)) = false := by
    rcases inside with rfl | other
    · rfl
    · rw [show (c == ' '.toNat || c == '\t'.toNat) = false from other, Bool.and_false]
  unfold arguments
  rw [begun rest slashes, stays]
  rfl

/-- The end of the command line or a space. -/
def Ends (rest : List Nat) : Prop := rest = [] ∨ ∃ more, rest = ' '.toNat :: more

theorem arguments_ends (ends : Ends rest) (word : List Nat) :
    arguments false slashes (some word) rest =
      arguments false 0 (some (word ++ List.replicate slashes '\\'.toNat)) rest := by
  have same : flushed (some word) slashes =
      flushed (some (word ++ List.replicate slashes '\\'.toNat)) 0 := by
    unfold flushed
    by_cases none : slashes = 0
    · rw [if_pos none, if_pos rfl, none, List.replicate_zero, List.append_nil]
    · rw [if_neg none, if_pos rfl]
      rfl
  rcases ends with rfl | ⟨more, rfl⟩
  · exact congrArg Option.toList same
  · exact congrArg (fun word => word.toList ++ arguments false 0 none more) same

end Arguments

section Words

variable {rest : List Nat}

/-- Stands for itself outside of quotes, and is no blank. -/
def ordinary (c : Nat) : Bool :=
  !(" \t\"\\".toList.map Char.toNat ++ 39 :: operators).contains c

theorem shellWords_ordinary {c : Nat} (plain : ordinary c = true) (current : Option (List Nat)) :
    shellWords .plain current (c :: rest) =
      shellWords .plain (some (current.getD [] ++ [c])) rest := by
  have other : ¬ c ∈ " \t\"\\".toList.map Char.toNat ++ 39 :: operators := by
    simpa [ordinary] using plain
  have noOperator : operators.contains c = false := by
    by_contra operator
    have member := List.contains_iff_mem.mp ((Bool.not_eq_false _).mp operator)
    exact other (List.mem_append_right _ (List.mem_cons_of_mem _ member))
  have blank : ¬ (c = ' '.toNat ∨ c = '\t'.toNat) := by
    rintro (rfl | rfl)
    · exact other (by decide)
    · exact other (by decide)
  have apostrophe : c ≠ 39 := fun eq => other (by rw [eq]; decide)
  have quote : c ≠ '"'.toNat := fun eq => other (by rw [eq]; decide)
  have backslash : c ≠ '\\'.toNat := fun eq => other (by rw [eq]; decide)
  rw [shellWords]
  simp only [if_neg blank, if_neg apostrophe, if_neg quote, if_neg backslash, noOperator]
  rfl

theorem shellWords_allOrdinary {text : List Nat} (plain : ∀ c ∈ text, ordinary c = true)
    (word : List Nat) :
    shellWords .plain (some word) (text ++ rest) =
      shellWords .plain (some (word ++ text)) rest := by
  induction text generalizing word with
  | nil => rw [List.append_nil, List.nil_append]
  | cons c text ih =>
    rw [List.cons_append, shellWords_ordinary (plain c (List.mem_cons_self ..)), Option.getD_some,
      ih (fun d member => plain d (List.mem_cons_of_mem _ member)), List.append_assoc]
    rfl

theorem shellWords_single {c : Nat} (inside : c ≠ 39) (word : List Nat) :
    shellWords .single (some word) (c :: rest) = shellWords .single (some (word ++ [c])) rest := by
  rw [shellWords]
  simp only [if_neg inside, Option.getD_some]

/-- The single quotes are closed, an apostrophe follows in double quotes, and they are opened
again. -/
theorem shellWords_apostrophe (word : List Nat) :
    shellWords .single (some word) (39 :: '"'.toNat :: 39 :: '"'.toNat :: 39 :: rest) =
      shellWords .single (some (word ++ [39])) rest := by
  simp [shellWords]

theorem shellWords_space (word : List Nat) :
    shellWords .plain (some word) (' '.toNat :: rest) =
      (shellWords .plain none rest).map (word :: ·) := by
  rw [shellWords]
  rfl

end Words

end Haxe.Theory.CommandLines
