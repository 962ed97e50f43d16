import Haxe.Source.Std.SysTools
import Mathlib.Data.List.Forall2

/-!
# Quoted arguments come back

The Microsoft C run-time, the command interpreter with its carets and a POSIX shell undo what
`quoteWinArg` and `quoteUnixArg` do to an argument, whatever it consists of. On HashLink
`quoteWinArg` goes through the halves of a pair in UTF-16 one by one, for which `addChar` throws.
-/

namespace Haxe.Guarantees.SysTools

open Theory.CommandLines Source Source.SysTools

/-- Arguments joined by spaces. -/
def line : List (List Nat) → List Nat
  | [] => []
  | [text] => text
  | text :: next :: texts => text ++ ' '.toNat :: line (next :: texts)

theorem argv_line {hl : Bool} {args texts : List (List Nat)}
    (run : List.Forall₂ (fun a text => quoteWinArg hl a false = .ok text) args texts) :
    argv (line texts) = args := by
  induction run with
  | nil => rfl
  | @cons a text args texts first rest ih =>
    rw [quoteWinArg_eq first]
    cases texts with
    | nil =>
      have word := winQuoted_arguments a (.inl rfl)
      rw [List.append_nil] at word
      cases rest
      exact word
    | cons next texts =>
      have word := @winQuoted_arguments a (' '.toNat :: line (next :: texts)) (.inr ⟨_, rfl⟩)
      exact word.trans (congrArg (a :: ·) ih)

/-- A shell reads the quoted arguments of a command. -/
theorem shellWords_line (args : List (List Nat)) :
    shellWords .plain none (line (args.map quoteUnixArg)) = some args := by
  induction args with
  | nil => rfl
  | cons a args ih =>
    cases args with
    | nil =>
      have word := quoteUnixArg_words a []
      rw [List.append_nil] at word
      exact word
    | cons next args =>
      have word := quoteUnixArg_words a (' '.toNat :: line ((next :: args).map quoteUnixArg))
      rw [shellWords_space, ih] at word
      exact word

/-- The receivers give an argument back, the run-time also between other ones. -/
structure Undone (hl : Bool) (argument : List Nat) : Prop where
  windows : ∃ text, quoteWinArg hl argument false = .ok text ∧ argv text = [argument] ∧
    ∀ before after texts texts',
      List.Forall₂ (fun a text => quoteWinArg hl a false = .ok text) before texts →
      List.Forall₂ (fun a text => quoteWinArg hl a false = .ok text) after texts' →
        argv (line (texts ++ text :: texts')) = before ++ argument :: after
  carets : ∃ text escaped, quoteWinArg hl argument false = .ok text ∧
    quoteWinArg hl argument true = .ok escaped ∧ uncaret false escaped = text ∧
      allEscaped winMetaCharacters false escaped = true
  unix : shellWords .plain none (quoteUnixArg argument) = some [argument]

theorem quoted_comes_back_iff (hl : Bool) (argument : List Nat) :
    Undone hl argument ↔ (hl = true → ∀ c ∈ argument, isSurrogate c = false) := by
  constructor
  · intro undone
    obtain ⟨text, escaped, -, run, -⟩ := undone.carets
    exact addable_of_careted run
  · intro addable
    have plain := quoteWinArg_ok addable
    have single := argv_line (List.Forall₂.cons plain List.Forall₂.nil)
    refine ⟨⟨_, plain, single, ?_⟩, ?_, shellWords_line [argument]⟩
    · intro before after texts texts' first last
      exact argv_line (List.rel_append first (.cons plain last))
    · exact ⟨_, _, plain, quoteWinArg_careted addable, uncaret_careted _, allEscaped_careted _⟩

/-- A character beyond the first plane and a space. -/
theorem surrogate_is_refused :
    ¬ Undone true [0xD83D, 0xDE00, ' '.toNat] ∧
      quoteWinArg true [0xD83D, 0xDE00, ' '.toNat] false = .error "Invalid unicode char 55357" := by
  have refused : quoteWinArg true [0xD83D, 0xDE00, ' '.toNat] false =
      .error "Invalid unicode char 55357" := by decide
  refine ⟨fun undone => ?_, refused⟩
  obtain ⟨text, run, -⟩ := undone.windows
  rw [refused] at run
  exact nomatch run

end Haxe.Guarantees.SysTools
