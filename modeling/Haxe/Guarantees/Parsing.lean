import Haxe.Source.Syntax.ChainGrammar
import Haxe.Source.Syntax.ConditionalReading
import Haxe.Source.Syntax.ConditionalText
import Haxe.Source.Syntax.Lexer
import Mathlib.Data.List.Lex
import Mathlib.Data.Prod.Lex
import Mathlib.Data.String.Basic
import Mathlib.Data.Sum.Order
import Mathlib.Order.WithBot

/-!
# Operator precedence

The grammar reads the right operand of an operator first and repairs the tree with
`make_binop` and `make_unop`. For every chain this gives the tree of the precedence
table, and the tree flattens back to the chain; only a minus in front of a number is not
kept as an operator, it changes the sign of the literal.
-/

namespace Haxe.Guarantees.OperatorPrecedence

open Source.Syntax
open Source.Typing (Pos nullPos)
open Theory (Settles)

/-- `expr` reads the chain and nothing behind it, for any text that may follow a chain. -/
theorem expr_tabled
    (parseComplexType : List PlacedToken → Option ((TypeHint × Pos) × List PlacedToken))
    (parsingMacroCond : Bool) (c : Chain) (rest : List PlacedToken) (stops : Stops rest) :
    ∃ e, Settles (fun n => expr parseComplexType parsingMacroCond n (c.tokens ++ rest))
        (some (e, rest)) ∧
      flatten e = mergeSigns c.elems ∧ Tabled e :=
  ⟨c.build, expr_chain parseComplexType parsingMacroCond c stops, c.flatten_build,
    c.build_tabled⟩

/-- `-x * 2 = a ? -1 : b >> c;`, without positions. -/
def mixedChain : Chain :=
  .unary (.minus nullPos) (.binop (.const (.ident "x") nullPos)
    (.plain .opMult nullPos (by decide)) (.binop (.const (.int "2") nullPos)
      (.plain .opAssign nullPos (by decide)) (.ternary (.const (.ident "a") nullPos) nullPos
        (.unary (.minus nullPos) (.last (.const (.int "1") nullPos))) nullPos
        (.binop (.const (.ident "b") nullPos) (.shr nullPos nullPos rfl)
          (.last (.const (.ident "c") nullPos))))))

theorem mixedChain_tabled :
    ∃ e, Settles (fun n => expr (fun _ => none) false n
        (mixedChain.tokens ++ [(.semicolon, nullPos)])) (some (e, [(.semicolon, nullPos)])) ∧
      flatten e = mergeSigns mixedChain.elems ∧ Tabled e :=
  expr_tabled (fun _ => none) false mixedChain [(.semicolon, nullPos)] rfl

/-- `- -1`. -/
def doubleMinus : Chain :=
  .unary (.minus nullPos) (.unary (.minus nullPos) (.last (.const (.int "1") nullPos)))

/-- The tree of `- -1` is the constant `1`: both operators are lost. -/
theorem doubleMinus_flatten :
    ∃ e, Settles (fun n => expr (fun _ => none) false n (doubleMinus.tokens ++ []))
        (some (e, [])) ∧
      flatten e = [.literal (.int "1")] ∧ flatten e ≠ doubleMinus.elems := by
  have same : flatten doubleMinus.build = [.literal (.int "1")] := by
    rw [Chain.flatten_build]
    rfl
  refine ⟨doubleMinus.build, expr_chain _ _ doubleMinus trivial, same, ?_⟩
  rw [same]
  intro chain
  exact absurd (congrArg List.length chain) (by decide)

end Haxe.Guarantees.OperatorPrecedence

/-!
## Conditional compilation

`parse` delivers the right tokens of every text with well nested directives, evaluates
only the conditions it has to, and its condition stack is true exactly where the text is
live. All of this also holds for files that end inside a conditional, in display mode,
but `get_dead_blocks` fails when such a file ends in text that is skipped:
`skip_tokens_loop` passes `Eof` on without closing the dead block.
-/

namespace Haxe.Guarantees.ConditionalCompilation

open Source.Syntax
open Source.Typing (Pos nullPos)
open Theory (Settles)

variable {F : Type} {cfg : Config F}

/-- `parse` returns; the grammar has read the tokens of the first branches that hold, and
at every token the conditions are those around it, true where the token is live. -/
def DeliversTokens (cfg : Config F) (f : File cfg) : Prop :=
  ∃ result s, Settles (fun n => parse cfg n f.tokens) (.ok (result, s)) ∧
    result.read = f.delivered ++ [(.eof, cfg.eofPos)] ∧
    s.evaluated = f.evaluated ∧
    s.visits = f.visits [] [] true ∧
    (∀ v ∈ s.visits, v.Sound cfg) ∧
    (f.isComplete = true →
      s.mstack = [] ∧ s.conds.conditionalStack = [] ∧ s.conds.depths = []) ∧
    s.dbc.currentBlock = []

/-- The text is closed, or the compiler is in display mode. -/
def Accepted (cfg : Config F) (f : File cfg) : Prop :=
  f.isComplete = true ∨ cfg.inDisplay = true

/-- A closed text is read without display mode as well. -/
theorem complete_delivers (t : Text cfg) (undisturbed : t.Undisturbed true) :
    DeliversTokens cfg (.complete t) := by
  have reads := Reads.text t (T := (initial t.tokens).tracked) undisturbed
    (by simp [initial, State.tracked] : _ = t.tokens ++ [])
    (Reads.eof (Next.of_processes Processes.eof))
  obtain ⟨s, tracked, settles⟩ := reads.entry (initial t.tokens) rfl
  have mstack : s.mstack = [] := congrArg Tracked.mstack tracked
  have blocks : s.dbc.currentBlock = [] := congrArg Tracked.blocks tracked
  obtain ⟨result, s', parsed, read, same⟩ := parse_closed settles (Or.inl mstack) blocks
  rw [tracked] at same
  have visits : s'.visits = t.visits [] [] true := congrArg Tracked.visits same
  refine ⟨result, s', parsed, read, congrArg Tracked.evaluated same, visits, ?_,
    fun _ => ⟨?_, ?_, ?_⟩, ?_⟩
  · rw [visits]
    exact t.visits_sound rfl undisturbed
  · exact congrArg Tracked.mstack same
  · exact congrArg Tracked.st same
  · exact congrArg Tracked.ds same
  · exact congrArg Tracked.blocks same

/-- The tokens are delivered and the dead blocks are balanced, unless the file ends in a
part that is skipped. -/
theorem parse_delivers_iff (f : File cfg) (accepted : Accepted cfg f)
    (undisturbed : f.Undisturbed true) : DeliversTokens cfg f ↔ f.endsSkipped = false := by
  cases f with
  | complete t => exact ⟨fun _ => rfl, fun _ => complete_delivers t undisturbed⟩
  | unclosed t p c branches =>
    have display : cfg.inDisplay = true := accepted.resolve_left (by simp [File.isComplete])
    obtain ⟨T', reads, ends⟩ := Reads.file display (.unclosed t p c branches)
      (T := (initial (File.unclosed t p c branches).tokens).tracked) undisturbed rfl
    obtain ⟨s, rfl, settles⟩ := reads.entry _ rfl
    constructor
    · rintro ⟨result, s', parsed, -⟩
      by_contra skipped
      have open_ : s.dbc.currentBlock ≠ [] := by
        have blocks := ends.blocks
        rwa [if_pos (by simpa using skipped)] at blocks
      cases parsed.unique (parse_open settles (Or.inr display) open_)
    · intro live
      have closed : s.dbc.currentBlock = [] := by
        have blocks := ends.blocks
        rwa [if_neg (by simp [live])] at blocks
      obtain ⟨result, s', parsed, read, same⟩ := parse_closed settles (Or.inr display) closed
      have visits : s'.visits = (File.unclosed t p c branches).visits [] [] true :=
        (congrArg Tracked.visits same).trans ends.visits
      refine ⟨result, s', parsed, read, (congrArg Tracked.evaluated same).trans ends.evaluated,
        visits, ?_, by simp [File.isComplete], (congrArg Tracked.blocks same).trans closed⟩
      rw [visits]
      exact File.visits_sound _ rfl undisturbed

/-! ## A closed and an unclosed file -/

/-- Numbers without fractions, for conditions that compare none. -/
def wholeNumbers : Numbers Int where
  floatOfString := String.toInt?
  intOfString := String.toInt?
  compareFloat := compare
  isZero := (· = 0)
  stringOfFloat := toString

/-- A compiler for which `js` is defined and `flash` is not. -/
def jsConfig (inDisplay : Bool) : Config Int where
  inDisplay := inDisplay
  inDisplayFile := inDisplay
  isCompletion := false
  enclosedIn := fun _ => false
  definedValue := fun i => if i = "true" ∨ i = "js" then some "1" else none
  trueDefined := rfl
  numbers := wholeNumbers
  expr := fun s => expr (fun _ => none) true (2 * s.length + 2) s
  stringError := id
  eofPos := nullPos

def identCondition (inDisplay : Bool) (i : String) : Condition (jsConfig inDisplay) where
  tokens := [(.const (.ident i), nullPos)]
  e := .eConst (.ident i) nullPos
  reads := fun _ => rfl

def semicolons (inDisplay : Bool) : Text (jsConfig inDisplay) :=
  .token (.semicolon, nullPos) rfl .nil

/-- `#if flash ; #elseif js ; #else ; #end`. -/
def branchesFile : File (jsConfig false) :=
  .complete (.conditional nullPos (identCondition false "flash") (semicolons false)
    (.elseif nullPos (identCondition false "js") (semicolons false)
      (.else_ nullPos (semicolons false) nullPos)) .nil)

theorem branchesFile_undisturbed : branchesFile.Undisturbed true := by
  have flash : Evaluates (jsConfig false) (identCondition false "flash").e := ⟨.tNull, rfl⟩
  have js : Evaluates (jsConfig false) (identCondition false "js").e := ⟨.tString "1", rfl⟩
  simp [branchesFile, File.Undisturbed, Text.Undisturbed, Branches.Undisturbed, semicolons,
    flash, js]

theorem branchesFile_delivers :
    DeliversTokens (jsConfig false) branchesFile ↔ branchesFile.endsSkipped = false :=
  parse_delivers_iff branchesFile (Or.inl rfl) branchesFile_undisturbed

/-- `#if flash ;` and the end of the file, in display mode. -/
def skippedFile : File (jsConfig true) :=
  .unclosed .nil nullPos (identCondition true "flash") (.inside (.complete (semicolons true)))

/-- The assertion of `get_dead_blocks` fails. -/
theorem skippedFile_fails :
    Settles (fun n => parse (jsConfig true) n skippedFile.tokens) (.error .assertFailure) ∧
      ¬ DeliversTokens (jsConfig true) skippedFile := by
  have failed : Settles (fun n => parse (jsConfig true) n skippedFile.tokens)
      (.error .assertFailure) := by
    refine ⟨12, fun m hm => ?_⟩
    obtain ⟨m, rfl⟩ := Nat.exists_eq_add_of_le' hm
    rfl
  refine ⟨failed, ?_⟩
  rintro ⟨result, s, parsed, -⟩
  cases parsed.unique failed

end Haxe.Guarantees.ConditionalCompilation

/-!
# Line lookup

The array of lines and the answer that is remembered are not seen in what `find_line` answers.
-/

namespace Haxe.Guarantees.LineLookup

open Source.Lexer

/-- In every run the queries are answered without a read outside of the array, each as by a scan of
the lines that are known then. The fuel of a search is one more than there are events. -/
theorem find_line_scans (file : String) (events : List Event) (inOrder : InOrder 0 events)
    {fuel : Nat} (enough : events.length < fuel) :
    ∃ answers, run (perform fuel) (makeFile file) events = some answers ∧
      run Known.perform [(0, 1)] events = some answers := by
  have stands : Stands fuel (makeFile file) [(0, 1)] 0 events := by
    refine ⟨represents_makeFile file, ordered_first, List.cons_ne_nil _ _, ?_, inOrder, ?_⟩
    · intro line member
      rw [List.mem_singleton.mp member]
    · exact (Nat.add_comm 1 events.length).trans_le enough
  exact stands.run

/-- A query ahead of the last line, one before it, and the first one again behind a new line. -/
def lookups : List Event :=
  [.newline 5, .query 9, .query 3, .newline 8, .query 9, .query 9, .query 5]

theorem lookups_scan : ∃ answers, run (perform 8) (makeFile "Main.hx") lookups = some answers ∧
    run Known.perform [(0, 1)] lookups = some answers :=
  find_line_scans "Main.hx" lookups
    ⟨by decide, by decide, by decide, by decide, by decide, by decide, by decide, trivial⟩
    (by decide)

example : run (perform 8) (makeFile "Main.hx") lookups =
    some [none, some (2, 4), some (1, 3), none, some (3, 1), some (3, 1), some (2, 0)] := by
  decide

end Haxe.Guarantees.LineLookup

/-!
## Versions in conditions

Versions compare by the precedence of SemVer: the numbers of the release first, and of one release
the identifiers of the pre-release, where numbers are below names, a prefix is below what it begins
and no pre-release is above all.
-/

namespace Haxe.Guarantees.Versions

open Source.Syntax
open Source.Typing (Pos nullPos)

abbrev Identifiers := List (Int ⊕ₗ String)

def identifier : Version → Int ⊕ₗ String
  | .svNum n => toLex (.inl n)
  | .svStr s => toLex (.inr s)

def identifiers (pre : List Version) : Identifiers := pre.map identifier

def precedence (v : Release × Option (List Version)) : Identifiers ×ₗ WithTop Identifiers :=
  toLex (identifiers [v.1.1, v.1.2.1, v.1.2.2], v.2.elim ⊤ fun pre => (identifiers pre : _))

theorem compareV_compares (v w : Version) :
    (compareV v w).Compares (identifier v) (identifier w) := by
  cases v with
  | svNum n =>
    cases w with
    | svNum m => exact Sum.Lex.inl_strictMono.compares.mpr ((compare_iff n m).mp rfl)
    | svStr t => exact Sum.Lex.inl_lt_inr n t
  | svStr s =>
    cases w with
    | svNum m => exact Sum.Lex.inl_lt_inr m s
    | svStr t => exact Sum.Lex.inr_strictMono.compares.mpr ((compare_iff s t).mp rfl)

theorem compareLists_compares (l l' : List Version) :
    (compareLists l l').Compares (identifiers l) (identifiers l') := by
  induction l generalizing l' with
  | nil =>
    cases l' with
    | nil => rfl
    | cons w l' => exact List.nil_lt_cons _ _
  | cons v l ih =>
    cases l' with
    | nil => exact List.nil_lt_cons _ _
    | cons w l' =>
      rw [compareLists]
      cases order : compareV v w with
      | lt => exact List.Lex.rel ((compareV_compares v w).eq_lt.mp order)
      | gt => exact List.Lex.rel ((compareV_compares v w).eq_gt.mp order)
      | eq =>
        have behind : StrictMono fun l : Identifiers => identifier w :: l :=
          fun _ _ less => List.Lex.cons less
        rw [identifiers, List.map_cons, (compareV_compares v w).eq_eq.mp order]
        exact behind.compares.mpr (ih l')

theorem compareVersion_compares (a b : Release × Option (List Version)) :
    (compareVersion a b).Compares (precedence a) (precedence b) := by
  have releases := compareLists_compares [a.1.1, a.1.2.1, a.1.2.2] [b.1.1, b.1.2.1, b.1.2.2]
  unfold compareVersion
  cases order : compareLists [a.1.1, a.1.2.1, a.1.2.2] [b.1.1, b.1.2.1, b.1.2.2] with
  | lt => exact Prod.Lex.left _ _ (releases.eq_lt.mp order)
  | gt => exact Prod.Lex.left _ _ (releases.eq_gt.mp order)
  | eq =>
    unfold precedence
    rw [releases.eq_eq.mp order]
    cases a.2 with
    | none =>
      cases b.2 with
      | none => rfl
      | some pre => exact Prod.Lex.right _ (WithTop.coe_lt_top _)
    | some pre =>
      cases b.2 with
      | none => exact Prod.Lex.right _ (WithTop.coe_lt_top _)
      | some pre' =>
        have behind : StrictMono fun pre : Identifiers =>
            toLex (identifiers [b.1.1, b.1.2.1, b.1.2.2], (pre : WithTop Identifiers)) :=
          fun _ _ less => Prod.Lex.right _ (WithTop.coe_lt_coe.mpr less)
        exact behind.compares.mpr (compareLists_compares pre pre')

variable {F : Type} (numbers : Numbers F) (defined : String → Option String)

/-- `version("s")`, and another expression whose value is the text. -/
inductive Operand : Expr → String → Bool → Prop
  | version (s : String) (kind : StringLiteralKind) (p1 p2 p : Pos) :
    Operand (.eCall (.eConst (.ident "version") p1) [.eConst (.string s kind) p2] p) s true
  | text (e : Expr) (s : String) (value : eval numbers defined e = .ok (.tString s)) :
    Operand e s false

/-- Two versions have been compared by precedence, or one text is no version. -/
def Compared (test : Ordering → Bool) (s1 s2 : String)
    (result : Except PlacedError (SmallType F)) : Prop :=
  (∃ x y, ∃ order : Ordering, semverParse numbers s1 = some x ∧ semverParse numbers s2 = some y ∧
    order.Compares (precedence x) (precedence y) ∧ result = .ok (.tBool (test order))) ∨
  (semverParse numbers s1 = none ∨ semverParse numbers s2 = none) ∧ ∃ error, result = .error error

theorem condition_compares {op : Binop} {test : Ordering → Bool}
    (compares : comparison op = some test) {e1 e2 : Expr} (p : Pos) {s1 s2 : String} {b1 b2 : Bool}
    (left : Operand numbers defined e1 s1 b1) (right : Operand numbers defined e2 s2 b2)
    (version : (b1 || b2) = true) :
    Compared numbers test s1 s2 (eval numbers defined (.eBinop op e1 e2 p)) := by
  cases first : semverParse numbers s1 <;> cases second : semverParse numbers s2
  case some.some x y =>
    refine .inl ⟨x, y, compareVersion x y, first, second, compareVersion_compares x y, ?_⟩
    cases left <;> cases right <;> cases version <;> cases op <;> cases compares <;>
      simp [eval, parseVersion, castOperands, comparison, Source.Syntax.cmp, bind, Except.bind,
        pure, Except.pure, *]
  all_goals
    refine .inr ⟨by simp [first, second], ?_⟩
    cases left <;> cases right <;> cases version <;> cases op <;> cases compares <;>
      simp [eval, parseVersion, castOperands, bind, Except.bind, *]

/-- `haxe > version("4.0.0-rc.1")`. -/
theorem haxe_compared :
    Compared ConditionalCompilation.wholeNumbers (· == .gt) "4.0.0" "4.0.0-rc.1"
      (eval ConditionalCompilation.wholeNumbers (fun _ => some "4.0.0")
        (.eBinop .opGt (.eConst (.ident "haxe") nullPos)
          (.eCall (.eConst (.ident "version") nullPos)
            [.eConst (.string "4.0.0-rc.1" .sDoubleQuotes) nullPos] nullPos) nullPos)) :=
  condition_compares _ _ rfl nullPos (.text _ _ rfl) (.version _ _ _ _ _) rfl

end Haxe.Guarantees.Versions
