import Haxe.Source.Syntax.ConditionalText
import Haxe.Theory.Fuel

/-!
# Steps of the token source

`Tracked` is the part of the state that decides which tokens are delivered. `Next`,
`Processes`, `Skips` and `SkipsFrom` say what a call returns from every state with the
given tracked part; the rules are one for each branch of `process_token`, `enter_macro`
and `skip_tokens_loop`. The rest of the state is written but never read.
-/

namespace Haxe.Source.Syntax

open Typing (Pos)
open Theory (Settles)
open ConditionHandler (negate currentCondition)

variable {F : Type} {cfg : Config F}

structure Tracked where
  code : List PlacedToken
  mstack : List Pos
  st : List Expr
  ds : List Nat
  blocks : List (Pos × Expr)
  visits : List Visit
  evaluated : List Expr

def State.tracked (s : State) : Tracked :=
  ⟨s.code, s.mstack, s.conds.conditionalStack, s.conds.depths, s.dbc.currentBlock, s.visits,
    s.evaluated⟩

namespace Tracked

def visited (T : Tracked) (tk : PlacedToken) (live : Bool) : Tracked :=
  { T with visits := T.visits ++ [⟨tk, live, T.st, T.ds⟩] }

/-- The next token of the lexer and what is left. -/
@[grind =] def lex (cfg : Config F) (T : Tracked) : PlacedToken × Tracked :=
  match T.code with
  | [] => ((.eof, cfg.eofPos), T)
  | tk :: code => (tk, { T with code := code })

end Tracked

/-- The dead block that is opened behind the position `p` under the conditions `st`. -/
def deadBlock (p : Pos) (st : List Expr) : Pos × Expr :=
  ({ p with pmin := p.pmax }, currentCondition st)

/-- `f` returns `tk` and a state tracked as `T'` from every state tracked as `T`. -/
def Returns (f : Nat → M PlacedToken) (T : Tracked) (tk : PlacedToken) (T' : Tracked) : Prop :=
  ∀ s : State, s.tracked = T →
    ∃ s' : State, s'.tracked = T' ∧ Settles (fun n => f n s) (.ok (tk, s'))

def Next (cfg : Config F) := Returns (fun n => nextToken cfg n)

def Processes (cfg : Config F) (tk : PlacedToken) := Returns (fun n => processToken cfg n tk)

def Skips (cfg : Config F) (p : Pos) (test : Bool) := Returns (fun n => skipTokens cfg n p test)

def SkipsFrom (cfg : Config F) (p : Pos) (test : Bool) (tk : PlacedToken) :=
  Returns (fun n => skipTokensLoop cfg n p test tk)

theorem tracked_visited {s : State} {tk : PlacedToken} (notEof : tk.1 ≠ .eof) (live : Bool) :
    (s.visited tk live).tracked = s.tracked.visited tk live := by
  simp [State.visited, notEof, State.tracked, Tracked.visited]

theorem dropDepth_append (inner outer : List Expr) :
    ConditionHandler.dropDepth inner.length (inner ++ outer) = .ok outer := by
  induction inner with
  | nil => rfl
  | cons e inner ih => exact ih

theorem condEnd_append {conds : ConditionHandler} {inner outer : List Expr} {ds : List Nat}
    (st : conds.conditionalStack = inner ++ outer) (depths : conds.depths = inner.length :: ds) :
    conds.condEnd = .ok { conds with conditionalStack := outer, depths := ds } := by
  simp [ConditionHandler.condEnd, depths, st, dropDepth_append, bind, Except.bind, pure,
    Except.pure]

theorem condElse_cons {conds : ConditionHandler} {top : Expr} {el : List Expr}
    (st : conds.conditionalStack = top :: el) :
    conds.condElse = .ok { conds with conditionalStack := negate top :: el } := by
  simp [ConditionHandler.condElse, st]

theorem condElseif_cons {conds : ConditionHandler} {top : Expr} {el : List Expr} {d : Nat}
    {ds : List Nat} (st : conds.conditionalStack = top :: el) (depths : conds.depths = d :: ds)
    (e : Expr) :
    conds.condElseif e = .ok
      { conditionalExpressions := e :: conds.conditionalExpressions
        conditionalStack := e :: negate top :: el
        depths := (d + 1) :: ds } := by
  simp [ConditionHandler.condElseif, condElse_cons st, ConditionHandler.condIf', depths, bind,
    Except.bind]

section Unfolding

theorem modify_apply (f : State → State) (s : State) :
    (modify f : M Unit) s = .ok ((), f s) := rfl

theorem pure_apply {α : Type} (a : α) (s : State) : (pure a : M α) s = .ok (a, s) := rfl

theorem pure_ok {α : Type} (a : α) : (pure a : Except Exn α) = .ok a := rfl

attribute [local simp] bind StateT.bind Except.bind pure_apply pure_ok modify_apply
  modifyGet MonadStateOf.modifyGet StateT.modifyGet get getThe MonadStateOf.get StateT.get

theorem lexToken_lex (s : State) : ∃ s' : State,
    s'.tracked = (s.tracked.lex cfg).2 ∧ lexToken cfg s = .ok ((s.tracked.lex cfg).1, s') := by
  cases code : s.code with
  | nil => exact ⟨s, by simp [State.tracked, Tracked.lex, code],
      by simp [State.tracked, Tracked.lex, lexToken, code]⟩
  | cons tk rest => exact ⟨{ s with code := rest }, by simp [State.tracked, Tracked.lex, code],
      by simp [State.tracked, Tracked.lex, lexToken, code]⟩

theorem parseMacroCond_reads {s : State} {c : Condition cfg} {rest : List PlacedToken}
    (code : s.code = c.tokens ++ rest) :
    parseMacroCond cfg s = .ok (c.e, { s with code := rest }) := by
  simp [parseMacroCond, code, c.reads, reportErrors]

theorem Next.of_processes {T T' : Tracked} {tk : PlacedToken}
    (h : Processes cfg (T.lex cfg).1 (T.lex cfg).2 tk T') : Next cfg T tk T' := by
  rintro s rfl
  obtain ⟨s1, tracked, lexed⟩ := @lexToken_lex _ cfg s
  obtain ⟨s', tracked', settles⟩ := h s1 tracked
  refine ⟨s', tracked', Settles.succ (fun m => ?_) settles⟩
  simp [nextToken, lexed]

theorem Skips.of_skipsFrom {p : Pos} {test : Bool} {T T' : Tracked} {tk : PlacedToken}
    (h : SkipsFrom cfg p test (T.lex cfg).1 (T.lex cfg).2 tk T') : Skips cfg p test T tk T' := by
  rintro s rfl
  obtain ⟨s1, tracked, lexed⟩ := @lexToken_lex _ cfg s
  obtain ⟨s', tracked', settles⟩ := h s1 tracked
  refine ⟨s', tracked', Settles.succ (fun m => ?_) settles⟩
  simp [skipTokens, lexed]

theorem lexToken_back {T : Tracked} {s1 : State} (tracked : s1.tracked = (T.lex cfg).2) :
    ∃ s : State, s.tracked = T ∧ lexToken cfg s = .ok ((T.lex cfg).1, s1) := by
  obtain ⟨code, mstack, st, ds, blocks, visits, evaluated⟩ := T
  cases code with
  | nil =>
    have empty : s1.code = [] := congrArg Tracked.code tracked
    exact ⟨s1, tracked, by simp [lexToken, empty, Tracked.lex]⟩
  | cons tk code =>
    simp only [Tracked.lex, State.tracked, Tracked.mk.injEq] at tracked
    obtain ⟨rfl, rfl, rfl, rfl, rfl, rfl, rfl⟩ := tracked
    exact ⟨{ s1 with code := tk :: s1.code }, rfl, rfl⟩

/-- A token that is passed on is processed as if it were read now. -/
theorem Next.processes {T T' : Tracked} {tk : PlacedToken} (h : Next cfg T tk T') :
    Processes cfg (T.lex cfg).1 (T.lex cfg).2 tk T' := by
  intro s1 tracked
  obtain ⟨s, rfl, lexed⟩ := lexToken_back tracked
  obtain ⟨s', tracked', n, settled⟩ := h s rfl
  refine ⟨s', tracked', n, fun m hm => ?_⟩
  have unfolded := settled (m + 1) (by omega)
  simpa [nextToken, lexed] using unfolded

theorem Skips.skipsFrom {p : Pos} {test : Bool} {T T' : Tracked} {tk : PlacedToken}
    (h : Skips cfg p test T tk T') : SkipsFrom cfg p test (T.lex cfg).1 (T.lex cfg).2 tk T' := by
  intro s1 tracked
  obtain ⟨s, rfl, lexed⟩ := lexToken_back tracked
  obtain ⟨s', tracked', n, settled⟩ := h s rfl
  refine ⟨s', tracked', n, fun m hm => ?_⟩
  have unfolded := settled (m + 1) (by omega)
  simpa [skipTokens, lexed] using unfolded

/-! ## `process_token` -/

section

attribute [local simp] processToken visit

theorem Processes.plain {T : Tracked} {tk : PlacedToken} (plain : isPlain tk.1 = true)
    (notComment : isComment tk.1 = false) : Processes cfg tk T tk (T.visited tk true) := by
  rintro s rfl
  obtain ⟨t, p⟩ := tk
  refine ⟨s.visited (t, p) true, tracked_visited (by rintro rfl; cases plain) true,
    Settles.done fun m => ?_⟩
  cases t <;> simp_all [isPlain, isComment]

theorem Processes.eof {T : Tracked} {p : Pos} : Processes cfg (.eof, p) T (.eof, p) T := by
  rintro s rfl
  refine ⟨s, rfl, Settles.done fun m => ?_⟩
  simp [State.visited]

theorem Processes.comment {T T' : Tracked} {p : Pos} {text : String} {tk : PlacedToken}
    (next : Next cfg (T.visited (.comment text, p) true) tk T') :
    Processes cfg (.comment text, p) T tk T' := by
  rintro s rfl
  have start := @tracked_visited s (.comment text, p) (by simp) true
  obtain ⟨s', tracked, settles⟩ := next _ start
  cases found : docText text with
  | some d =>
    refine ⟨{ s' with lastDoc := some (d, p.pmin) }, tracked, Settles.step settles fun m call => ?_⟩
    simp [call, setLastDoc, found]
  | none =>
    refine ⟨s', tracked, Settles.step settles fun m call => ?_⟩
    simp [call, setLastDoc, found]

theorem Processes.commentLine {T T' : Tracked} {p : Pos} {text : String} {tk : PlacedToken}
    (quiet : completesAt cfg p = false)
    (next : Next cfg (T.visited (.commentLine text, p) true) tk T') :
    Processes cfg (.commentLine text, p) T tk T' := by
  rintro s rfl
  have start := @tracked_visited s (.commentLine text, p) (by simp) true
  obtain ⟨s', tracked, settles⟩ := next _ start
  refine ⟨s', tracked, Settles.succ (fun m => ?_) settles⟩
  simp [quiet]

theorem Processes.endif {T T' : Tracked} {p p' : Pos} {l : List Pos}
    (inner : List Expr) {outer : List Expr} {ds : List Nat} {tk : PlacedToken}
    (mstack : T.mstack = p' :: l)
    (st : T.st = inner ++ outer) (depths : T.ds = inner.length :: ds)
    (next : Next cfg { T.visited (.sharp "end", p) true with mstack := l, st := outer, ds := ds }
      tk T') :
    Processes cfg (.sharp "end", p) T tk T' := by
  rintro s rfl
  have ended := condEnd_append st depths
  obtain ⟨s', tracked, settles⟩ := next
    { s.visited (.sharp "end", p) true with
      conds := { s.conds with conditionalStack := outer, depths := ds }, mstack := l } rfl
  refine ⟨s', tracked, Settles.succ (fun m => ?_) settles⟩
  have open_ : s.mstack = p' :: l := mstack
  simp [State.visited, open_, onConds, ended, setMstack]

/-- An `#elseif` behind a live branch: everything up to the `#end` is skipped. -/
theorem Processes.elseif {T T1 T' : Tracked} {p p' : Pos} {l : List Pos} {top : Expr}
    {el : List Expr} {d : Nat} {ds : List Nat} {c : Condition cfg} {rest : List PlacedToken}
    {tk1 tk : PlacedToken} (mstack : T.mstack = p' :: l) (st : T.st = top :: el)
    (depths : T.ds = d :: ds) (code : T.code = c.tokens ++ rest)
    (skips : Skips cfg p false
      { T.visited (.sharp "elseif", p) true with
        code := rest, mstack := l, st := c.e :: negate top :: el, ds := (d + 1) :: ds
        blocks := deadBlock c.e.pos (c.e :: negate top :: el) :: T.blocks } tk1 T1)
    (next : Processes cfg tk1 T1 tk T') : Processes cfg (.sharp "elseif", p) T tk T' := by
  rintro s rfl
  have negated := condElseif_cons st depths c.e
  obtain ⟨s1, tracked1, settles1⟩ := skips
    { s.visited (.sharp "elseif", p) true with
      code := rest, mstack := l
      conds := { conditionalExpressions := c.e :: s.conds.conditionalExpressions
                 conditionalStack := c.e :: negate top :: el, depths := (d + 1) :: ds }
      dbc := { s.dbc with
        currentBlock := deadBlock c.e.pos (c.e :: negate top :: el) :: s.dbc.currentBlock } } rfl
  obtain ⟨s', tracked, settles⟩ := next s1 tracked1
  refine ⟨s', tracked, Settles.step₂ settles1 settles fun m call call2 => ?_⟩
  have open_ : s.mstack = p' :: l := mstack
  have reads := parseMacroCond_reads (s := s.visited (.sharp "elseif", p) true) code
  simp only [State.visited, reduceCtorEq, if_false, deadBlock, open_] at call reads
  simp [State.visited, open_, reads, onConds, negated, openDeadBlock,
    DeadBlockCollector.openDeadBlock, ConditionHandler.getCurrentCondition, setMstack, call,
    call2]

theorem Processes.else_ {T T1 T' : Tracked} {p p' : Pos} {l : List Pos} {top : Expr}
    {el : List Expr} {tk1 tk : PlacedToken} (mstack : T.mstack = p' :: l)
    (st : T.st = top :: el)
    (skips : Skips cfg p false
      { T.visited (.sharp "else", p) true with
        mstack := l, st := negate top :: el
        blocks := deadBlock p (negate top :: el) :: T.blocks } tk1 T1)
    (next : Processes cfg tk1 T1 tk T') : Processes cfg (.sharp "else", p) T tk T' := by
  rintro s rfl
  have negated := condElse_cons st
  obtain ⟨s1, tracked1, settles1⟩ := skips
    { s.visited (.sharp "else", p) true with
      mstack := l, conds := { s.conds with conditionalStack := negate top :: el }
      dbc := { s.dbc with
        currentBlock := deadBlock p (negate top :: el) :: s.dbc.currentBlock } } rfl
  obtain ⟨s', tracked, settles⟩ := next s1 tracked1
  refine ⟨s', tracked, Settles.step₂ settles1 settles fun m call call2 => ?_⟩
  have open_ : s.mstack = p' :: l := mstack
  simp only [State.visited, reduceCtorEq, if_false, deadBlock] at call
  simp [State.visited, open_, onConds, negated, openDeadBlock,
    DeadBlockCollector.openDeadBlock, ConditionHandler.getCurrentCondition, setMstack, call,
    call2]

theorem Processes.line {T T' : Tracked} {p p2 : Pos} {text : String} {rest : List PlacedToken}
    {tk : PlacedToken} (code : T.code = (.const (.int text), p2) :: rest)
    (number : (cfg.numbers.intOfString text).isSome = true)
    (next : Next cfg
      { (T.visited (.sharp "line", p) true).visited (.const (.int text), p2) true with
        code := rest } tk T') :
    Processes cfg (.sharp "line", p) T tk T' := by
  rintro s rfl
  obtain ⟨line, number⟩ := Option.isSome_iff_exists.1 number
  have text' : s.code = (.const (.int text), p2) :: rest := code
  have first : Next cfg (s.tracked.visited (.sharp "line", p) true) (.const (.int text), p2)
      { (s.tracked.visited (.sharp "line", p) true).visited (.const (.int text), p2) true with
        code := rest } := by
    refine Next.of_processes ?_
    simp only [Tracked.lex, Tracked.visited, code]
    exact Processes.plain rfl rfl
  have start := @tracked_visited s (.sharp "line", p) (by simp) true
  obtain ⟨s1, tracked1, settles1⟩ := first _ start
  obtain ⟨s', tracked, settles⟩ := next { s1 with lline := line - 1 } tracked1
  refine ⟨s', tracked, Settles.step₂ settles1 settles fun m call call2 => ?_⟩
  simp [call, number, call2]

/-! ## `enter_macro` -/

/-- The tracked state in front of the branch that the condition `e` opens. -/
def Tracked.entered (T : Tracked) (isIf : Bool) (e : Expr) (rest : List PlacedToken) : Tracked :=
  { T with
    code := rest
    st := e :: if isIf then T.st else negateTop T.st
    ds := if isIf then 1 :: T.ds else deepen T.ds
    evaluated := T.evaluated ++ [e] }

theorem evalCond_holds {e : Expr} (evaluates : Evaluates cfg e) (s : State) :
    evalCond cfg e s = .ok (holds cfg e, { s with evaluated := s.evaluated ++ [e] }) := by
  obtain ⟨v, value⟩ := evaluates
  simp [evalCond, holds, value]

/-- `enter_macro` reads the condition and one token before it evaluates the condition. -/
theorem enterMacro_entered {s : State} {isIf : Bool} {c : Condition cfg}
    {rest : List PlacedToken} (p : Pos) (code : s.code = c.tokens ++ rest)
    (open_ : isIf = false → s.conds.conditionalStack ≠ [] ∧ s.conds.depths ≠ [])
    (evaluates : Evaluates cfg c.e) :
    ∃ s2 : State, s2.tracked = ((s.tracked.entered isIf c.e rest).lex cfg).2 ∧
      ∀ n, enterMacro cfg (n + 1) isIf p s =
        if holds cfg c.e then
          .ok (((s.tracked.entered isIf c.e rest).lex cfg).1,
            { s2 with mstack := p :: s2.mstack })
        else skipTokensLoop cfg n p true ((s.tracked.entered isIf c.e rest).lex cfg).1
          { s2 with dbc := s2.dbc.openDeadBlock s2.conds c.e.pos } := by
  obtain ⟨conds, stack, depths, pushed⟩ : ∃ conds : ConditionHandler,
      (conds.conditionalStack = c.e :: if isIf then s.conds.conditionalStack
        else negateTop s.conds.conditionalStack) ∧
      (conds.depths = if isIf then 1 :: s.conds.depths else deepen s.conds.depths) ∧
      if isIf then s.conds.condIf c.e = conds else s.conds.condElseif c.e = .ok conds := by
    cases isIf with
    | true => exact ⟨s.conds.condIf c.e, rfl, rfl, rfl⟩
    | false =>
      obtain ⟨top, el, stack⟩ := List.exists_cons_of_ne_nil (open_ rfl).1
      obtain ⟨d, ds, depths⟩ := List.exists_cons_of_ne_nil (open_ rfl).2
      exact ⟨_, by simp [stack, negateTop], by simp [depths, deepen],
        condElseif_cons stack depths c.e⟩
  refine ⟨{ s with
    code := rest.tail, conds := conds, evaluated := s.evaluated ++ [c.e] }, ?_, fun n => ?_⟩
  · cases rest <;> simp [State.tracked, Tracked.entered, Tracked.lex, stack, depths]
  · have value := evalCond_holds evaluates
    have reads := parseMacroCond_reads code
    cases isIf <;> cases rest <;> cases taken : holds cfg c.e <;> simp at pushed <;>
      simp [enterMacro, reads, pushed, onConds, lexToken, value, taken, Tracked.entered,
        Tracked.lex, State.tracked, openDeadBlock]

theorem enterMacro_taken {T : Tracked} {isIf : Bool} {c : Condition cfg}
    {rest : List PlacedToken} (p : Pos) (code : T.code = c.tokens ++ rest)
    (open_ : isIf = false → T.st ≠ [] ∧ T.ds ≠ []) (evaluates : Evaluates cfg c.e)
    (taken : holds cfg c.e = true) :
    Returns (fun n => enterMacro cfg n isIf p) T
      (({ T.entered isIf c.e rest with mstack := p :: T.mstack } : Tracked).lex cfg).1
      (({ T.entered isIf c.e rest with mstack := p :: T.mstack } : Tracked).lex cfg).2 := by
  rintro s rfl
  obtain ⟨s2, tracked, enters⟩ := enterMacro_entered p code open_ evaluates
  refine ⟨{ s2 with mstack := p :: s2.mstack }, ?_, Settles.done fun m => ?_⟩
  · cases rest <;> simp_all [State.tracked, Tracked.entered, Tracked.lex]
  · refine (enters m).trans ?_
    rw [if_pos taken]
    cases rest <;> rfl

theorem enterMacro_skipped {T T' : Tracked} {isIf : Bool} {c : Condition cfg}
    {rest : List PlacedToken} {p : Pos} {tk : PlacedToken} (code : T.code = c.tokens ++ rest)
    (open_ : isIf = false → T.st ≠ [] ∧ T.ds ≠ []) (evaluates : Evaluates cfg c.e)
    (notTaken : holds cfg c.e = false)
    (skips : Skips cfg p true
      { T.entered isIf c.e rest with
        blocks := deadBlock c.e.pos (T.entered isIf c.e rest).st :: T.blocks } tk T') :
    Returns (fun n => enterMacro cfg n isIf p) T tk T' := by
  rintro s rfl
  obtain ⟨s2, tracked, enters⟩ := enterMacro_entered p code open_ evaluates
  obtain ⟨s', tracked', settles⟩ := skips.skipsFrom
    { s2 with dbc := s2.dbc.openDeadBlock s2.conds c.e.pos } (by
      cases rest <;>
        simp_all [State.tracked, Tracked.entered, Tracked.lex, deadBlock,
          DeadBlockCollector.openDeadBlock, ConditionHandler.getCurrentCondition])
  refine ⟨s', tracked', Settles.succ (fun m => ?_) settles⟩
  refine (enters m).trans ?_
  rw [if_neg (by simp [notTaken])]
  cases rest <;> rfl

theorem Processes.if_ {T T1 T' : Tracked} {p : Pos} {tk1 tk : PlacedToken}
    (enters : Returns (fun n => enterMacro cfg n true p) (T.visited (.sharp "if", p) true) tk1 T1)
    (next : Processes cfg tk1 T1 tk T') : Processes cfg (.sharp "if", p) T tk T' := by
  rintro s rfl
  have start := @tracked_visited s (.sharp "if", p) (by simp) true
  obtain ⟨s1, tracked1, settles1⟩ := enters _ start
  obtain ⟨s', tracked, settles⟩ := next s1 tracked1
  refine ⟨s', tracked, Settles.step₂ settles1 settles fun m call call2 => ?_⟩
  simp [call, call2]

end

/-! ## `skip_tokens_loop` -/

section

attribute [local simp] skipTokensLoop visit

theorem SkipsFrom.dead {T T' : Tracked} {p : Pos} {test : Bool} {t tk : PlacedToken}
    (dead : isPlain t.1 = true ∨ t.1 = .sharp "error" ∨ t.1 = .sharp "line")
    (skips : Skips cfg p test (T.visited t false) tk T') : SkipsFrom cfg p test t T tk T' := by
  rintro s rfl
  obtain ⟨t, pt⟩ := t
  have notEof : t ≠ .eof := by rintro rfl; simp [isPlain] at dead
  obtain ⟨s', tracked, settles⟩ := skips _ (tracked_visited (s := s) notEof false)
  refine ⟨s', tracked, Settles.succ (fun m => ?_) settles⟩
  obtain plain | rfl | rfl := dead
  · cases t <;> simp_all [isPlain]
  · simp
  · simp

theorem SkipsFrom.endif {T : Tracked} {p p' : Pos} {test : Bool} (inner : List Expr)
    {outer : List Expr} {ds : List Nat} {b : Pos × Expr} {bs : List (Pos × Expr)}
    (st : T.st = inner ++ outer)
    (depths : T.ds = inner.length :: ds) (blocks : T.blocks = b :: bs) :
    SkipsFrom cfg p test (.sharp "end", p') T
      (({ T.visited (.sharp "end", p') false with st := outer, ds := ds, blocks := bs } :
        Tracked).lex cfg).1
      (({ T.visited (.sharp "end", p') false with st := outer, ds := ds, blocks := bs } :
        Tracked).lex cfg).2 := by
  rintro s rfl
  have ended := condEnd_append st depths
  have block : s.dbc.currentBlock = b :: bs := blocks
  obtain ⟨s', tracked, lexed⟩ := @lexToken_lex _ cfg
    { s.visited (.sharp "end", p') false with
      conds := { s.conds with conditionalStack := outer, depths := ds }
      dbc := ⟨s.dbc.deadBlocks ++ [({ b.1 with pmax := p'.pmin }, b.2)], bs⟩ }
  refine ⟨s', tracked, Settles.done fun m => ?_⟩
  simp only [State.visited, reduceCtorEq, if_false] at lexed
  simp [State.visited, onConds, ended, closeDeadBlock,
    DeadBlockCollector.closeDeadBlock, block, lexed]
  rfl

theorem closeDeadBlock_cons {s : State} {b : Pos × Expr} {bs : List (Pos × Expr)}
    (blocks : s.dbc.currentBlock = b :: bs) (p : Pos) :
    ∃ dbc : DeadBlockCollector, closeDeadBlock p s = .ok ((), { s with dbc := dbc }) ∧
      dbc.currentBlock = bs :=
  ⟨⟨s.dbc.deadBlocks ++ [({ b.1 with pmax := p.pmin }, b.2)], bs⟩,
    by simp [closeDeadBlock, DeadBlockCollector.closeDeadBlock, blocks], rfl⟩

/-- Behind the branch that was taken, an `#elseif` opens no branch. -/
theorem SkipsFrom.elseif {T T' : Tracked} {p p' : Pos} {top : Expr} {el : List Expr} {d : Nat}
    {ds : List Nat} {b : Pos × Expr} {bs : List (Pos × Expr)} {c : Condition cfg}
    {rest : List PlacedToken} {tk : PlacedToken} (st : T.st = top :: el) (depths : T.ds = d :: ds)
    (blocks : T.blocks = b :: bs) (code : T.code = c.tokens ++ rest)
    (skips : Skips cfg p false
      { T.visited (.sharp "elseif", p') false with
        code := rest, st := c.e :: negate top :: el, ds := (d + 1) :: ds
        blocks := deadBlock c.e.pos (c.e :: negate top :: el) :: bs } tk T') :
    SkipsFrom cfg p false (.sharp "elseif", p') T tk T' := by
  rintro s rfl
  obtain ⟨dbc, closed, closedBlocks⟩ := closeDeadBlock_cons
    (s := s.visited (.sharp "elseif", p') false) blocks p'
  have reads := parseMacroCond_reads
    (s := { s.visited (.sharp "elseif", p') false with dbc := dbc }) code
  have negated := condElseif_cons st depths c.e
  obtain ⟨s', tracked, settles⟩ := skips
    { s.visited (.sharp "elseif", p') false with
      code := rest
      conds := { conditionalExpressions := c.e :: s.conds.conditionalExpressions
                 conditionalStack := c.e :: negate top :: el, depths := (d + 1) :: ds }
      dbc := { dbc with
        currentBlock := deadBlock c.e.pos (c.e :: negate top :: el) :: dbc.currentBlock } }
    (by simp [State.tracked, closedBlocks, State.visited, Tracked.visited])
  refine ⟨s', tracked, Settles.succ (fun m => ?_) settles⟩
  simp only [State.visited, reduceCtorEq, if_false] at closed reads
  simp [State.visited, closed, reads, onConds, negated, openDeadBlock,
    DeadBlockCollector.openDeadBlock, ConditionHandler.getCurrentCondition, deadBlock]

theorem SkipsFrom.else_ {T T' : Tracked} {p p' : Pos} {top : Expr} {el : List Expr}
    {b : Pos × Expr} {bs : List (Pos × Expr)} {tk : PlacedToken} (st : T.st = top :: el)
    (blocks : T.blocks = b :: bs)
    (skips : Skips cfg p false
      { T.visited (.sharp "else", p') false with
        st := negate top :: el, blocks := deadBlock p' (negate top :: el) :: bs } tk T') :
    SkipsFrom cfg p false (.sharp "else", p') T tk T' := by
  rintro s rfl
  have negated := condElse_cons st
  obtain ⟨dbc, closed, closedBlocks⟩ := closeDeadBlock_cons
    (s := { s.visited (.sharp "else", p') false with
      conds := { s.conds with conditionalStack := negate top :: el } }) blocks p'
  obtain ⟨s', tracked, settles⟩ := skips
    { s.visited (.sharp "else", p') false with
      conds := { s.conds with conditionalStack := negate top :: el }
      dbc := { dbc with
        currentBlock := deadBlock p' (negate top :: el) :: dbc.currentBlock } }
    (by simp [State.tracked, closedBlocks, State.visited, Tracked.visited])
  refine ⟨s', tracked, Settles.succ (fun m => ?_) settles⟩
  simp only [State.visited, reduceCtorEq, if_false] at closed
  simp [State.visited, closed, onConds, negated, openDeadBlock,
    DeadBlockCollector.openDeadBlock, ConditionHandler.getCurrentCondition, deadBlock]

/-- When no branch was taken, an `#else` ends the skipping. -/
theorem SkipsFrom.else_entered {T : Tracked} {p p' : Pos} {top : Expr} {el : List Expr}
    {b : Pos × Expr} {bs : List (Pos × Expr)} (st : T.st = top :: el)
    (blocks : T.blocks = b :: bs) :
    SkipsFrom cfg p true (.sharp "else", p') T
      (({ T.visited (.sharp "else", p') false with
        st := negate top :: el, blocks := bs, mstack := p' :: T.mstack } : Tracked).lex cfg).1
      (({ T.visited (.sharp "else", p') false with
        st := negate top :: el, blocks := bs, mstack := p' :: T.mstack } : Tracked).lex cfg).2 := by
  rintro s rfl
  have negated := condElse_cons st
  obtain ⟨dbc, closed, closedBlocks⟩ := closeDeadBlock_cons
    (s := { s.visited (.sharp "else", p') false with
      conds := { s.conds with conditionalStack := negate top :: el } }) blocks p'
  obtain ⟨s', tracked, lexed⟩ := @lexToken_lex _ cfg
    { s.visited (.sharp "else", p') false with
      conds := { s.conds with conditionalStack := negate top :: el }
      dbc := dbc, mstack := p' :: s.mstack }
  subst closedBlocks
  refine ⟨s', tracked, Settles.done fun m => ?_⟩
  simp only [State.visited, reduceCtorEq, if_false] at closed lexed
  simp [State.visited, closed, onConds, negated, lexed]
  rfl

theorem SkipsFrom.elseif_entered {T T' : Tracked} {p p' : Pos} {b : Pos × Expr}
    {bs : List (Pos × Expr)} {tk : PlacedToken} (blocks : T.blocks = b :: bs)
    (enters : Returns (fun n => enterMacro cfg n false p')
      { T.visited (.sharp "elseif", p') false with blocks := bs } tk T') :
    SkipsFrom cfg p true (.sharp "elseif", p') T tk T' := by
  rintro s rfl
  obtain ⟨dbc, closed, closedBlocks⟩ := closeDeadBlock_cons
    (s := s.visited (.sharp "elseif", p') false) blocks p'
  obtain ⟨s', tracked, settles⟩ := enters
    { s.visited (.sharp "elseif", p') false with dbc := dbc }
    (by simp [State.tracked, closedBlocks, State.visited, Tracked.visited])
  refine ⟨s', tracked, Settles.succ (fun m => ?_) settles⟩
  simp only [State.visited, reduceCtorEq, if_false] at closed
  simp [State.visited, closed]

theorem SkipsFrom.if_ {T T1 T' : Tracked} {p p' : Pos} {test : Bool} {c : Condition cfg}
    {rest : List PlacedToken} {tk1 tk : PlacedToken} (code : T.code = c.tokens ++ rest)
    (skips : Skips cfg p false
      { T.visited (.sharp "if", p') false with
        code := rest, st := c.e :: T.st, ds := 1 :: T.ds
        blocks := deadBlock c.e.pos (c.e :: T.st) :: T.blocks } tk1 T1)
    (next : SkipsFrom cfg p test tk1 T1 tk T') :
    SkipsFrom cfg p test (.sharp "if", p') T tk T' := by
  rintro s rfl
  have reads := parseMacroCond_reads (s := s.visited (.sharp "if", p') false) code
  obtain ⟨s1, tracked1, settles1⟩ := skips
    { s.visited (.sharp "if", p') false with
      code := rest, conds := s.conds.condIf c.e
      dbc := { s.dbc with
        currentBlock := deadBlock c.e.pos (c.e :: s.conds.conditionalStack) ::
          s.dbc.currentBlock } } rfl
  obtain ⟨s', tracked, settles⟩ := next s1 tracked1
  refine ⟨s', tracked, Settles.step₂ settles1 settles fun m call call2 => ?_⟩
  simp only [State.visited, reduceCtorEq, if_false, deadBlock] at call reads
  simp [State.visited, reads, openDeadBlock,
    DeadBlockCollector.openDeadBlock, ConditionHandler.getCurrentCondition,
    ConditionHandler.condIf, ConditionHandler.condIf'] at call ⊢
  simp [call, call2]

/-- In display mode the end of the file is passed on, and no dead block is closed. -/
theorem SkipsFrom.eof (display : cfg.inDisplay = true) {T : Tracked} {p p' : Pos} {test : Bool} :
    SkipsFrom cfg p test (.eof, p') T (.eof, p') T := by
  rintro s rfl
  refine ⟨{ s with syntaxErrors := (ErrorMsg.unclosedConditional,
    if p.pmax = maxInt then { p with pmax := p.pmin + 1 } else p) :: s.syntaxErrors }, rfl,
    Settles.done fun m => ?_⟩
  simp [State.visited, syntaxError, display]

end

end Unfolding

end Haxe.Source.Syntax
