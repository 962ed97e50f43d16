import Mathlib.Algebra.Group.Int.Defs
import Haxe.Source.Syntax.MacroCondition
import Haxe.Source.Syntax.Parser

/-!
# The token source of the parser

`parserEntry.ml`: `parse` with its three mutually recursive functions over one lexer.
The text is the list of its tokens; at its end the lexer gives `Eof` for ever. What the
grammar does with the tokens is left out, it reads until `Eof`. `evaluated` and `visits`
are not in the source: they record which conditions `eval` was called on, and at which
token the source was, skipping or not, with which conditions.
-/

namespace Haxe.Source.Syntax

open Typing (Pos punion nullPos)

/-- The exceptions that leave `parse`. -/
inductive Exn where
  | error (msg : ErrorMsg) (p : Pos)
  | syntaxCompletion (p : Pos)
  | streamError
  | die
  | assertFailure
  | outOfFuel
  deriving DecidableEq, Repr

/-! ## Conditions -/

structure ConditionHandler where
  conditionalExpressions : List Expr
  conditionalStack : List Expr
  depths : List Nat

namespace ConditionHandler

def maybeParent (allowAnd : Bool) : Expr → Expr
  | .eBinop op e1 e2 p =>
    if op = .opBoolAnd && allowAnd then .eBinop op e1 e2 p
    else .eParenthesis (.eBinop op e1 e2 p) p
  | e => e

def negate : Expr → Expr
  | .eUnop .not _ e1 _ => e1
  | .eBinop .opBoolAnd e1 e2 p => .eBinop .opBoolOr (negate e1) (negate e2) p
  | .eBinop .opBoolOr e1 e2 p => .eBinop .opBoolAnd (negate e1) (negate e2) p
  | e => .eUnop .not .prefixFlag e e.pos

def conjoin (lhs rhs : Expr) : Expr :=
  let lhs := maybeParent true lhs
  let rhs := maybeParent true rhs
  .eBinop .opBoolAnd lhs rhs (punion lhs.pos rhs.pos)

def condIf' (conds : ConditionHandler) (e : Expr) : ConditionHandler :=
  { conds with
    conditionalExpressions := e :: conds.conditionalExpressions
    conditionalStack := e :: conds.conditionalStack }

def condIf (conds : ConditionHandler) (e : Expr) : ConditionHandler :=
  { conds.condIf' e with depths := 1 :: conds.depths }

def condElse (conds : ConditionHandler) : Except Exn ConditionHandler :=
  match conds.conditionalStack with
  | e :: el => .ok { conds with conditionalStack := negate e :: el }
  | [] => .error .die

def condElseif (conds : ConditionHandler) (e : Expr) : Except Exn ConditionHandler := do
  let conds := (← conds.condElse).condIf' e
  match conds.depths with
  | [] => .error .die
  | depth :: depths => .ok { conds with depths := (depth + 1) :: depths }

/-- `loop` of `cond_end`; `List.tl` fails on an empty stack. -/
def dropDepth : Nat → List Expr → Except Exn (List Expr)
  | 0, el => .ok el
  | _ + 1, [] => .error .die
  | d + 1, _ :: el => dropDepth d el

def condEnd (conds : ConditionHandler) : Except Exn ConditionHandler :=
  match conds.depths with
  | [] => .error .die
  | depth :: depths => do
    return { conds with
      conditionalStack := ← dropDepth depth conds.conditionalStack
      depths := depths }

/-- `get_current_condition`, of the conditional stack. -/
def currentCondition : List Expr → Expr
  | e :: el => el.foldl conjoin e
  | [] => .eConst (.ident "true") nullPos

def getCurrentCondition (conds : ConditionHandler) : Expr :=
  currentCondition conds.conditionalStack

end ConditionHandler

structure DeadBlockCollector where
  deadBlocks : List (Pos × Expr)
  currentBlock : List (Pos × Expr)

namespace DeadBlockCollector

def openDeadBlock (dbc : DeadBlockCollector) (conds : ConditionHandler) (p : Pos) :
    DeadBlockCollector :=
  { dbc with
    currentBlock := ({ p with pmin := p.pmax }, conds.getCurrentCondition) :: dbc.currentBlock }

@[grind =]
def closeDeadBlock (dbc : DeadBlockCollector) (p : Pos) : Except Exn DeadBlockCollector :=
  match dbc.currentBlock with
  | [] => .error (.error
      (.custom "Internal error: Trying to close dead block that's not open") p)
  | (p0, cond) :: pl =>
    .ok { deadBlocks := dbc.deadBlocks ++ [({ p0 with pmax := p.pmin }, cond)]
          currentBlock := pl }

def getDeadBlocks (dbc : DeadBlockCollector) : Except Exn (List (Pos × Expr)) :=
  if dbc.currentBlock.isEmpty then .ok dbc.deadBlocks else .error .assertFailure

end DeadBlockCollector

/-! ## The state of `parse` -/

/-- The token source was at `token` and was skipping unless `live`. -/
structure Visit where
  token : PlacedToken
  live : Bool
  conditionalStack : List Expr
  depths : List Nat

structure State where
  code : List PlacedToken
  mstack : List Pos
  conds : ConditionHandler
  dbc : DeadBlockCollector
  lastDoc : Option (String × Int)
  syntaxErrors : List PlacedError
  lline : Int
  evaluated : List Expr
  visits : List Visit

/-- What `parse` is run with: display mode, the defines, and the parts of the compiler
that the token source calls. -/
structure Config (F : Type) where
  inDisplay : Bool
  inDisplayFile : Bool
  isCompletion : Bool
  enclosedIn : Pos → Bool
  definedValue : String → Option String
  /-- Every context defines `true`, and `get_current_condition` relies on it. -/
  trueDefined : (definedValue "true").isSome = true
  numbers : Numbers F
  /-- The rule `expr` of the grammar, while `parsing_macro_cond` is set. -/
  expr : List PlacedToken → Option (Expr × List PlacedToken)
  stringError : String → String
  eofPos : Pos

abbrev M := StateT State (Except Exn)

section Entry

variable {F : Type} (cfg : Config F)

def raise {α : Type} (e : Exn) : M α := fun _ => .error e

/-- `Lexer.token code`. -/
@[grind =] def lexToken : M PlacedToken := fun s =>
  match s.code with
  | [] => .ok ((.eof, cfg.eofPos), s)
  | tk :: code => .ok (tk, { s with code := code })

/-- `max_int` of a 64-bit OCaml. -/
def maxInt : Int := 2 ^ 62 - 1

def syntaxError (msg : ErrorMsg) (p : Pos) : M Unit := fun s =>
  let p := if p.pmax = maxInt then { p with pmax := p.pmin + 1 } else p
  if cfg.inDisplay then .ok ((), { s with syntaxErrors := (msg, p) :: s.syntaxErrors })
  else .error (.error msg p)

mutual

/-- `validate_macro_cond`, with the errors it reports, last first. -/
def validateMacroCond : Expr → Expr × List PlacedError
  | .eConst (.regexp _ _) p =>
    (.eConst (.ident "false") p, [(.custom "Invalid conditional expression", p)])
  | .eConst c p => (.eConst c p, [])
  | .eUnop op flag e1 p =>
    let (e1, errors) := validateMacroCond e1
    (.eUnop op flag e1 p, errors)
  | .eBinop op e1 e2 p =>
    let (e2, errors2) := validateMacroCond e2
    let (e1, errors1) := validateMacroCond e1
    (.eBinop op e1 e2 p, errors1 ++ errors2)
  | .eParenthesis e1 p =>
    let (e1, errors) := validateMacroCond e1
    (.eParenthesis e1 p, errors)
  | .eField e1 name p =>
    let (e1, errors) := validateMacroCond e1
    (.eField e1 name p, errors)
  | .eCall (.eConst (.ident i) pi) args p =>
    let (args, errors) := validateArgs args
    (.eCall (.eConst (.ident i) pi) args p, errors)
  | e => (.eConst (.ident "false") e.pos, [(.custom "Invalid conditional expression", e.pos)])

def validateArgs : List Expr → List Expr × List PlacedError
  | [] => ([], [])
  | e :: args =>
    let (e, errors1) := validateMacroCond e
    let (args, errors2) := validateArgs args
    (e :: args, errors2 ++ errors1)

end

/-- What `parse_macro_cond` reads. -/
def macroCond : List PlacedToken → Option ((Expr × List PlacedError) × List PlacedToken)
  | (.const (.ident t), p) :: s => some ((.eConst (.ident t) p, []), s)
  | (.const (.string t qs), p) :: s => some ((.eConst (.string t qs) p, []), s)
  | (.const (.int i), p) :: s => some ((.eConst (.int i) p, []), s)
  | (.const (.float f), p) :: s => some ((.eConst (.float f) p, []), s)
  | (.kwd k, p) :: s => some ((.eConst (.ident (sKeyword k)) p, []), s)
  | (.unop op, p) :: s =>
    match macroCond s with
    | some ((e, errors), s) => some ((makeUnop op p e, errors), s)
    | none => none
  | (.pOpen, p1) :: s =>
    match cfg.expr s with
    | some (e, (.pClose, p2) :: s) =>
      let (e, errors) := validateMacroCond e
      some ((.eParenthesis e (punion p1 p2), errors), s)
    | _ => none
  | _ => none

def reportErrors : List PlacedError → M Unit
  | [] => pure ()
  | (msg, p) :: errors => do
    reportErrors errors
    syntaxError cfg msg p

def parseMacroCond : M Expr := do
  match macroCond cfg (← get).code with
  | none => raise .streamError
  | some ((e, errors), code) =>
    modify fun s => { s with code := code }
    reportErrors cfg errors
    return e

@[grind =] def onConds (f : ConditionHandler → Except Exn ConditionHandler) : M Unit := fun s =>
  match f s.conds with
  | .ok conds => .ok ((), { s with conds := conds })
  | .error e => .error e

def openDeadBlock (p : Pos) : M Unit :=
  modify fun s => { s with dbc := s.dbc.openDeadBlock s.conds p }

@[grind =] def closeDeadBlock (p : Pos) : M Unit := fun s =>
  match s.dbc.closeDeadBlock p with
  | .ok dbc => .ok ((), { s with dbc := dbc })
  | .error e => .error e

def setMstack (mstack : List Pos) : M Unit := modify fun s => { s with mstack := mstack }

def sharpError {α : Type} (s : String) (p : Pos) : M α :=
  raise (.error (.custom (cfg.stringError s)) p)

/-- `is_true (eval ctx e)`, recorded. -/
def evalCond (e : Expr) : M Bool := fun s =>
  match eval cfg.numbers cfg.definedValue e with
  | .ok v => .ok (isTrue cfg.numbers v, { s with evaluated := s.evaluated ++ [e] })
  | .error (msg, p) => .error (.error msg p)

/-- Records the token; the end of the file is no position. -/
def State.visited (s : State) (tk : PlacedToken) (live : Bool) : State :=
  if tk.1 = .eof then s else
    { s with visits := s.visits ++
        [⟨tk, live, s.conds.conditionalStack, s.conds.depths⟩] }

def visit (tk : PlacedToken) (live : Bool) : M Unit := modify (State.visited · tk live)

/-- The text of a documentation comment without its stars. -/
def docText (s : String) : Option String :=
  match s.toList with
  | '*' :: text =>
    some (String.ofList (if text.getLast? = some '*' then text.dropLast else text))
  | _ => none

def setLastDoc (s : String) (p : Pos) : M Unit := modify fun st =>
  match docText s with
  | some text => { st with lastDoc := some (text, p.pmin) }
  | none => st

/-- The completion that a line comment in the display file raises. -/
def completesAt (p : Pos) : Bool :=
  let p' := if cfg.isCompletion then { p with pmin := p.pmin + 1 } else p
  cfg.inDisplayFile && cfg.enclosedIn p' && p'.pmin > 0

mutual

def nextToken : Nat → M PlacedToken
  | 0 => raise .outOfFuel
  | n + 1 => do processToken n (← lexToken cfg)

def processToken : Nat → PlacedToken → M PlacedToken
  | 0, _ => raise .outOfFuel
  | n + 1, tk => do
    visit tk true
    match tk.1 with
    | .comment s =>
      let tk' ← nextToken n
      setLastDoc s tk.2
      return tk'
    | .commentLine _ =>
      if completesAt cfg tk.2 then raise (.syntaxCompletion tk.2) else nextToken n
    | .sharp "end" =>
      match (← get).mstack with
      | [] => return tk
      | _ :: l =>
        onConds ConditionHandler.condEnd
        setMstack l
        nextToken n
    | .sharp "elseif" =>
      match (← get).mstack with
      | [] => return tk
      | _ :: l =>
        let e ← parseMacroCond cfg
        onConds (ConditionHandler.condElseif · e)
        openDeadBlock e.pos
        setMstack l
        processToken n (← skipTokens n tk.2 false)
    | .sharp "else" =>
      match (← get).mstack with
      | [] => return tk
      | _ :: l =>
        onConds ConditionHandler.condElse
        openDeadBlock tk.2
        setMstack l
        processToken n (← skipTokens n tk.2 false)
    | .sharp "if" => processToken n (← enterMacro n true tk.2)
    | .sharp "error" =>
      match ← lexToken cfg with
      | (.const (.string s _), p) => raise (.error (.custom s) p)
      | _ => raise (.error .unimplemented tk.2)
    | .sharp "line" =>
      match ← nextToken n with
      | (.const (.int s), p) =>
        match cfg.numbers.intOfString s with
        | some line =>
          modify fun s => { s with lline := line - 1 }
          nextToken n
        | none => raise (.error (.custom ("Could not parse ridiculous line number " ++ s)) p)
      | (t, p) => raise (.error (.unexpected t) p)
    | .sharp s => sharpError cfg s tk.2
    | _ => return tk

def enterMacro : Nat → Bool → Pos → M PlacedToken
  | 0, _, _ => raise .outOfFuel
  | n + 1, isIf, p => do
    let e ← parseMacroCond cfg
    if isIf then modify fun s => { s with conds := s.conds.condIf e }
    else onConds (ConditionHandler.condElseif · e)
    let tk ← lexToken cfg
    if ← evalCond cfg e then
      modify fun s => { s with mstack := p :: s.mstack }
      return tk
    else
      openDeadBlock e.pos
      skipTokensLoop n p true tk

def skipTokensLoop : Nat → Pos → Bool → PlacedToken → M PlacedToken
  | 0, _, _, _ => raise .outOfFuel
  | n + 1, p, test, tk => do
    visit tk false
    match tk.1 with
    | .sharp "end" =>
      onConds ConditionHandler.condEnd
      closeDeadBlock tk.2
      lexToken cfg
    | .sharp "elseif" =>
      if !test then
        closeDeadBlock tk.2
        let e ← parseMacroCond cfg
        onConds (ConditionHandler.condElseif · e)
        openDeadBlock e.pos
        skipTokens n p test
      else
        closeDeadBlock tk.2
        enterMacro n false tk.2
    | .sharp "else" =>
      onConds ConditionHandler.condElse
      closeDeadBlock tk.2
      if !test then
        openDeadBlock tk.2
        skipTokens n p test
      else
        modify fun s => { s with mstack := tk.2 :: s.mstack }
        lexToken cfg
    | .sharp "if" =>
      let e ← parseMacroCond cfg
      modify fun s => { s with conds := s.conds.condIf e }
      openDeadBlock e.pos
      let tk ← skipTokens n p false
      skipTokensLoop n p test tk
    | .sharp "error" | .sharp "line" => skipTokens n p test
    | .sharp s => sharpError cfg s tk.2
    | .eof =>
      syntaxError cfg .unclosedConditional p
      return tk
    | _ => skipTokens n p test

def skipTokens : Nat → Pos → Bool → M PlacedToken
  | 0, _, _ => raise .outOfFuel
  | n + 1, p, test => do skipTokensLoop n p test (← lexToken cfg)

end

/-! ## `parse` -/

/-- The grammar, as far as the token source sees it: a reader up to `Eof`. -/
def entry : Nat → M (List PlacedToken)
  | 0 => raise .outOfFuel
  | n + 1 => do
    let tk ← nextToken cfg n
    if tk.1 = .eof then return [tk]
    else return tk :: (← entry n)

structure ParserDisplayInformation where
  pdErrors : List PlacedError
  pdDeadBlocks : List (Pos × Expr)
  pdConditions : List Expr

inductive ParseResult where
  | parseSuccess (l : List PlacedToken) (isDisplayFile : Bool) (pdi : ParserDisplayInformation)
  | parseError (l : List PlacedToken) (error : PlacedError) (errors : List PlacedError)

/-- What the grammar has read. -/
def ParseResult.read : ParseResult → List PlacedToken
  | .parseSuccess l _ _ => l
  | .parseError l _ _ => l

def initial (code : List PlacedToken) : State where
  code := code
  mstack := []
  conds := { conditionalExpressions := [], conditionalStack := [], depths := [] }
  dbc := { deadBlocks := [], currentBlock := [] }
  lastDoc := none
  syntaxErrors := []
  lline := 0
  evaluated := []
  visits := []

/-- The report of a conditional whose live branch is not closed. -/
def reportUnclosed : M Unit := fun s =>
  match s.mstack with
  | p :: _ => syntaxError cfg .unclosedConditional p s
  | [] => .ok ((), s)

def parseResult (l : List PlacedToken) : M ParseResult := fun s =>
  match s.dbc.getDeadBlocks with
  | .error e => .error e
  | .ok deadBlocks =>
    let pdi : ParserDisplayInformation :=
      { pdErrors := s.syntaxErrors.reverse, pdDeadBlocks := deadBlocks
        pdConditions := s.conds.conditionalExpressions }
    if cfg.inDisplayFile then .ok (.parseSuccess l true pdi, s)
    else match s.syntaxErrors.reverse with
      | [] => .ok (.parseSuccess l false pdi, s)
      | error :: errors => .ok (.parseError l error errors, s)

def parseBody (n : Nat) : M ParseResult := do
  let l ← entry cfg n
  reportUnclosed cfg
  parseResult cfg l

/-- `parse`, with `n` as fuel. -/
def parse (n : Nat) (code : List PlacedToken) : Except Exn (ParseResult × State) :=
  parseBody cfg n (initial code)

end Entry

end Haxe.Source.Syntax
