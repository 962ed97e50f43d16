import Haxe.Source.Syntax.Ast

/-!
# The value of a condition

`eval` of `parserEntry.ml` and the versions of `semver.ml`. Floats and the conversions
of strings to numbers are those of OCaml, a parameter. A raised `Error` is the error
side; `Exit` and `Invalid_argument` of `cmp` are caught where `eval` catches them.
-/

namespace Haxe.Source.Syntax

open Typing (Pos punion nullPos)

/-- `error_msg`, as far as the token source raises it. -/
inductive ErrorMsg where
  | unexpected (tk : Token)
  | unclosedConditional
  | unimplemented
  | custom (s : String)
  deriving DecidableEq, Repr

abbrev PlacedError := ErrorMsg × Pos

/-- The number functions of the standard library. -/
structure Numbers (F : Type) where
  floatOfString : String → Option F
  intOfString : String → Option Int
  compareFloat : F → F → Ordering
  isZero : F → Bool
  stringOfFloat : F → String

/-- `Semver.version`. -/
inductive Version where
  | svNum (n : Int)
  | svStr (s : String)
  deriving DecidableEq, Repr

abbrev Release := Version × Version × Version

inductive SmallType (F : Type) where
  | tNull
  | tBool (b : Bool)
  | tFloat (f : F)
  | tString (s : String)
  | tVersion (release : Release) (pre : Option (List Version))

section Semver

variable {F : Type} (numbers : Numbers F)

def Version.str : Version → String
  | .svNum n => toString n
  | .svStr s => s

/-- `Semver.to_string`. -/
def semverToString (release : Release) (pre : Option (List Version)) : String :=
  String.intercalate "." ([release.1, release.2.1, release.2.2].map Version.str) ++
    match pre with
    | none => ""
    | some pre => "-" ++ String.intercalate "." (pre.map Version.str)

/-- `parse` of `Semver.parse_version`; `nsplit` gives nothing for the empty string. -/
def parseDotted (s : String) : List Version :=
  if s = "" then [] else
    (s.splitOn ".").map fun part =>
      match numbers.intOfString part with
      | some n => .svNum n
      | none => .svStr part

def parseRelease (s : String) : Option Release :=
  match parseDotted numbers s with
  | [.svNum major, .svNum minor, .svNum patch] =>
    some (.svNum major, .svNum minor, .svNum patch)
  | _ => none

/-- `Semver.parse_version`; `none` is `Invalid_argument`. -/
def semverParse (s : String) : Option (Release × Option (List Version)) :=
  match s.toList.span (· ≠ '-') with
  | (_, []) => (parseRelease numbers s).map (·, none)
  | (_, [_]) => none
  | (release, _ :: pre) =>
    (parseRelease numbers (String.ofList release)).map fun r =>
      (r, some (parseDotted numbers (String.ofList (pre.takeWhile (· ≠ '+')))))

def compareV : Version → Version → Ordering
  | .svNum n1, .svNum n2 => compare n1 n2
  | .svStr s1, .svStr s2 => compare s1 s2
  | .svStr _, .svNum _ => .gt
  | .svNum _, .svStr _ => .lt

def compareLists : List Version → List Version → Ordering
  | [], [] => .eq
  | [], _ => .lt
  | _, [] => .gt
  | v1 :: rest1, v2 :: rest2 => (compareV v1 v2).then (compareLists rest1 rest2)

def compareVersion (a b : Release × Option (List Version)) : Ordering :=
  (compareLists [a.1.1, a.1.2.1, a.1.2.2] [b.1.1, b.1.2.1, b.1.2.2]).then
    (match a.2, b.2 with
    | none, none => .eq
    | none, _ => .gt
    | _, none => .lt
    | some pre1, some pre2 => compareLists pre1 pre2)

end Semver

section Eval

variable {F : Type} (numbers : Numbers F)

def isTrue : SmallType F → Bool
  | .tBool false | .tNull => false
  | .tFloat f => !numbers.isZero f
  | _ => true

def sValue : SmallType F → String
  | .tNull => "null"
  | .tBool b => "boolean " ++ toString b
  | .tFloat f => "float " ++ numbers.stringOfFloat f
  | .tString s => "string \"" ++ s ++ "\""
  | .tVersion r p => "version " ++ semverToString r p

/-- What `cmp` raises instead of an order. -/
inductive CmpExn where
  | exit
  | invalidArgument (msg : String)

def cmp : SmallType F → SmallType F → Except CmpExn Ordering
  | .tNull, _ | _, .tNull => .error .exit
  | .tFloat a, .tFloat b => .ok (numbers.compareFloat a b)
  | .tString a, .tString b => .ok (compare a b)
  | .tBool a, .tBool b => .ok (compare a b)
  | .tVersion r1 p1, .tVersion r2 p2 => .ok (compareVersion (r1, p1) (r2, p2))
  | v1@(.tString _), v2@(.tFloat _) | v1@(.tFloat _), v2@(.tString _)
  | v1, v2@(.tVersion _ _) | v1@(.tVersion _ _), v2 =>
    .error (.invalidArgument
      ("Cannot compare " ++ sValue numbers v1 ++ " and " ++ sValue numbers v2))
  | _, _ => .error .exit

def parseVersion (s : String) (p : Pos) : Except PlacedError (SmallType F) :=
  match semverParse numbers s with
  | some (release, pre) => .ok (.tVersion release pre)
  | none => .error
      (.custom ("Invalid version string \"" ++ s ++ "\". Should follow SemVer."), p)

/-- The casts of `eval_binop_exprs`, at the positions of the two operands. -/
def castOperands (p1 p2 : Pos) :
    SmallType F → SmallType F → Except PlacedError (SmallType F × SmallType F)
  | .tString s1, .tFloat f2 =>
    match numbers.floatOfString s1 with
    | some f1 => .ok (.tFloat f1, .tFloat f2)
    | none => .ok (.tString s1, .tFloat f2)
  | .tFloat f1, .tString s2 =>
    match numbers.floatOfString s2 with
    | some f2 => .ok (.tFloat f1, .tFloat f2)
    | none => .ok (.tFloat f1, .tString s2)
  | .tVersion r1 pre1, .tString s => do
    let v2 ← parseVersion numbers s p2
    return (.tVersion r1 pre1, v2)
  | .tString s, .tVersion r2 pre2 => do
    let v1 ← parseVersion numbers s p1
    return (v1, .tVersion r2 pre2)
  | v1, v2 => .ok (v1, v2)

/-- The operator of a comparison as a test of the order. -/
def comparison : Binop → Option (Ordering → Bool)
  | .opEq => some (· == .eq)
  | .opNotEq => some (· != .eq)
  | .opGt => some (· == .gt)
  | .opGte => some (· != .lt)
  | .opLt => some (· == .lt)
  | .opLte => some (· != .gt)
  | _ => none

variable (definedValue : String → Option String)

def definedOrNull (i : String) : SmallType F :=
  match definedValue i with
  | some s => .tString s
  | none => .tNull

/-- `eval`; `definedValue` is `Define.raw_defined_value ctx`. The second operand of a
comparison is evaluated first, as in an OCaml pair. -/
@[grind =] def eval : Expr → Except PlacedError (SmallType F)
  | .eConst (.ident i) _ => .ok (definedOrNull definedValue i)
  | .eConst (.string s _) _ => .ok (.tString s)
  | .eConst (.int i) p | .eConst (.float i) p =>
    match numbers.floatOfString i with
    | some f => .ok (.tFloat f)
    | none => .error (.custom "float_of_string", p)
  | .eCall (.eConst (.ident "version") _) [.eConst (.string s _) p] _ =>
    parseVersion numbers s p
  | .eBinop .opBoolAnd e1 e2 _ => do
    if isTrue numbers (← eval e1) then
      return .tBool (isTrue numbers (← eval e2))
    else return .tBool false
  | .eBinop .opBoolOr e1 e2 _ => do
    if isTrue numbers (← eval e1) then return .tBool true
    else return .tBool (isTrue numbers (← eval e2))
  | .eUnop .not _ e _ => do
    return .tBool !(isTrue numbers (← eval e))
  | .eParenthesis e _ => eval e
  | .eBinop op e1 e2 p => do
    let v2 ← eval e2
    let v1 ← eval e1
    let (v1, v2) ← castOperands numbers e1.pos e2.pos v1 v2
    match comparison op with
    | none => .error (.custom "Unsupported operation", p)
    | some test =>
      match cmp numbers v1 v2 with
      | .ok order => .ok (.tBool (test order))
      | .error .exit => .ok (.tBool false)
      | .error (.invalidArgument msg) => .error (.custom msg, p)
  | .eField e f p =>
    match stringListOfExprPath (.eField e f p) with
    | some sl => .ok (definedOrNull definedValue (String.intercalate "." sl.reverse))
    | none => .error (.custom "Invalid condition expression", p)
  | e => .error (.custom "Invalid condition expression", e.pos)

end Eval

end Haxe.Source.Syntax
