import Haxe.Theory.InterruptedRuns
import Haxe.Source.Std.XmlTree

/-!
# Parsing XML

`haxe.xml.Parser` on a string `str`. The variable `xml` is the last child wherever it is used, and
`parent` is given by its name, which a document has not. The loop takes one unit of fuel for each
turn.
-/

namespace Haxe.Source.Xml

open Theory.InterruptedRuns

inductive S where
  | ignoreSpaces
  | begin
  | beginNode
  | tagName
  | body
  | attribName
  | equals
  | attvalBegin
  | attribVal
  | childs
  | close
  | waitEnd
  | waitEndRet
  | pcdata
  | header
  | comment
  | doctype
  | cdata
  | escape
  deriving DecidableEq

structure XmlParserException where
  message : List Nat
  lineNumber : Nat
  positionAtLine : Nat
  position : Nat
  xml : List Nat
  deriving DecidableEq

/-- The line and the position in it behind a character. -/
def linePosition (line : Nat × Nat) (c : Nat) : Nat × Nat :=
  if c = '\n'.toNat then (line.1 + 1, 0)
  else if c ≠ '\r'.toNat then (line.1, line.2 + 1)
  else line

/-- The constructor of `XmlParserException`. -/
def newException (message xml : List Nat) (position : Nat) : XmlParserException :=
  let line := (xml.take position).foldl linePosition (1, 0)
  ⟨message, line.1, line.2, position, xml⟩

/-- What is thrown. -/
inductive Exn where
  | parser (e : XmlParserException)
  /-- `StringBuf.addChar` fails. -/
  | addChar (c : Option Int)
  deriving DecidableEq

abbrev Reading (α : Type) := Outcome Exn α

/-- The variables of `doParse` beside the position, with the children of `parent`. -/
structure Locals where
  state : S
  next : S
  aname : List Nat
  start : Nat
  nsubs : Nat
  nbrackets : Int
  buf : List Nat
  escapeNext : S
  /-- −1 is `none`. -/
  attrValQuote : Option Nat
  children : List Xml

def Locals.initial : Locals where
  state := .begin
  next := .begin
  aname := []
  start := 0
  nsubs := 0
  nbrackets := 0
  buf := []
  escapeNext := .begin
  attrValQuote := none
  children := []

/-- `addChild` -/
def Locals.addChild (l : Locals) (xml : Xml) : Locals :=
  { l with children := l.children ++ [xml], nsubs := l.nsubs + 1 }

/-- The last child is changed. -/
def changeLast (change : Xml → Xml) (children : List Xml) : List Xml :=
  children.dropLast ++ (children.getLast?.map change).toList

/-- `xml.nodeName` -/
def nodeName : Xml → List Nat
  | element name _ _ => name
  | _ => []

/-- The attributes of `xml`. -/
def attributeMap : Xml → List (List Nat × List Nat)
  | element _ attributes _ => attributes
  | _ => []

/-- `xml.set` -/
def set (name value : List Nat) : Xml → Xml
  | element nodeName attributes children =>
    element nodeName (setAttribute attributes name value) children
  | x => x

/-- The children of `xml` behind those it has. -/
def addChildren (more : List Xml) : Xml → Xml
  | element nodeName attributes children => element nodeName attributes (children ++ more)
  | x => x

namespace Locals

def xmlName (l : Locals) : List Nat := (l.children.getLast?.map nodeName).getD []

def xmlAttributes (l : Locals) : List (List Nat × List Nat) :=
  (l.children.getLast?.map attributeMap).getD []

end Locals

def isValidChar (c : Nat) : Bool :=
  ('a'.toNat ≤ c && c ≤ 'z'.toNat) || ('A'.toNat ≤ c && c ≤ 'Z'.toNat) ||
    ('0'.toNat ≤ c && c ≤ '9'.toNat) || c == ':'.toNat || c == '.'.toNat || c == '_'.toNat ||
    c == '-'.toNat

def isBlank (c : Nat) : Bool :=
  c == '\n'.toNat || c == '\r'.toNat || c == '\t'.toNat || c == ' '.toNat

/-- `String.toUpperCase`, of the letters that a keyword consists of. -/
def toUpperCase (s : List Nat) : List Nat :=
  s.map (fun c => if 'a'.toNat ≤ c ∧ c ≤ 'z'.toNat then c - 32 else c)

/-- The named entities. -/
def escapes (s : List Nat) : Option (List Nat) :=
  if s = ascii "lt" then some (ascii "<")
  else if s = ascii "gt" then some (ascii ">")
  else if s = ascii "amp" then some (ascii "&")
  else if s = ascii "quot" then some (ascii "\"")
  else if s = ascii "apos" then some (ascii "'")
  else none

/-- What a turn of the loop does. -/
inductive Turn where
  | on (l : Locals) (pos : Nat)
  /-- `doParse` for the children of `xml`. -/
  | childs
  /-- `return p` -/
  | back (l : Locals)
  | fail (e : Exn)

section Loop

variable (p : Platform) (strict : Bool) (str : List Nat)

def exception (message : List Nat) (pos : Nat) : Exn := .parser (newException message str pos)

/-- `throw` -/
def Turn.throw (message : List Nat) (pos : Nat) : Turn := .fail (exception str message pos)

/-- `buf.addSub(str, start, p - start)` -/
def Locals.addSub (l : Locals) (pos : Nat) : Locals :=
  { l with buf := l.buf ++ substr str l.start (pos - l.start) }

/-- `buf.addChar` of what is no code point. -/
def addOther (c : Option Int) : Except Exn (List Nat) :=
  match p.addOther c with
  | some units => .ok units
  | none => .error (.addChar c)

/-- `buf.addChar` of what `Std.parseInt` returns. -/
def addCode (c : Option Int) : Except Exn (List Nat) :=
  match c with
  | some (.ofNat code) =>
    if code ≤ 0x10FFFF then .ok (p.encoding.addChar code) else addOther p c
  | _ => addOther p c

/-- What is appended for a number, which is encoded in UTF-8 without `target.unicode`. -/
def addNumber (c : Option Int) (pos : Nat) : Except Exn (List Nat) :=
  let code := (c.getD 0).toNat
  if p.encoding = .bytes ∧ code ≥ 128 then
    if code ≤ 0x7FF then .ok [0xC0 ||| (code >>> 6), 0x80 ||| (code &&& 63)]
    else if code ≤ 0xFFFF then
      .ok [0xE0 ||| (code >>> 12), 0x80 ||| ((code >>> 6) &&& 63), 0x80 ||| (code &&& 63)]
    else if code ≤ 0x10FFFF then
      .ok [0xF0 ||| (code >>> 18), 0x80 ||| ((code >>> 12) &&& 63),
        0x80 ||| ((code >>> 6) &&& 63), 0x80 ||| (code &&& 63)]
    else .error (exception str (ascii "Cannot encode UTF8-char " ++ ascii (toString code)) pos)
  else addCode p c

/-- What is appended for the entity `s`. -/
def resolve (s : List Nat) (pos : Nat) : Except Exn (List Nat) :=
  if s[0]? = some '#'.toNat then
    let c :=
      if s[1]? = some 'x'.toNat then p.parseInt (ascii "0" ++ substr s 1 (s.length - 1))
      else p.parseInt (substr s 1 (s.length - 1))
    addNumber p str c pos
  else
    match escapes s with
    | none =>
      if strict then .error (exception str (ascii "Undefined entity: " ++ s) pos)
      else .ok (ascii "&" ++ s ++ ascii ";")
    | some text => .ok text

/-- `BEGIN_NODE` -/
@[grind =] def beginNode (pos c : Nat) (l : Locals) : Turn :=
  if c = '!'.toNat then
    if str[pos + 1]? = some '['.toNat then
      if toUpperCase (substr str (pos + 2) 6) ≠ ascii "CDATA[" then
        .throw str (ascii "Expected <![CDATA[") (pos + 2)
      else .on { l with state := .cdata, start := pos + 8 } (pos + 8)
    else if str[pos + 1]? = some 'D'.toNat ∨ str[pos + 1]? = some 'd'.toNat then
      if toUpperCase (substr str (pos + 2) 6) ≠ ascii "OCTYPE" then
        .throw str (ascii "Expected <!DOCTYPE") pos
      else .on { l with state := .doctype, start := pos + 9 } (pos + 9)
    else if str[pos + 1]? ≠ some '-'.toNat ∨ str[pos + 2]? ≠ some '-'.toNat then
      .throw str (ascii "Expected <!--") pos
    else .on { l with state := .comment, start := pos + 3 } (pos + 3)
  else if c = '?'.toNat then .on { l with state := .header, start := pos } (pos + 1)
  else if c = '/'.toNat then
    .on { l with start := pos + 1, state := .ignoreSpaces, next := .close } (pos + 1)
  else .on { l with state := .tagName, start := pos } pos

/-- `ATTRIB_VAL` -/
def attribVal (pos c : Nat) (l : Locals) : Turn :=
  if c = '&'.toNat then
    .on { l.addSub str pos with state := .escape, escapeNext := .attribVal, start := pos + 1 }
      (pos + 1)
  else if (c = '>'.toNat ∨ c = '<'.toNat) ∧ strict then
    .throw str (ascii "Invalid unescaped " ++ [c] ++ ascii " in attribute value") pos
  else if some c = l.attrValQuote then
    let val := (l.addSub str pos).buf
    .on { l with
      buf := [], children := changeLast (set l.aname val) l.children, state := .ignoreSpaces,
      next := .body } (pos + 1)
  else .on l (pos + 1)

/-- `CLOSE` -/
def close (parent : Option (List Nat)) (pos c : Nat) (l : Locals) : Turn :=
  if isValidChar c then .on l (pos + 1)
  else if l.start = pos then .throw str (ascii "Expected node name") pos
  else
    let v := substr str l.start (pos - l.start)
    match parent with
    | none =>
      .throw str (ascii "Unexpected </" ++ v ++ ascii ">, tag is not open") pos
    | some name =>
      if v ≠ name then .throw str (ascii "Expected </" ++ name ++ ascii ">") pos
      else .on { l with state := .ignoreSpaces, next := .waitEndRet } pos

/-- `ESCAPE` -/
def escape (pos c : Nat) (l : Locals) : Turn :=
  if c = ';'.toNat then
    match resolve p strict str (substr str l.start (pos - l.start)) pos with
    | .ok units =>
      .on { l with buf := l.buf ++ units, start := pos + 1, state := l.escapeNext } (pos + 1)
    | .error e => .fail e
  else if !isValidChar c && c != '#'.toNat then
    if strict then .throw str (ascii "Invalid character in entity: " ++ [c]) pos
    else
      .on { l with
        buf := l.buf ++ ascii "&" ++ substr str l.start (pos - l.start), start := pos,
        state := l.escapeNext } pos
  else .on l (pos + 1)

/-- A turn at the character `c`. -/
@[grind =] def turn (parent : Option (List Nat)) (pos c : Nat) (l : Locals) : Turn :=
  match l.state with
  | .ignoreSpaces => if isBlank c then .on l (pos + 1) else .on { l with state := l.next } pos
  | .begin =>
    if c = '<'.toNat then
      .on { l with state := .ignoreSpaces, next := .beginNode } (pos + 1)
    else .on { l with start := pos, state := .pcdata } pos
  | .pcdata =>
    if c = '<'.toNat then
      .on { (l.addChild (pcData (l.addSub str pos).buf)) with
        buf := [], state := .ignoreSpaces, next := .beginNode } (pos + 1)
    else if c = '&'.toNat then
      .on { l.addSub str pos with state := .escape, escapeNext := .pcdata, start := pos + 1 }
        (pos + 1)
    else .on l (pos + 1)
  | .cdata =>
    if c = ']'.toNat ∧ str[pos + 1]? = some ']'.toNat ∧ str[pos + 2]? = some '>'.toNat then
      .on { (l.addChild (cData (substr str l.start (pos - l.start)))) with state := .begin }
        (pos + 3)
    else .on l (pos + 1)
  | .beginNode => beginNode str pos c l
  | .tagName =>
    if isValidChar c then .on l (pos + 1)
    else if pos = l.start then .throw str (ascii "Expected node name") pos
    else
      .on { (l.addChild (element (substr str l.start (pos - l.start)) [] [])) with
        state := .ignoreSpaces, next := .body } pos
  | .body =>
    if c = '/'.toNat then .on { l with state := .waitEnd } (pos + 1)
    else if c = '>'.toNat then .on { l with state := .childs } (pos + 1)
    else .on { l with state := .attribName, start := pos } pos
  | .attribName =>
    if isValidChar c then .on l (pos + 1)
    else if l.start = pos then .throw str (ascii "Expected attribute name") pos
    else
      let aname := substr str l.start (pos - l.start)
      if hasAttribute l.xmlAttributes aname then
        .throw str (ascii "Duplicate attribute [" ++ aname ++ ascii "]") pos
      else .on { l with aname := aname, state := .ignoreSpaces, next := .equals } pos
  | .equals =>
    if c = '='.toNat then .on { l with state := .ignoreSpaces, next := .attvalBegin } (pos + 1)
    else .throw str (ascii "Expected =") pos
  | .attvalBegin =>
    if c = '"'.toNat ∨ c = '\''.toNat then
      .on { l with buf := [], state := .attribVal, start := pos + 1, attrValQuote := some c }
        (pos + 1)
    else .throw str (ascii "Expected \"") pos
  | .attribVal => attribVal strict str pos c l
  | .childs => .childs
  | .waitEnd =>
    if c = '>'.toNat then .on { l with state := .begin } (pos + 1)
    else .throw str (ascii "Expected >") pos
  | .waitEndRet =>
    if c = '>'.toNat then
      .back (if l.nsubs = 0 then { l with children := l.children ++ [pcData []] } else l)
    else .throw str (ascii "Expected >") pos
  | .close => close str parent pos c l
  | .comment =>
    if c = '-'.toNat ∧ str[pos + 1]? = some '-'.toNat ∧ str[pos + 2]? = some '>'.toNat then
      .on { (l.addChild (comment (substr str l.start (pos - l.start)))) with state := .begin }
        (pos + 3)
    else .on l (pos + 1)
  | .doctype =>
    if c = '['.toNat then .on { l with nbrackets := l.nbrackets + 1 } (pos + 1)
    else if c = ']'.toNat then .on { l with nbrackets := l.nbrackets - 1 } (pos + 1)
    else if c = '>'.toNat ∧ l.nbrackets = 0 then
      .on { (l.addChild (docType (substr str l.start (pos - l.start)))) with state := .begin }
        (pos + 1)
    else .on l (pos + 1)
  | .header =>
    if c = '?'.toNat ∧ str[pos + 1]? = some '>'.toNat then
      .on { (l.addChild
        (processingInstruction (substr str (l.start + 1) (pos + 1 - l.start - 2)))) with
        state := .begin } (pos + 2)
    else .on l (pos + 1)
  | .escape => escape p strict str pos c l

/-- The end of the string. -/
def finish (parent : Option (List Nat)) (pos : Nat) (l : Locals) : Reading (Nat × List Xml) :=
  let l := if l.state = .begin then { l with start := pos, state := .pcdata } else l
  if l.state = .pcdata then
    match parent with
    | some name =>
      .thrown (exception str (ascii "Unclosed node <" ++ name ++ ascii ">") pos)
    | none =>
      if pos ≠ l.start ∨ l.nsubs = 0 then
        .returned (pos, l.children ++ [pcData (l.addSub str pos).buf])
      else .returned (pos, l.children)
  else if !strict ∧ l.state = .escape ∧ l.escapeNext = .pcdata then
    .returned (pos, l.children ++
      [pcData (l.buf ++ ascii "&" ++ substr str l.start (pos - l.start))])
  else .thrown (exception str (ascii "Unexpected end") pos)

/-- The position that is returned, and the children of `parent`. -/
@[grind =] def doParse : Nat → Option (List Nat) → Nat → Locals → Reading (Nat × List Xml)
  | 0, _, _, _ => .exhausted
  | fuel + 1, parent, pos, l =>
    match str[pos]? with
    | none => finish strict str parent pos l
    | some c =>
      match turn p strict str parent pos c l with
      | .on l pos => doParse fuel parent pos l
      | .childs => do
        let r ← doParse fuel (some l.xmlName) pos .initial
        doParse fuel parent (r.1 + 1)
          { l with
            children := changeLast (addChildren r.2) l.children, start := r.1, state := .begin }
      | .back l => .returned (pos, l.children)
      | .fail e => .thrown e

def parse (fuel : Nat) : Reading Xml := do
  let r ← doParse p strict str fuel none 0 .initial
  .returned (document r.2)

end Loop

end Haxe.Source.Xml
