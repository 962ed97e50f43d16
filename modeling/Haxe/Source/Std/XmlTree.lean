import Haxe.Theory.MergedTexts
import Haxe.Source.Std.StringEncoding
import Haxe.Source.Std.UnicodeString

/-!
# XML trees

The class `Xml` without the links to the parents. A string is the list of its code units, a map of
attributes the list of its entries in the order of `attributes`.
-/

namespace Haxe.Source

open Theory

inductive Xml where
  | element (nodeName : List Nat) (attributeMap : List (List Nat × List Nat))
      (children : List Xml)
  | pcData (nodeValue : List Nat)
  | cData (nodeValue : List Nat)
  | comment (nodeValue : List Nat)
  | docType (nodeValue : List Nat)
  | processingInstruction (nodeValue : List Nat)
  | document (children : List Xml)

namespace Xml

/-- What the target provides. -/
structure Platform where
  encoding : Encoding
  /-- Where strings have code units of UTF-16. -/
  target : UnicodeString.Target
  /-- What `StringTools.ltrim` removes. -/
  isSpace : Nat → Bool
  /-- What `StringTools.trim` removes. -/
  isTrimmed : Nat → Bool
  /-- `Std.parseInt` -/
  parseInt : List Nat → Option Int
  /-- What `StringBuf.addChar` appends for what is no code point, where it does not fail. -/
  addOther : Option Int → Option (List Nat)

/-- What is used of the methods of the target. -/
structure Platform.Documented (p : Platform) : Prop where
  decimal : ∀ digits : List Nat, digits ≠ [] → digits.length ≤ 9 →
    (∀ d ∈ digits, 48 ≤ d ∧ d ≤ 57) →
    p.parseInt digits = some (digits.foldl (fun n d => n * 10 + (d - 48)) 0 : Nat)

section Attributes

/-- `attributeMap.exists` -/
def hasAttribute (attributeMap : List (List Nat × List Nat)) (name : List Nat) : Bool :=
  attributeMap.any (fun entry => entry.1 == name)

/-- `attributeMap.set` -/
def setAttribute (attributeMap : List (List Nat × List Nat)) (name value : List Nat) :
    List (List Nat × List Nat) :=
  match attributeMap with
  | [] => [(name, value)]
  | entry :: rest =>
    if entry.1 = name then (name, value) :: rest
    else entry :: setAttribute rest name value

end Attributes

section Normalization

/-- `PCData` among other nodes. -/
def pcDatas : Texts Nat Xml where
  view
    | pcData nodeValue => some nodeValue
    | _ => none
  make := pcData
  view_make _ := rfl
  make_view {x _} same := by
    cases x with
    | pcData => exact congrArg pcData (Option.some.inj same)
    | _ => exact nomatch same

mutual

/-- The tree with adjacent `PCData` merged and empty `PCData` dropped. -/
@[grind =] def normalize : Xml → Xml
  | element nodeName attributeMap children =>
    element nodeName attributeMap (pcDatas.merge (normalizeEach children) [])
  | document children => document (pcDatas.merge (normalizeEach children) [])
  | pcData nodeValue => pcData nodeValue
  | cData nodeValue => cData nodeValue
  | comment nodeValue => comment nodeValue
  | docType nodeValue => docType nodeValue
  | processingInstruction nodeValue => processingInstruction nodeValue

def normalizeEach : List Xml → List Xml
  | [] => []
  | x :: xs => normalize x :: normalizeEach xs

end

theorem normalizeEach_eq (xs : List Xml) : normalizeEach xs = xs.map normalize := by
  induction xs with
  | nil => rfl
  | cons x xs ih => rw [normalizeEach, ih, List.map_cons]

theorem keeps_normalize : pcDatas.Keeps normalize where
  text t := by
    show normalize (pcData t) = pcData t
    rw [normalize]
  other {x} other := by
    cases x with
    | pcData => exact nomatch other
    | _ =>
      rw [normalize]
      rfl

end Normalization

section Documents

/-- The first characters of the names of XML. -/
def isNameStart (c : Nat) : Bool :=
  c == 0x3A || (0x41 ≤ c && c ≤ 0x5A) || c == 0x5F || (0x61 ≤ c && c ≤ 0x7A) ||
    (0xC0 ≤ c && c ≤ 0xD6) || (0xD8 ≤ c && c ≤ 0xF6) || (0xF8 ≤ c && c ≤ 0x2FF) ||
    (0x370 ≤ c && c ≤ 0x37D) || (0x37F ≤ c && c ≤ 0x1FFF) || (0x200C ≤ c && c ≤ 0x200D) ||
    (0x2070 ≤ c && c ≤ 0x218F) || (0x2C00 ≤ c && c ≤ 0x2FEF) || (0x3001 ≤ c && c ≤ 0xD7FF) ||
    (0xF900 ≤ c && c ≤ 0xFDCF) || (0xFDF0 ≤ c && c ≤ 0xFFFD) || (0x10000 ≤ c && c ≤ 0xEFFFF)

/-- The other characters of the names of XML. -/
def isNameChar (c : Nat) : Bool :=
  isNameStart c || c == 0x2D || c == 0x2E || (0x30 ≤ c && c ≤ 0x39) || c == 0xB7 ||
    (0x300 ≤ c && c ≤ 0x36F) || (0x203F ≤ c && c ≤ 0x2040)

/-- A name of XML. -/
structure IsName (e : Encoding) (name : List Nat) : Prop where
  named : ∃ c cs, name = e.encode (c :: cs) ∧ isNameStart c.toNat = true ∧
    ∀ d ∈ cs, isNameChar d.toNat = true

/-- Attributes of different names, whose values are texts. -/
structure ValidAttributes (e : Encoding) (attributeMap : List (List Nat × List Nat)) : Prop where
  names : ∀ entry ∈ attributeMap, IsName e entry.1
  values : ∀ entry ∈ attributeMap, e.WellFormed entry.2
  distinct : (attributeMap.map Prod.fst).Nodup

mutual

/-- What may stand in a document. -/
@[grind =] def Valid (e : Encoding) : Xml → Prop
  | element nodeName attributeMap children =>
    IsName e nodeName ∧ ValidAttributes e attributeMap ∧ EachValid e children
  | pcData nodeValue => e.WellFormed nodeValue
  | cData nodeValue => ¬ ascii "]]>" <:+: nodeValue
  | _ => False

@[grind =] def EachValid (e : Encoding) : List Xml → Prop
  | [] => True
  | x :: xs => Valid e x ∧ EachValid e xs

end

/-- A document of elements, `PCData` and `CData`. -/
structure Document (e : Encoding) where
  children : List Xml
  valid : EachValid e children

end Documents

end Xml

end Haxe.Source

/-!
## Printing XML

`haxe.xml.Printer`: what each function writes.
-/

namespace Haxe.Source.Xml

variable (p : Platform)

/-- The codes of a `StringIteratorUnicode`. The second unit of a pair is skipped. -/
@[grind =] def unicodeCodes : Bool → List Nat → List Nat
  | _, [] => []
  | true, _ :: rest => unicodeCodes false rest
  | false, c :: rest =>
    if p.encoding = .utf16 then
      let code := (UnicodeString.utf16CodePointAt p.target (c :: rest) 0).toNat
      code :: unicodeCodes (65536 ≤ code) rest
    else c :: unicodeCodes false rest

/-- What a code is escaped to. -/
def escapeCode (quotes : Bool) (code : Nat) : List Nat :=
  if code = '&'.toNat then ascii "&amp;"
  else if code = '<'.toNat then ascii "&lt;"
  else if code = '>'.toNat then ascii "&gt;"
  else if code = '"'.toNat ∧ quotes then ascii "&quot;"
  else if code = '\''.toNat ∧ quotes then ascii "&#039;"
  else p.encoding.addChar code

/-- `StringTools.htmlEscape` -/
def htmlEscape (s : List Nat) (quotes : Bool) : List Nat :=
  (unicodeCodes p false s).flatMap (escapeCode p quotes)

/-- `StringTools.ltrim` -/
def ltrim (s : List Nat) : List Nat := s.dropWhile p.isSpace

/-- `StringTools.trim` -/
def trim (s : List Nat) : List Nat :=
  ((s.dropWhile p.isTrimmed).reverse.dropWhile p.isTrimmed).reverse

/-- A child that makes an element print its children. -/
def isChild : Xml → Bool
  | element .. => true
  | pcData _ => true
  | cData nodeValue => (ltrim p nodeValue).length != 0
  | comment nodeValue => (ltrim p nodeValue).length != 0
  | _ => false

def hasChildren (children : List Xml) : Bool := children.any (isChild p)

def newline (pretty : Bool) : List Nat := if pretty then ascii "\n" else []

def writeAttribute (entry : List Nat × List Nat) : List Nat :=
  ascii " " ++ entry.1 ++ ascii "=\"" ++ htmlEscape p entry.2 true ++ ascii "\""

/-- `~/[\n\r\t]+/g.replace` by the empty string. -/
def unbroken (content : List Nat) : List Nat :=
  content.filter (fun c => !(c == '\n'.toNat || c == '\r'.toNat || c == '\t'.toNat))

mutual

@[grind =] def writeNode (pretty : Bool) : Xml → List Nat → List Nat
  | cData nodeValue, tabs =>
    tabs ++ ascii "<![CDATA[" ++ nodeValue ++ ascii "]]>" ++ newline pretty
  | comment nodeValue, tabs =>
    tabs ++ trim p (ascii "<!--" ++ unbroken nodeValue ++ ascii "-->") ++ newline pretty
  | document children, tabs => writeNodes pretty children tabs
  | element nodeName attributeMap children, tabs =>
    tabs ++ ascii "<" ++ nodeName ++ attributeMap.flatMap (writeAttribute p) ++
      (if hasChildren p children then
        ascii ">" ++ newline pretty ++
          writeNodes pretty children (if pretty then tabs ++ ascii "\t" else tabs) ++
          tabs ++ ascii "</" ++ nodeName ++ ascii ">" ++ newline pretty
      else ascii "/>" ++ newline pretty)
  | pcData nodeValue, tabs =>
    if nodeValue.length ≠ 0 then tabs ++ htmlEscape p nodeValue false ++ newline pretty
    else []
  | processingInstruction nodeValue, _ =>
    ascii "<?" ++ nodeValue ++ ascii "?>" ++ newline pretty
  | docType nodeValue, _ => ascii "<!DOCTYPE " ++ nodeValue ++ ascii ">" ++ newline pretty

@[grind =] def writeNodes (pretty : Bool) : List Xml → List Nat → List Nat
  | [], _ => []
  | x :: xs, tabs => writeNode pretty x tabs ++ writeNodes pretty xs tabs

end

def print (xml : Xml) (pretty : Bool) : List Nat := writeNode p pretty xml []

end Haxe.Source.Xml
