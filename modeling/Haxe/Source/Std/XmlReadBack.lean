import Haxe.Source.Std.XmlTags

/-!
# Reading printed XML: trees

The document that is read is the printed one, up to the children of some elements and the last text.
-/

namespace Haxe.Source.Xml

open Theory Theory.InterruptedRuns

variable {p : Platform} {strict : Bool} {str rest text name : List Nat} {pos c : Nat}
  {parent : Option (List Nat)} {l : Locals} {nodes : List Xml}
  {attributes : List (List Nat × List Nat)}

section Trees

mutual

/-- Every node of a tree has a property. -/
@[grind =] def Everywhere (holds : Xml → Prop) : Xml → Prop
  | element nodeName attributeMap children =>
    holds (element nodeName attributeMap children) ∧ EachEverywhere holds children
  | document children => holds (document children) ∧ EachEverywhere holds children
  | x => holds x

@[grind =] def EachEverywhere (holds : Xml → Prop) : List Xml → Prop
  | [] => True
  | x :: xs => Everywhere holds x ∧ EachEverywhere holds xs

end

/-- The names of an element are of characters that the parser takes. -/
def NamesValid : Xml → Prop
  | element nodeName attributeMap _ =>
    (∀ c ∈ nodeName, isValidChar c = true) ∧
      ∀ entry ∈ attributeMap, ∀ c ∈ entry.1, isValidChar c = true
  | _ => True

/-- The children of an element are printed, if there are any. -/
def ChildrenPrinted (p : Platform) : Xml → Prop
  | element _ _ children => children ≠ [] → hasChildren p children = true
  | _ => True

mutual

/-- What is read of a tree. -/
@[grind =] def readBack (p : Platform) : Xml → Xml
  | element nodeName attributeMap children =>
    element nodeName attributeMap
      (if hasChildren p children then orEmpty (pcDatas.merge (readBackEach p children) []) else [])
  | document children => document children
  | pcData nodeValue => pcData nodeValue
  | cData nodeValue => cData nodeValue
  | comment nodeValue => comment nodeValue
  | docType nodeValue => docType nodeValue
  | processingInstruction nodeValue => processingInstruction nodeValue

@[grind =] def readBackEach (p : Platform) : List Xml → List Xml
  | [] => []
  | x :: xs => readBack p x :: readBackEach p xs

end

end Trees

section Written

theorem writeNode_pcData (nodeValue : List Nat) :
    writeNode p false (pcData nodeValue) [] = htmlEscape p nodeValue false := by
  rw [writeNode]
  cases nodeValue with
  | nil => rfl
  | cons c cs =>
    have long : (c :: cs).length ≠ 0 := Nat.succ_ne_zero _
    rw [if_pos long, List.nil_append]
    exact List.append_nil _

theorem writeNode_cData (nodeValue : List Nat) :
    writeNode p false (cData nodeValue) [] =
      '<'.toNat :: (ascii "![CDATA[" ++ (nodeValue ++ ascii "]]>")) := by
  rw [writeNode]
  show [] ++ ascii "<![CDATA[" ++ nodeValue ++ ascii "]]>" ++ [] = _
  simp only [List.append_assoc, List.append_nil, List.nil_append]
  rfl

theorem writeNode_closed {children : List Xml} (none : ¬ hasChildren p children = true) :
    writeNode p false (element name attributes children) [] =
      '<'.toNat :: (name ++ (attributes.flatMap (writeAttribute p) ++ ascii "/>")) := by
  rw [writeNode, if_neg none]
  show [] ++ ascii "<" ++ name ++ _ ++ (ascii "/>" ++ []) = _
  simp only [List.append_assoc, List.append_nil, List.nil_append]
  rfl

theorem writeNode_open {children : List Xml} (some : hasChildren p children = true) :
    writeNode p false (element name attributes children) [] =
      '<'.toNat :: (name ++ (attributes.flatMap (writeAttribute p) ++
        '>'.toNat :: (writeNodes p false children [] ++
          (ascii "</" ++ (name ++ ['>'.toNat]))))) := by
  rw [writeNode, if_pos some]
  show [] ++ ascii "<" ++ name ++ _ ++
    (ascii ">" ++ [] ++ writeNodes p false children [] ++ [] ++ ascii "</" ++ name ++ ascii ">" ++ [])
      = _
  simp only [List.append_assoc, List.append_nil, List.nil_append]
  rfl

end Written

section Elements

theorem IsName.readable (isName : IsName p.encoding name)
    (valid : ∀ c ∈ name, isValidChar c = true) : Readable name := by
  refine ⟨?_, valid⟩
  obtain ⟨c, cs, rfl, -, -⟩ := isName.named
  rw [encode_cons]
  exact fun empty => units_ne_nil _ c (List.append_eq_nil_iff.mp empty).1

/-- What follows the name of an element is no part of it. -/
theorem attributes_end (rest : List Nat) (attributes : List (List Nat × List Nat))
    (last : isValidChar c = false) :
    ∃ d ds, attributes.flatMap (writeAttribute p) ++ c :: rest = d :: ds ∧
      isValidChar d = false := by
  cases attributes with
  | nil => exact ⟨c, rest, rfl, last⟩
  | cons entry attributes => exact ⟨' '.toNat, _, rfl, by decide⟩

/-- The string goes on with the children of an element. -/
theorem children_end (children : List Xml) (rest : List Nat) :
    ∃ c more, writeNodes p false children [] ++ (ascii "</" ++ rest) = c :: more := by
  cases writeNodes p false children [] with
  | nil => exact ⟨_, _, rfl⟩
  | cons c cs => exact ⟨c, _, rfl⟩

theorem Stands.startTag (documented : p.Documented) (stands : Stands str pos l nodes text)
    (readable : Readable name) (valid : ValidAttributes p.encoding attributes)
    (named : ∀ entry ∈ attributes, ∀ c ∈ entry.1, isValidChar c = true)
    (here : str.drop pos =
      '<'.toNat :: (name ++ (attributes.flatMap (writeAttribute p) ++ c :: rest)))
    (last : isValidChar c = false) :
    ∃ l', InTag l' (nodes ++ pcDatas.part text) name attributes ∧
      Leads p strict str parent pos l
        (pos + 1 + name.length + (attributes.flatMap (writeAttribute p)).length) l' := by
  obtain ⟨l₁, opened, first⟩ := stands.bracket here
  have behind := drop_cons here
  obtain ⟨d, ds, split, other⟩ := attributes_end rest attributes last
  obtain ⟨l₂, inTag, second⟩ := opened.tagName
    readable (by rw [behind, split]) other
  obtain ⟨l₃, inTag', third⟩ := inTag.more
    documented (fun entry member => (valid.names entry member).readable (named entry member))
    valid.values valid.distinct (drop_append behind)
  exact ⟨l₃, inTag', first.trans (second.trans third)⟩

end Elements

section Nodes

/-- Where a text is written between the nodes of an element, some nodes are read. -/
structure Reads (p : Platform) (strict : Bool) (str written : List Nat) (xs : List Xml) :
    Prop where
  leads : ∀ {parent pos l nodes text rest}, Stands str pos l nodes text →
    str.drop pos = written ++ rest →
    ∃ l', Stands str (pos + written.length) l' (nodes ++ pcDatas.front xs text)
        (pcDatas.trailing xs text) ∧
      Leads p strict str parent pos l (pos + written.length) l'

theorem reads_nil : Reads p strict str [] [] := by
  refine ⟨fun {_ _ l _ _ _} stands _ => ?_⟩
  rw [Texts.front, Texts.trailing, List.append_nil]
  exact ⟨l, stands, .refl⟩

theorem Reads.cons {written more : List Nat} {x : Xml} {xs : List Xml}
    (first : Reads p strict str written [x]) (others : Reads p strict str more xs) :
    Reads p strict str (written ++ more) (x :: xs) := by
  refine ⟨fun {parent _ _ _ _ _} stands here => ?_⟩
  rw [List.append_assoc] at here
  obtain ⟨l₁, stands₁, leads₁⟩ := first.leads stands here
  obtain ⟨l₂, stands₂, leads₂⟩ := others.leads stands₁ (drop_append here)
  rw [List.length_append, ← Nat.add_assoc, Texts.front_cons,
    Texts.trailing_cons x xs, ← List.append_assoc]
  exact ⟨l₂, stands₂, leads₁.trans leads₂⟩

/-- A node that is no text. -/
theorem reads_other {written : List Nat} {x : Xml} (other : pcDatas.view x = none)
    (reads : ∀ {parent pos l nodes text rest}, Stands str pos l nodes text →
      str.drop pos = written ++ rest →
      ∃ l', Stands str (pos + written.length) l' (nodes ++ pcDatas.part text ++ [x]) [] ∧
        Leads p strict str parent pos l (pos + written.length) l') :
    Reads p strict str written [x] := by
  refine ⟨fun stands here => ?_⟩
  rw [Texts.front_other other, Texts.trailing_other other, Texts.front, Texts.trailing,
    ← List.append_assoc]
  exact reads stands here

theorem reads_pcData (documented : p.Documented) {nodeValue : List Nat}
    (formed : p.encoding.WellFormed nodeValue) :
    Reads p strict str (writeNode p false (pcData nodeValue) []) [pcData nodeValue] := by
  refine ⟨fun stands here => ?_⟩
  rw [writeNode_pcData] at here ⊢
  obtain ⟨l', stands', leads⟩ := stands.pcData documented formed here
  have view : pcDatas.view (pcData nodeValue) = some nodeValue := rfl
  rw [Texts.front_text view, Texts.trailing_text view, Texts.front, Texts.trailing,
    List.append_nil]
  exact ⟨l', stands', leads⟩

theorem reads_cData {nodeValue : List Nat} (free : ¬ ascii "]]>" <:+: nodeValue) :
    Reads p strict str (writeNode p false (cData nodeValue) []) [cData nodeValue] := by
  apply reads_other rfl
  intro parent pos l nodes text rest stands here
  rw [writeNode_cData, List.cons_append] at here
  obtain ⟨l₁, opened, first⟩ := stands.bracket here
  have inside : str.drop (pos + 1) = ascii "![CDATA[" ++ (nodeValue ++ (ascii "]]>" ++ rest)) := by
    rw [drop_cons here, List.append_assoc, List.append_assoc]
  obtain ⟨l₂, stands', second⟩ :=
    opened.cData free inside
  have length : pos + (writeNode p false (cData nodeValue) []).length =
      pos + 1 + 8 + nodeValue.length + 3 := by
    rw [writeNode_cData, List.length_cons, List.length_append, List.length_append]
    show pos + (8 + (nodeValue.length + 3) + 1) = _
    omega
  rw [length]
  exact ⟨l₂, stands', first.trans second⟩

/-- An element of which no child is written. -/
theorem reads_closed (documented : p.Documented) {children : List Xml} (readable : Readable name)
    (valid : ValidAttributes p.encoding attributes)
    (named : ∀ entry ∈ attributes, ∀ c ∈ entry.1, isValidChar c = true)
    (none : ¬ hasChildren p children = true) :
    Reads p strict str (writeNode p false (element name attributes children) [])
      [element name attributes []] := by
  apply reads_other rfl
  intro parent pos l nodes text rest stands here
  rw [writeNode_closed none] at here
  have tag : str.drop pos = '<'.toNat ::
      (name ++ (attributes.flatMap (writeAttribute p) ++ '/'.toNat :: ('>'.toNat :: rest))) := by
    rw [here]
    simp only [List.cons_append, List.append_assoc]
    rfl
  obtain ⟨l₁, inTag, first⟩ := stands.startTag
    documented readable valid named tag (by decide)
  obtain ⟨l₂, stands', second⟩ := inTag.closed
    (drop_append (drop_append (drop_cons tag)))
  have length : pos + (writeNode p false (element name attributes children) []).length =
      pos + 1 + name.length + (attributes.flatMap (writeAttribute p)).length + 2 := by
    rw [writeNode_closed none, List.length_cons, List.length_append, List.length_append]
    show pos + (name.length + (_ + 2) + 1) = _
    omega
  rw [length]
  exact ⟨l₂, stands', first.trans second⟩

/-- An element whose children are written. -/
theorem reads_open (documented : p.Documented) {children read : List Xml}
    (readable : Readable name) (valid : ValidAttributes p.encoding attributes)
    (named : ∀ entry ∈ attributes, ∀ c ∈ entry.1, isValidChar c = true)
    (some : hasChildren p children = true)
    (inner : Reads p strict str (writeNodes p false children []) read) :
    Reads p strict str (writeNode p false (element name attributes children) [])
      [element name attributes (orEmpty (pcDatas.merge read []))] := by
  apply reads_other rfl
  intro parent pos l nodes text rest stands here
  rw [writeNode_open some] at here
  have tag : str.drop pos = '<'.toNat :: (name ++ (attributes.flatMap (writeAttribute p) ++
      '>'.toNat :: (writeNodes p false children [] ++
        (ascii "</" ++ (name ++ '>'.toNat :: rest))))) := by
    rw [here]
    simp only [List.cons_append, List.append_assoc, List.nil_append]
  obtain ⟨l₁, inTag, first⟩ := stands.startTag
    documented readable valid named tag (by decide)
  have greater := drop_append (drop_append (drop_cons tag))
  have inside := drop_cons greater
  obtain ⟨l₂, stands₂, within⟩ := inner.leads (.initial str _) inside
  have closes := stands₂.close p strict readable (drop_append inside)
  rw [List.nil_append, ← Texts.merge_eq] at closes
  obtain ⟨c, more, split⟩ := children_end children (name ++ '>'.toNat :: rest)
  rw [split] at inside
  have called : ({ l₁ with state := .childs } : Locals).xmlName = name := inTag.xmlName
  have length : pos + (writeNode p false (element name attributes children) []).length =
      pos + 1 + name.length + (attributes.flatMap (writeAttribute p)).length + 1 +
        (writeNodes p false children []).length + 2 + name.length + 1 := by
    rw [writeNode_open some]
    simp only [List.length_cons, List.length_append, List.length_nil]
    show pos + (name.length + (_ + (_ + (2 + (name.length + 1)) + 1)) + 1) = _
    omega
  rw [length]
  refine ⟨_, ?_, first.trans ((inTag.childs greater).trans
    (Leads.childs rfl called inside (within _ closes)))⟩
  refine ⟨?_, ?_, .inl ⟨rfl, inTag.buf, rfl⟩⟩
  · show changeLast _ l₁.children = _
    rw [inTag.children, changeLast_append]
    rfl
  · rw [List.length_append]
    exact inTag.nsubs

mutual

theorem node_reads (documented : p.Documented) :
    ∀ x, Valid p.encoding x → Everywhere NamesValid x →
      Reads p strict str (writeNode p false x []) [readBack p x]
  | pcData nodeValue, valid, _ => by
    rw [Valid] at valid
    rw [readBack]
    exact reads_pcData documented valid
  | cData nodeValue, valid, _ => by
    rw [Valid] at valid
    rw [readBack]
    exact reads_cData valid
  | element name attributes children, valid, named => by
    rw [Valid] at valid
    rw [Everywhere, NamesValid] at named
    have readable := valid.1.readable named.1.1
    rw [readBack]
    by_cases has : hasChildren p children = true
    · rw [if_pos has]
      exact reads_open documented readable valid.2.1 named.1.2 has
        (each_reads documented children valid.2.2 named.2)
    · rw [if_neg has]
      exact reads_closed documented readable valid.2.1 named.1.2 has
  | comment _, valid, _ => valid.elim
  | docType _, valid, _ => valid.elim
  | processingInstruction _, valid, _ => valid.elim
  | document _, valid, _ => valid.elim

theorem each_reads (documented : p.Documented) :
    ∀ xs, EachValid p.encoding xs → EachEverywhere NamesValid xs →
      Reads p strict str (writeNodes p false xs []) (readBackEach p xs)
  | [], _, _ => by
    rw [writeNodes, readBackEach]
    exact reads_nil
  | x :: xs, valid, named => by
    rw [EachValid] at valid
    rw [EachEverywhere] at named
    rw [writeNodes, readBackEach]
    exact (node_reads documented x valid.1 named.1).cons
      (each_reads documented xs valid.2 named.2)

end

end Nodes

end Haxe.Source.Xml

/-!
## What is lost of a tree

The tree that is read is the normal one of the printed tree if every element with children is
printed with them.
-/

namespace Haxe.Source.Xml

open Theory

variable {p : Platform} {e : Encoding} {xs : List Xml}

theorem readBackEach_eq (xs : List Xml) : readBackEach p xs = xs.map (readBack p) := by
  induction xs with
  | nil => rfl
  | cons x xs ih => rw [readBackEach, ih, List.map_cons]

theorem keeps_readBack : pcDatas.Keeps (readBack p) where
  text t := by
    show readBack p (pcData t) = pcData t
    rw [readBack]
  other {x} other := by
    cases x with
    | pcData => exact nomatch other
    | _ =>
      rw [readBack]
      rfl

theorem keeps_both : pcDatas.Keeps (fun x => normalize (readBack p x)) where
  text t := by
    rw [keeps_readBack.text, keeps_normalize.text]
  other other := keeps_normalize.other (keeps_readBack.other other)

theorem merge_orEmpty (nodes : List Xml) :
    pcDatas.merge (normalizeEach (orEmpty nodes)) [] = pcDatas.merge (normalizeEach nodes) [] := by
  unfold orEmpty
  cases nodes with
  | nil => rfl
  | cons x xs => rfl

/-- The normal form of merged nodes. -/
theorem merge_normalize (xs : List Xml) :
    pcDatas.merge (normalizeEach (orEmpty (pcDatas.merge (readBackEach p xs) []))) [] =
      pcDatas.merge (xs.map (fun x => normalize (readBack p x))) [] := by
  rw [merge_orEmpty, normalizeEach_eq, keeps_normalize.map_merge, Texts.merge_merge,
    readBackEach_eq, List.map_map]
  rfl

/-- No child is printed where there are only some that are no texts. -/
theorem merge_ne_nil (none : hasChildren p xs = false) (some : xs ≠ []) :
    pcDatas.merge (normalizeEach xs) [] ≠ [] := by
  cases xs with
  | nil => exact absurd rfl some
  | cons x xs =>
    unfold hasChildren at none
    rw [List.any_cons, Bool.or_eq_false_iff] at none
    have other : pcDatas.view x = Option.none := by
      cases x with
      | pcData => exact nomatch none.1
      | _ => rfl
    rw [normalizeEach, Texts.merge_other (keeps_normalize.other other)]
    exact List.cons_ne_nil _ _

mutual

theorem normalize_readBack_iff : ∀ x, Valid e x →
    (normalize (readBack p x) = normalize x ↔ Everywhere (ChildrenPrinted p) x)
  | element name attributes children, valid => by
    rw [Valid] at valid
    rw [readBack, Everywhere, ChildrenPrinted, normalize, normalize, element.injEq]
    by_cases has : hasChildren p children = true
    · rw [if_pos has, merge_normalize, normalizeEach_eq,
        keeps_both.merge_map_iff keeps_normalize]
      rw [normalize_readBack_each children valid.2.2]
      exact ⟨fun same => ⟨fun _ => has, same.2.2⟩, fun all => ⟨rfl, rfl, all.2⟩⟩
    · rw [if_neg has]
      constructor
      · intro same
        by_cases empty : children = []
        · rw [empty]
          exact ⟨fun some => absurd rfl some, trivial⟩
        · exact absurd same.2.2.symm (merge_ne_nil (Bool.eq_false_iff.mpr has) empty)
      · intro all
        have empty : children = [] := by
          by_contra some
          exact has (all.1 some)
        rw [empty]
        exact ⟨rfl, rfl, rfl⟩
  | pcData _, _ => ⟨fun _ => trivial, fun _ => by rw [readBack]⟩
  | cData _, _ => ⟨fun _ => trivial, fun _ => by rw [readBack]⟩
  | comment _, valid => valid.elim
  | docType _, valid => valid.elim
  | processingInstruction _, valid => valid.elim
  | document _, valid => valid.elim

theorem normalize_readBack_each : ∀ xs, EachValid e xs →
    ((∀ x ∈ xs, normalize (readBack p x) = normalize x) ↔
      EachEverywhere (ChildrenPrinted p) xs)
  | [], _ => ⟨fun _ => trivial, fun _ => List.forall_mem_nil _⟩
  | x :: xs, valid => by
    rw [EachValid] at valid
    rw [EachEverywhere, List.forall_mem_cons, normalize_readBack_iff x valid.1,
      normalize_readBack_each xs valid.2]

end

/-- The text behind the last node that is no text ends with a character that is escaped. -/
def TextLost (xs : List Xml) : Prop :=
  (∃ x ∈ xs, pcDatas.view x = none) ∧
    ∃ c, (pcDatas.trailing xs []).getLast? = some c ∧
      (c = '&'.toNat ∨ c = '<'.toNat ∨ c = '>'.toNat)

theorem entityName_text (c : Nat) :
    (entityName false c).isSome = true ↔ c = '&'.toNat ∨ c = '<'.toNat ∨ c = '>'.toNat := by
  unfold entityName
  by_cases amp : c = '&'.toNat
  · rw [if_pos amp]
    exact ⟨fun _ => .inl amp, fun _ => rfl⟩
  by_cases lt : c = '<'.toNat
  · rw [if_neg amp, if_pos lt]
    exact ⟨fun _ => .inr (.inl lt), fun _ => rfl⟩
  by_cases gt : c = '>'.toNat
  · rw [if_neg amp, if_neg lt, if_pos gt]
    exact ⟨fun _ => .inr (.inr gt), fun _ => rfl⟩
  rw [if_neg amp, if_neg lt, if_neg gt, if_neg (fun quoted => nomatch quoted.2),
    if_neg (fun quoted => nomatch quoted.2)]
  exact ⟨fun some => (nomatch some), fun escaped => (escaped.elim amp (·.elim lt gt)).elim⟩

/-- The nodes that are read of a document. -/
theorem remaining_eq (kept : ¬ TextLost xs) :
    remaining (pcDatas.front (readBackEach p xs) []) (pcDatas.trailing (readBackEach p xs) []) =
      orEmpty (pcDatas.merge (readBackEach p xs) []) := by
  unfold remaining
  rw [Texts.merge_eq, readBackEach_eq, keeps_readBack.trailing_map]
  split
  · rename_i short
    obtain ⟨nonempty, escaped⟩ := short
    have nothing : pcDatas.trailing xs [] = [] := by
      by_contra something
      obtain ⟨c, last⟩ := Option.ne_none_iff_exists'.mp
        (mt List.getLast?_eq_none_iff.mp something)
      apply kept
      refine ⟨?_, c, last, (entityName_text c).mp (escaped c last)⟩
      by_contra none
      apply nonempty
      rw [Texts.front_eq_nil, List.forall_mem_map]
      intro x member other
      refine none ⟨x, member, ?_⟩
      cases view : pcDatas.view x with
      | none => rfl
      | some t =>
        rw [keeps_readBack.view_text view] at other
        exact nomatch other
    unfold orEmpty
    rw [nothing, Texts.part_nil, List.append_nil,
      if_neg (fun empty => nonempty (List.isEmpty_iff.mp empty))]
  · rfl

/-- Without its last text a document is another one. -/
theorem remaining_lost (lost : TextLost xs) :
    pcDatas.merge (normalizeEach (remaining (pcDatas.front (readBackEach p xs) [])
      (pcDatas.trailing (readBackEach p xs) []))) [] ≠ pcDatas.merge (normalizeEach xs) [] := by
  obtain ⟨⟨x, member, other⟩, c, last, escaped⟩ := lost
  have something : pcDatas.trailing xs [] ≠ [] := by
    intro nothing
    rw [nothing] at last
    exact nomatch last
  have short : pcDatas.front (readBackEach p xs) [] ≠ [] ∧
      ∀ d, (pcDatas.trailing (readBackEach p xs) []).getLast? = some d →
        (entityName false d).isSome = true := by
    rw [readBackEach_eq, keeps_readBack.trailing_map]
    constructor
    · intro empty
      rw [Texts.front_eq_nil, List.forall_mem_map] at empty
      exact empty x member (keeps_readBack.other other)
    · intro d found
      rw [last] at found
      rw [← Option.some.inj found]
      exact (entityName_text c).mpr escaped
  unfold remaining
  intro same
  rw [if_pos short, normalizeEach_eq, normalizeEach_eq, readBackEach_eq,
    keeps_normalize.map_front, Texts.merge_front, Texts.merge_eq, keeps_normalize.trailing_map,
    Texts.part_of_ne something, ← keeps_normalize.map_front, ← keeps_normalize.map_front,
    ← keeps_readBack.map_front] at same
  have lengths := congrArg List.length same
  rw [List.length_append, List.length_map, List.length_map, List.length_map,
    List.length_singleton] at lengths
  omega

end Haxe.Source.Xml
