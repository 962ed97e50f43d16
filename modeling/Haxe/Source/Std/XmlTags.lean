import Haxe.Source.Std.XmlScanning

/-!
# Reading printed XML: tags

The element of a start tag is the last child. Its own children are read by another call of `doParse`,
which ends at the end tag.
-/

namespace Haxe.Source.Xml

open Theory Theory.InterruptedRuns

variable {p : Platform} {strict : Bool} {str rest text name : List Nat} {pos c : Nat}
  {parent : Option (List Nat)} {l : Locals} {nodes : List Xml}
  {attributes : List (List Nat × List Nat)}

/-- In the start tag of an element, behind its attributes so far. -/
structure InTag (l : Locals) (nodes : List Xml) (name : List Nat)
    (attributes : List (List Nat × List Nat)) : Prop where
  state : l.state = .ignoreSpaces
  next : l.next = .body
  buf : l.buf = []
  children : l.children = nodes ++ [element name attributes []]
  nsubs : l.nsubs = nodes.length + 1

/-- A character that ends no part of a tag but a name. -/
structure Solid (c : Nat) : Prop where
  blank : isBlank c = false
  bang : c ≠ '!'.toNat
  question : c ≠ '?'.toNat
  slash : c ≠ '/'.toNat
  greater : c ≠ '>'.toNat
  equals : c ≠ '='.toNat

/-- A name that the parser takes. -/
structure Readable (name : List Nat) : Prop where
  nonempty : name ≠ []
  valid : ∀ c ∈ name, isValidChar c = true

section Characters

theorem Solid.of_wide (wide : 128 ≤ c) : Solid c := by
  constructor
  · unfold isBlank
    simp only [Bool.or_eq_false_iff, beq_eq_false_iff_ne]
    refine ⟨⟨⟨?_, ?_⟩, ?_⟩, ?_⟩ <;> (simp only [Char.reduceToNat]; omega)
  all_goals simp only [Char.reduceToNat]; omega

theorem Solid.of_valid (valid : isValidChar c = true) : Solid c := by
  have bound : c < 128 := by
    unfold isValidChar at valid
    simp only [Bool.or_eq_true, Bool.and_eq_true, decide_eq_true_eq, beq_iff_eq,
      Char.reduceToNat] at valid
    omega
  have all : ∀ c < 128, isValidChar c = true → isBlank c = false ∧ c ≠ '!'.toNat ∧
      c ≠ '?'.toNat ∧ c ≠ '/'.toNat ∧ c ≠ '>'.toNat ∧ c ≠ '='.toNat := by decide
  obtain ⟨blank, bang, question, slash, greater, equals⟩ := all c bound valid
  exact ⟨blank, bang, question, slash, greater, equals⟩

theorem changeLast_append (change : Xml → Xml) (x : Xml) :
    changeLast change (nodes ++ [x]) = nodes ++ [change x] := by
  unfold changeLast
  rw [List.dropLast_concat, List.getLast?_concat]
  rfl

theorem setAttribute_fresh {value : List Nat} (fresh : name ∉ attributes.map Prod.fst) :
    setAttribute attributes name value = attributes ++ [(name, value)] := by
  induction attributes with
  | nil => rfl
  | cons entry attributes ih =>
    rw [List.map_cons, List.mem_cons, not_or] at fresh
    rw [setAttribute, if_neg (Ne.symm fresh.1), ih fresh.2]
    rfl

theorem hasAttribute_fresh (fresh : name ∉ attributes.map Prod.fst) :
    hasAttribute attributes name = false := by
  unfold hasAttribute
  rw [List.any_eq_false]
  intro entry member same
  exact fresh (List.mem_map.mpr ⟨entry, member, beq_iff_eq.mp same⟩)

theorem InTag.xmlAttributes (inTag : InTag l nodes name attributes) :
    l.xmlAttributes = attributes := by
  unfold Locals.xmlAttributes
  rw [inTag.children, List.getLast?_concat]
  rfl

theorem InTag.xmlName (inTag : InTag l nodes name attributes) : l.xmlName = name := by
  unfold Locals.xmlName
  rw [inTag.children, List.getLast?_concat]
  rfl

end Characters

section StartTags

theorem Opened.tag (opened : Opened l nodes) (here : str.drop pos = c :: rest) (solid : Solid c) :
    Leads p strict str parent pos l pos { l with state := .tagName, start := pos } := by
  refine (Leads.next opened.state here solid.blank).trans (Leads.turn here ?_)
  unfold turn
  rw [show ({ l with state := l.next } : Locals).state = .beginNode from opened.next]
  show beginNode str pos c _ = _
  unfold beginNode
  rw [if_neg solid.bang, if_neg solid.question, if_neg solid.slash]

theorem tagName_stays (at_ : l.state = .tagName) (valid : isValidChar c = true) :
    turn p strict str parent pos c l = .on l (pos + 1) := by
  unfold turn
  rw [at_]
  exact if_pos valid

theorem Opened.tagName (opened : Opened l nodes) (readable : Readable name)
    (here : str.drop pos = name ++ c :: rest) (last : isValidChar c = false) :
    ∃ l', InTag l' nodes name [] ∧ Leads p strict str parent pos l (pos + name.length) l' := by
  obtain ⟨u, us, split⟩ := List.exists_cons_of_ne_nil readable.nonempty
  have first : str.drop pos = u :: (us ++ c :: rest) := by
    rw [here, split, List.cons_append]
  have solid := Solid.of_valid (readable.valid u (split ▸ List.mem_cons_self))
  have behind : str.drop (pos + name.length) = c :: rest := drop_append here
  have positive := List.length_pos_iff.mpr readable.nonempty
  have read : substr str pos (pos + name.length - pos) = name := by
    rw [Nat.add_sub_cancel_left]
    exact substr_of_drop here
  have turns : turn p strict str parent (pos + name.length) c
      { l with state := .tagName, start := pos } =
      .on { (l.addChild (element name [] [])) with
        state := .ignoreSpaces, next := .body, start := pos } (pos + name.length) := by
    have moved : ¬ pos + name.length = pos := by omega
    unfold turn
    refine (if_neg (by rw [last]; exact Bool.false_ne_true)).trans ?_
    refine (if_neg moved).trans ?_
    exact congrArg (fun v => Turn.on
      { (l.addChild (element v [] [])) with
        state := .ignoreSpaces, next := .body, start := pos } _) read
  refine ⟨_, ?_, (opened.tag first solid).trans <|
    (Leads.stay here (fun d member pos => tagName_stays rfl (readable.valid d member))).trans
      (Leads.turn behind turns)⟩
  refine ⟨rfl, rfl, opened.buf, congrArg (· ++ [element name [] []]) opened.children, ?_⟩
  show l.nsubs + 1 = _
  rw [opened.nsubs]

/-- The name of an attribute begins. -/
theorem InTag.attribName (inTag : InTag l nodes name attributes)
    (here : str.drop pos = ' '.toNat :: c :: rest) (solid : Solid c) :
    Leads p strict str parent pos l (pos + 1) { l with state := .attribName, start := pos + 1 } := by
  have behind := drop_cons here
  refine (Leads.blank inTag.state here).trans <|
    (Leads.next inTag.state behind solid.blank).trans (Leads.turn behind ?_)
  unfold turn
  rw [show ({ l with state := l.next } : Locals).state = .body from inTag.next]
  exact (if_neg solid.slash).trans (if_neg solid.greater)

theorem attribName_stays (at_ : l.state = .attribName) (valid : isValidChar c = true) :
    turn p strict str parent pos c l = .on l (pos + 1) := by
  unfold turn
  rw [at_]
  exact if_pos valid

/-- The name of an attribute, and the space behind it. -/
theorem InTag.attribute_name (inTag : InTag l nodes name attributes) {aname : List Nat}
    (readable : Readable aname) (fresh : aname ∉ attributes.map Prod.fst)
    (here : str.drop pos = ' '.toNat :: (aname ++ c :: rest)) (last : isValidChar c = false)
    (solid : isBlank c = false) :
    Leads p strict str parent pos l (pos + 1 + aname.length)
      { l with state := .equals, next := .equals, aname := aname, start := pos + 1 } := by
  obtain ⟨u, us, split⟩ := List.exists_cons_of_ne_nil readable.nonempty
  have first : str.drop pos = ' '.toNat :: u :: (us ++ c :: rest) := by
    rw [here, split, List.cons_append]
  have starts := Solid.of_valid (readable.valid u (split ▸ List.mem_cons_self))
  have inside : str.drop (pos + 1) = aname ++ c :: rest := drop_cons here
  have behind : str.drop (pos + 1 + aname.length) = c :: rest := drop_append inside
  have positive := List.length_pos_iff.mpr readable.nonempty
  have read : substr str (pos + 1) (pos + 1 + aname.length - (pos + 1)) = aname := by
    rw [Nat.add_sub_cancel_left]
    exact substr_of_drop inside
  have turns : turn p strict str parent (pos + 1 + aname.length) c
      { l with state := .attribName, start := pos + 1 } =
      .on { l with state := .ignoreSpaces, next := .equals, aname := aname, start := pos + 1 }
        (pos + 1 + aname.length) := by
    have moved : ¬ pos + 1 = pos + 1 + aname.length := by omega
    have new : hasAttribute l.xmlAttributes aname = false := by
      rw [inTag.xmlAttributes]
      exact hasAttribute_fresh fresh
    unfold turn
    refine (if_neg (by rw [last]; exact Bool.false_ne_true)).trans ?_
    refine (if_neg moved).trans ?_
    show (if hasAttribute l.xmlAttributes (substr str (pos + 1) _) = true then _ else _) = _
    rw [read, if_neg (by rw [new]; exact Bool.false_ne_true)]
  exact (inTag.attribName first starts).trans <|
    (Leads.stay inside (fun d member pos => attribName_stays rfl (readable.valid d member))).trans <|
      (Leads.turn behind turns).trans (Leads.next rfl behind solid)

theorem InTag.attribute (documented : p.Documented) (inTag : InTag l nodes name attributes)
    {entry : List Nat × List Nat} (readable : Readable entry.1)
    (formed : p.encoding.WellFormed entry.2) (fresh : entry.1 ∉ attributes.map Prod.fst)
    (here : str.drop pos = writeAttribute p entry ++ rest) :
    ∃ l', InTag l' nodes name (attributes ++ [entry]) ∧
      Leads p strict str parent pos l (pos + (writeAttribute p entry).length) l' := by
  obtain ⟨aname, value⟩ := entry
  obtain ⟨cs, rfl⟩ := formed
  have whole : str.drop pos = ' '.toNat :: (aname ++ '='.toNat ::
      ('"'.toNat :: (cs.flatMap (escaped p true) ++ '"'.toNat :: rest))) := by
    rw [here]
    unfold writeAttribute
    rw [htmlEscape_encode]
    simp only [List.append_assoc]
    rfl
  have length : pos + (writeAttribute p (aname, p.encoding.encode cs)).length =
      pos + 1 + aname.length + 1 + 1 + (cs.flatMap (escaped p true)).length + 1 := by
    unfold writeAttribute
    rw [htmlEscape_encode]
    simp only [List.length_append]
    show pos + (1 + aname.length + 2 + _ + 1) = _
    omega
  have equals : str.drop (pos + 1 + aname.length) = '='.toNat ::
      ('"'.toNat :: (cs.flatMap (escaped p true) ++ '"'.toNat :: rest)) :=
    drop_append (drop_cons whole)
  have opens := drop_cons equals
  have inside := drop_cons opens
  have closes := drop_append inside
  have begun : Collected true str (pos + 1 + aname.length + 1 + 1)
      { l with
        state := .attribVal, next := .attvalBegin, aname := aname, buf := [],
        start := pos + 1 + aname.length + 1 + 1, attrValQuote := some '"'.toNat } [] := by
    refine ⟨Nat.le_refl _, ?_, fun _ e last => (nomatch last), fun _ => rfl⟩
    show [] ++ substr str _ (_ - _) = []
    rw [Nat.sub_self]
    rfl
  obtain ⟨buf, start, escapeNext, collected, leads⟩ :=
    Leads.chars documented (collects_attribVal) rfl rfl begun inside
  rw [length]
  refine ⟨_, ?_, (inTag.attribute_name readable fresh whole rfl rfl).trans <|
    (Leads.turn equals rfl).trans <| (Leads.next rfl opens rfl).trans <|
    (Leads.turn opens rfl).trans <| leads.trans (Leads.turn closes rfl)⟩
  refine ⟨rfl, rfl, rfl, ?_, inTag.nsubs⟩
  refine (congrArg (fun v => changeLast (set aname v) l.children) collected.content).trans ?_
  rw [inTag.children, changeLast_append, List.nil_append]
  show nodes ++ [element name (setAttribute attributes aname (p.encoding.encode cs)) []] = _
  rw [setAttribute_fresh fresh]

/-- The attributes behind those that are read. -/
theorem InTag.more (documented : p.Documented) (inTag : InTag l nodes name attributes)
    {more : List (List Nat × List Nat)} (readable : ∀ entry ∈ more, Readable entry.1)
    (formed : ∀ entry ∈ more, p.encoding.WellFormed entry.2)
    (distinct : ((attributes ++ more).map Prod.fst).Nodup)
    (here : str.drop pos = more.flatMap (writeAttribute p) ++ rest) :
    ∃ l', InTag l' nodes name (attributes ++ more) ∧
      Leads p strict str parent pos l (pos + (more.flatMap (writeAttribute p)).length) l' := by
  induction more generalizing pos l attributes with
  | nil =>
    rw [List.append_nil]
    exact ⟨l, inTag, .refl⟩
  | cons entry more ih =>
    rw [List.flatMap_cons, List.append_assoc] at here
    have fresh : entry.1 ∉ attributes.map Prod.fst := by
      intro member
      rw [List.map_append] at distinct
      exact (List.nodup_append.mp distinct).2.2 entry.1 member entry.1 List.mem_cons_self rfl
    have joined : attributes ++ [entry] ++ more = attributes ++ entry :: more := by
      rw [List.append_assoc]
      rfl
    obtain ⟨l', inTag', first⟩ := inTag.attribute documented (readable entry List.mem_cons_self)
      (formed entry List.mem_cons_self) fresh here
    obtain ⟨l'', inTag'', second⟩ := ih inTag'
      (fun other member => readable other (List.mem_cons_of_mem _ member))
      (fun other member => formed other (List.mem_cons_of_mem _ member))
      (by rwa [joined]) (drop_append here)
    rw [joined] at inTag''
    rw [List.flatMap_cons, List.length_append, ← Nat.add_assoc]
    exact ⟨l'', inTag'', first.trans second⟩

end StartTags

section Elements

/-- An element that is closed by its start tag. -/
theorem InTag.closed (inTag : InTag l nodes name attributes)
    (here : str.drop pos = ascii "/>" ++ rest) :
    ∃ l', Stands str (pos + 2) l' (nodes ++ [element name attributes []]) [] ∧
      Leads p strict str parent pos l (pos + 2) l' := by
  have slash : str.drop pos = '/'.toNat :: '>'.toNat :: rest := here
  have greater := drop_cons slash
  have body : turn p strict str parent pos '/'.toNat { l with state := l.next } =
      .on { l with state := .waitEnd } (pos + 1) := by
    unfold turn
    rw [show ({ l with state := l.next } : Locals).state = .body from inTag.next]
    rfl
  have waitEnd : turn p strict str parent (pos + 1) '>'.toNat { l with state := .waitEnd } =
      .on { l with state := .begin } (pos + 2) := rfl
  refine ⟨_, ?_, (Leads.next inTag.state slash rfl).trans <|
    (Leads.turn slash body).trans (Leads.turn greater waitEnd)⟩
  refine ⟨inTag.children, ?_, .inl ⟨rfl, inTag.buf, rfl⟩⟩
  rw [List.length_append]
  exact inTag.nsubs

/-- The start tag of an element with children. -/
theorem InTag.childs (inTag : InTag l nodes name attributes)
    (here : str.drop pos = '>'.toNat :: rest) :
    Leads p strict str parent pos l (pos + 1) { l with state := .childs } := by
  have body : turn p strict str parent pos '>'.toNat { l with state := l.next } =
      .on { l with state := .childs } (pos + 1) := by
    unfold turn
    rw [show ({ l with state := l.next } : Locals).state = .body from inTag.next]
    rfl
  exact (Leads.next inTag.state here rfl).trans (Leads.turn here body)

/-- The children of an element, up to the position that is returned. -/
theorem Leads.childs (at_ : l.state = .childs) (called : l.xmlName = name)
    (here : str.drop pos = c :: rest) {last : Nat} {children : List Xml}
    (inner : Runs p strict str (some name) pos .initial (.returned (last, children))) :
    Leads p strict str parent pos l (last + 1)
      { l with
        children := changeLast (addChildren children) l.children, start := last,
        state := .begin } := by
  intro r runs
  refine Settles.step₂ inner runs (fun fuel read behind => ?_)
  have turns : Xml.turn p strict str parent pos c l = .childs := by
    unfold Xml.turn
    rw [at_]
  rw [doParse, getElem?_of_drop here]
  simp only [turns]
  rw [called, read]
  exact behind

theorem Runs.childs_thrown (at_ : l.state = .childs) (called : l.xmlName = name)
    (here : str.drop pos = c :: rest) {e : Exn}
    (inner : Runs p strict str (some name) pos .initial (.thrown e)) :
    Runs p strict str parent pos l (.thrown e) := by
  refine Settles.step inner (fun fuel read => ?_)
  have turns : turn p strict str parent pos c l = .childs := by
    unfold turn
    rw [at_]
  rw [doParse, getElem?_of_drop here]
  simp only [turns]
  rw [called, read]
  rfl

/-- An element without children has an empty text. -/
def orEmpty (nodes : List Xml) : List Xml := if nodes.isEmpty then [pcData []] else nodes

theorem Stands.close (p : Platform) (strict : Bool) (stands : Stands str pos l nodes text)
    (readable : Readable name)
    (here : str.drop pos = ascii "</" ++ (name ++ '>'.toNat :: rest)) :
    Runs p strict str (some name) pos l
      (.returned (pos + 2 + name.length, orEmpty (nodes ++ pcDatas.part text))) := by
  obtain ⟨l', opened, bracket⟩ := stands.bracket
    here
  obtain ⟨u, us, split⟩ := List.exists_cons_of_ne_nil readable.nonempty
  have slash : str.drop (pos + 1) = '/'.toNat :: (name ++ '>'.toNat :: rest) := drop_cons here
  have inside : str.drop (pos + 2) = name ++ '>'.toNat :: rest := drop_cons slash
  have first : str.drop (pos + 2) = u :: (us ++ '>'.toNat :: rest) := by
    rw [inside, split, List.cons_append]
  have behind : str.drop (pos + 2 + name.length) = '>'.toNat :: rest := drop_append inside
  have solid := Solid.of_valid (readable.valid u (split ▸ List.mem_cons_self))
  have positive := List.length_pos_iff.mpr readable.nonempty
  have read : substr str (pos + 2) (pos + 2 + name.length - (pos + 2)) = name := by
    rw [Nat.add_sub_cancel_left]
    exact substr_of_drop inside
  have begins : turn p strict str (some name) (pos + 1) '/'.toNat { l' with state := l'.next } =
      .on { l' with start := pos + 2, state := .ignoreSpaces, next := .close } (pos + 2) := by
    unfold turn
    rw [show ({ l' with state := l'.next } : Locals).state = .beginNode from opened.next]
    rfl
  have stays : ∀ d ∈ name, ∀ pos', turn p strict str (some name) pos' d
      { l' with start := pos + 2, state := .close, next := .close } =
      .on { l' with start := pos + 2, state := .close, next := .close } (pos' + 1) :=
    fun d member _ => if_pos (readable.valid d member)
  have ends : turn p strict str (some name) (pos + 2 + name.length) '>'.toNat
      { l' with start := pos + 2, state := .close, next := .close } =
      .on { l' with start := pos + 2, state := .ignoreSpaces, next := .waitEndRet }
        (pos + 2 + name.length) := by
    have moved : ¬ pos + 2 = pos + 2 + name.length := by omega
    show Xml.close str (some name) _ _ _ = _
    unfold Xml.close
    refine (if_neg (by decide)).trans ((if_neg moved).trans ?_)
    show (if substr str (pos + 2) _ ≠ name then _ else _) = _
    rw [read, if_neg (fun other => other rfl)]
  have last : Runs p strict str (some name) (pos + 2 + name.length)
      { l' with start := pos + 2, state := .waitEndRet, next := .waitEndRet }
      (.returned (pos + 2 + name.length, orEmpty (nodes ++ pcDatas.part text))) := by
    have back : turn p strict str (some name) (pos + 2 + name.length) '>'.toNat
        { l' with start := pos + 2, state := .waitEndRet, next := .waitEndRet } =
        .back (if l'.nsubs = 0 then
          { l' with
            start := pos + 2, state := .waitEndRet, next := .waitEndRet,
            children := l'.children ++ [Xml.pcData []] }
        else { l' with start := pos + 2, state := .waitEndRet, next := .waitEndRet }) := rfl
    refine Settles.done (fun fuel => ?_)
    rw [doParse, getElem?_of_drop behind]
    simp only [back]
    rw [opened.nsubs, opened.children]
    unfold orEmpty
    by_cases empty : nodes ++ pcDatas.part text = []
    · rw [empty]
      rfl
    · rw [if_neg (fun none => empty (List.length_eq_zero_iff.mp none)),
        if_neg (fun none => empty (List.isEmpty_iff.mp none))]
  exact bracket _ <| Leads.next opened.state slash rfl _ <| Leads.turn slash begins _ <|
    Leads.next rfl first solid.blank _ <| Leads.stay inside stays _ <|
    Leads.turn behind ends _ <| Leads.next rfl behind rfl _ last

end Elements

section Documents

/-- The last text is lost behind another node if it ends with an entity. -/
def remaining (nodes : List Xml) (text : List Nat) : List Xml :=
  if nodes ≠ [] ∧ ∀ c, text.getLast? = some c → (entityName false c).isSome then nodes
  else orEmpty (nodes ++ pcDatas.part text)

theorem Stands.finish (stands : Stands str pos l nodes text) (here : str.drop pos = []) :
    Runs p strict str none pos l (.returned (pos, remaining nodes text)) := by
  have outside : str[pos]? = none := by
    rw [← List.head?_drop, here]
    rfl
  refine Settles.done (fun fuel => ?_)
  rw [doParse, outside]
  unfold remaining
  obtain ⟨at_, empty, nothing⟩ | ⟨at_, collected, something⟩ := stands.phase
  · have all : ∀ c, text.getLast? = some c → (entityName false c).isSome := by
      intro c last
      rw [nothing] at last
      cases last
    have start : Xml.finish strict str none pos l =
        if pos ≠ pos ∨ l.nsubs = 0 then
          .returned (pos, l.children ++ [Xml.pcData (l.buf ++ substr str pos (pos - pos))])
        else .returned (pos, l.children) := by
      unfold Xml.finish
      simp only [if_pos at_]
      rfl
    show Xml.finish strict str none pos l = _
    rw [start, stands.nsubs, stands.children, empty, nothing, Nat.sub_self, Texts.part_nil,
      List.append_nil]
    by_cases nodesEmpty : nodes = []
    · rw [nodesEmpty, if_pos (.inr rfl), if_neg (fun some => some.1 rfl)]
      rfl
    · rw [if_neg (by
          rintro (same | none)
          · exact same rfl
          · exact nodesEmpty (List.length_eq_zero_iff.mp none)),
        if_pos ⟨nodesEmpty, nothing ▸ all⟩]
  · have start : Xml.finish strict str none pos l =
        if pos ≠ l.start ∨ l.nsubs = 0 then
          .returned (pos, l.children ++ [Xml.pcData (l.addSub str pos).buf])
        else .returned (pos, l.children) := by
      unfold Xml.finish
      have other : ¬ l.state = .begin := by
        rw [at_]
        decide
      simp only [if_neg other, if_pos at_]
    have content : (l.addSub str pos).buf = text := collected.content
    show Xml.finish strict str none pos l = _
    rw [start, content, stands.nsubs, stands.children, Texts.part_of_ne something]
    by_cases lost : nodes ≠ [] ∧ ∀ c, text.getLast? = some c → (entityName false c).isSome
    · rw [if_pos lost, if_neg]
      rintro (moved | none)
      · exact moved (collected.flushed.mpr lost.2).symm
      · exact lost.1 (List.length_eq_zero_iff.mp none)
    · rw [if_neg lost, if_pos]
      · unfold orEmpty
        rw [if_neg]
        · rfl
        · intro none
          exact absurd (List.append_eq_nil_iff.mp (List.isEmpty_iff.mp none)).2
            (List.cons_ne_nil _ _)
      · by_cases nodesEmpty : nodes = []
        · exact .inr (List.length_eq_zero_iff.mpr nodesEmpty)
        · exact .inl (fun same => lost ⟨nodesEmpty, collected.flushed.mp same.symm⟩)

end Documents

end Haxe.Source.Xml
