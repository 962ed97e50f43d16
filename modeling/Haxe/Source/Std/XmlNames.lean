import Haxe.Source.Std.XmlReadBack

/-!
# Names that are not read

A name with a character outside of ASCII ends in the parser as an error.
-/

namespace Haxe.Source.Xml

open Theory Theory.InterruptedRuns

variable {p : Platform} {strict : Bool} {str rest text name : List Nat} {pos c : Nat}
  {parent : Option (List Nat)} {l : Locals} {nodes : List Xml}
  {attributes : List (List Nat × List Nat)}

section Characters

theorem IsName.unit {e : Encoding} (isName : IsName e name) (member : c ∈ name) :
    isValidChar c = true ∨ 128 ≤ c := by
  obtain ⟨d, ds, rfl, start, others⟩ := isName.named
  have all : ∀ x < 128, isNameChar x = true → isValidChar x = true := by decide
  have of_char : ∀ x : Char, isNameChar x.toNat = true → c ∈ e.units x →
      isValidChar c = true ∨ 128 ≤ c := by
    intro x named inside
    by_cases narrow : x.toNat < 128
    · rw [units_narrow e narrow, List.mem_singleton] at inside
      rw [inside]
      exact .inl (all _ narrow named)
    · exact .inr (units_wide e (Nat.not_lt.mp narrow) c inside)
  obtain ⟨x, among, inside⟩ := List.mem_flatMap.mp member
  rw [List.mem_cons] at among
  obtain rfl | among := among
  · apply of_char x _ inside
    unfold isNameChar
    rw [start]
    rfl
  · exact of_char x (others x among) inside

/-- The first character of a name that is not read. -/
theorem first_invalid (invalid : ¬ ∀ c ∈ name, isValidChar c = true) :
    ∃ front c behind, name = front ++ c :: behind ∧ (∀ d ∈ front, isValidChar d = true) ∧
      isValidChar c = false := by
  induction name with
  | nil => exact absurd (List.forall_mem_nil _) invalid
  | cons d name ih =>
    by_cases valid : isValidChar d = true
    · rw [List.forall_mem_cons] at invalid
      obtain ⟨front, c, behind, rfl, all, last⟩ := ih (fun rest => invalid ⟨valid, rest⟩)
      exact ⟨d :: front, c, behind, rfl, List.forall_mem_cons.mpr ⟨valid, all⟩, last⟩
    · exact ⟨[], d, name, rfl, List.forall_mem_nil _, Bool.eq_false_iff.mpr valid⟩

end Characters

section Tags

theorem Opened.refuses (opened : Opened l nodes) {e : Encoding} (isName : IsName e name)
    (invalid : ¬ ∀ c ∈ name, isValidChar c = true) (here : str.drop pos = name ++ rest) :
    ∃ e, Runs p strict str parent pos l (.thrown e) := by
  obtain ⟨front, c, more, rfl, valid, last⟩ := first_invalid invalid
  have member : c ∈ front ++ c :: more := List.mem_append_right _ List.mem_cons_self
  have solid : Solid c := .of_wide <| (isName.unit member).resolve_left
    (fun valid => Bool.false_ne_true (last.symm.trans valid))
  have wrong : ¬ isValidChar c = true := by
    rw [last]
    exact Bool.false_ne_true
  rw [List.append_assoc, List.cons_append] at here
  by_cases empty : front = []
  · rw [empty, List.nil_append] at here
    refine ⟨_, opened.tag here solid _ (Runs.fail (e := ?_) here ?_)⟩
    · exact exception str (ascii "Expected node name") pos
    · unfold turn
      exact (if_neg wrong).trans (if_pos rfl)
  · obtain ⟨l', inTag, leads⟩ := opened.tagName
      ⟨empty, valid⟩ here last
    have behind := drop_append here
    have body : turn p strict str parent (pos + front.length) c { l' with state := l'.next } =
        .on { l' with state := .attribName, start := pos + front.length }
          (pos + front.length) := by
      unfold turn
      rw [show ({ l' with state := l'.next } : Locals).state = .body from inTag.next]
      exact (if_neg solid.slash).trans (if_neg solid.greater)
    refine ⟨exception str (ascii "Expected attribute name") (pos + front.length),
      leads _ <| Leads.next inTag.state behind solid.blank _ <| Leads.turn behind body _ <|
      Runs.fail behind ?_⟩
    unfold turn
    exact (if_neg wrong).trans (if_pos rfl)

theorem InTag.refuses (inTag : InTag l nodes name attributes) {e : Encoding} {aname : List Nat}
    (isName : IsName e aname) (invalid : ¬ ∀ c ∈ aname, isValidChar c = true)
    (here : str.drop pos = ' '.toNat :: (aname ++ rest)) :
    ∃ e, Runs p strict str parent pos l (.thrown e) := by
  obtain ⟨front, c, more, rfl, valid, last⟩ := first_invalid invalid
  have member : c ∈ front ++ c :: more := List.mem_append_right _ List.mem_cons_self
  have solid : Solid c := .of_wide <| (isName.unit member).resolve_left
    (fun valid => Bool.false_ne_true (last.symm.trans valid))
  have wrong : ¬ isValidChar c = true := by
    rw [last]
    exact Bool.false_ne_true
  rw [List.append_assoc, List.cons_append] at here
  have inside := drop_cons here
  have behind := drop_append inside
  by_cases empty : front = []
  · rw [empty, List.nil_append] at here inside
    refine ⟨exception str (ascii "Expected attribute name") (pos + 1),
      inTag.attribName here solid _ (Runs.fail inside ?_)⟩
    unfold turn
    exact (if_neg wrong).trans (if_pos rfl)
  · have positive := List.length_pos_iff.mpr empty
    by_cases fresh : front ∈ attributes.map Prod.fst
    · obtain ⟨u, us, split⟩ := List.exists_cons_of_ne_nil empty
      have starts := Solid.of_valid (valid u (split ▸ List.mem_cons_self))
      have first : str.drop pos = ' '.toNat :: u :: (us ++ c :: (more ++ rest)) := by
        rw [here, split, List.cons_append]
      have read : substr str (pos + 1) (pos + 1 + front.length - (pos + 1)) = front := by
        rw [Nat.add_sub_cancel_left]
        exact substr_of_drop inside
      have known : hasAttribute l.xmlAttributes front = true := by
        rw [inTag.xmlAttributes]
        obtain ⟨entry, among, same⟩ := List.mem_map.mp fresh
        exact List.any_eq_true.mpr ⟨entry, among, beq_iff_eq.mpr same⟩
      refine ⟨exception str (ascii "Duplicate attribute [" ++ front ++ ascii "]")
        (pos + 1 + front.length), inTag.attribName first starts _ <|
        Leads.stay inside (fun d member pos => attribName_stays rfl (valid d member)) _ <|
        Runs.fail behind ?_⟩
      have moved : ¬ pos + 1 = pos + 1 + front.length := by omega
      unfold turn
      refine (if_neg wrong).trans ((if_neg moved).trans ?_)
      show (if hasAttribute l.xmlAttributes (substr str (pos + 1) _) = true then _ else _) = _
      rw [read, if_pos known]
      rfl
    · refine ⟨exception str (ascii "Expected =") (pos + 1 + front.length),
        inTag.attribute_name ⟨empty, valid⟩ fresh here last solid.blank _ <|
        Runs.fail behind ?_⟩
      unfold turn
      exact if_neg solid.equals

theorem InTag.refuses_more (documented : p.Documented) (inTag : InTag l nodes name attributes)
    {more : List (List Nat × List Nat)} (names : ∀ entry ∈ more, IsName p.encoding entry.1)
    (formed : ∀ entry ∈ more, p.encoding.WellFormed entry.2)
    (distinct : ((attributes ++ more).map Prod.fst).Nodup)
    (invalid : ¬ ∀ entry ∈ more, ∀ c ∈ entry.1, isValidChar c = true)
    (here : str.drop pos = more.flatMap (writeAttribute p) ++ rest) :
    ∃ e, Runs p strict str parent pos l (.thrown e) := by
  induction more generalizing pos l attributes with
  | nil => exact absurd (List.forall_mem_nil _) invalid
  | cons entry more ih =>
    rw [List.flatMap_cons, List.append_assoc] at here
    by_cases valid : ∀ c ∈ entry.1, isValidChar c = true
    · rw [List.forall_mem_cons] at invalid
      have fresh : entry.1 ∉ attributes.map Prod.fst := by
        intro member
        rw [List.map_append] at distinct
        exact (List.nodup_append.mp distinct).2.2 entry.1 member entry.1 List.mem_cons_self rfl
      have joined : attributes ++ [entry] ++ more = attributes ++ entry :: more := by
        rw [List.append_assoc]
        rfl
      obtain ⟨l', inTag', first⟩ := inTag.attribute
        documented ((names entry List.mem_cons_self).readable valid)
        (formed entry List.mem_cons_self) fresh here
      obtain ⟨e, thrown⟩ := ih inTag'
        (fun other member => names other (List.mem_cons_of_mem _ member))
        (fun other member => formed other (List.mem_cons_of_mem _ member))
        (by rwa [joined]) (fun rest => invalid ⟨valid, rest⟩) (drop_append here)
      exact ⟨e, first _ thrown⟩
    · have begins : str.drop pos = ' '.toNat :: (entry.1 ++ (ascii "=\"" ++
          (htmlEscape p entry.2 true ++ (ascii "\"" ++
            (more.flatMap (writeAttribute p) ++ rest))))) := by
        rw [here]
        unfold writeAttribute
        simp only [List.append_assoc]
        rfl
      exact inTag.refuses (names entry List.mem_cons_self) valid begins

theorem Stands.refuses_tag (documented : p.Documented) (stands : Stands str pos l nodes text)
    (isName : IsName p.encoding name) (valid : ValidAttributes p.encoding attributes)
    (invalid : ¬ ((∀ c ∈ name, isValidChar c = true) ∧
      ∀ entry ∈ attributes, ∀ c ∈ entry.1, isValidChar c = true))
    (here : str.drop pos =
      '<'.toNat :: (name ++ (attributes.flatMap (writeAttribute p) ++ c :: rest)))
    (last : isValidChar c = false) :
    ∃ e, Runs p strict str parent pos l (.thrown e) := by
  obtain ⟨l₁, opened, first⟩ := stands.bracket here
  have behind := drop_cons here
  by_cases named : ∀ c ∈ name, isValidChar c = true
  · obtain ⟨d, ds, split, other⟩ := attributes_end rest attributes last
    obtain ⟨l₂, inTag, second⟩ := opened.tagName
      (isName.readable named) (by rw [behind, split]) other
    obtain ⟨e, thrown⟩ := inTag.refuses_more documented
      valid.names valid.values valid.distinct (fun all => invalid ⟨named, all⟩)
      (drop_append behind)
    exact ⟨e, first _ (second _ thrown)⟩
  · obtain ⟨e, thrown⟩ := opened.refuses isName
      named behind
    exact ⟨e, first _ thrown⟩

end Tags

section Nodes

/-- Where a text is written between the nodes of an element, the parser throws. -/
structure Refuses (p : Platform) (strict : Bool) (str written : List Nat) : Prop where
  thrown : ∀ {parent pos l nodes text rest}, Stands str pos l nodes text →
    str.drop pos = written ++ rest → ∃ e, Runs p strict str parent pos l (.thrown e)

theorem Refuses.append {written : List Nat} (first : Refuses p strict str written)
    (more : List Nat) : Refuses p strict str (written ++ more) := by
  refine ⟨fun stands here => ?_⟩
  rw [List.append_assoc] at here
  exact first.thrown stands here

theorem Reads.refuses {written more : List Nat} {xs : List Xml}
    (first : Reads p strict str written xs) (others : Refuses p strict str more) :
    Refuses p strict str (written ++ more) := by
  refine ⟨fun {parent _ _ _ _ _} stands here => ?_⟩
  rw [List.append_assoc] at here
  obtain ⟨l₁, stands₁, leads⟩ := first.leads stands here
  obtain ⟨e, thrown⟩ := others.thrown stands₁ (drop_append here)
  exact ⟨e, leads _ thrown⟩

/-- An element whose tag is refused. -/
theorem refuses_tag (documented : p.Documented) {children : List Xml}
    (isName : IsName p.encoding name) (valid : ValidAttributes p.encoding attributes)
    (invalid : ¬ NamesValid (element name attributes children)) :
    Refuses p strict str (writeNode p false (element name attributes children) []) := by
  refine ⟨fun stands here => ?_⟩
  by_cases has : hasChildren p children = true
  · rw [writeNode_open has] at here
    simp only [List.cons_append, List.append_assoc] at here
    exact stands.refuses_tag documented isName valid invalid here (by decide)
  · have slash : ascii "/>" = '/'.toNat :: ['>'.toNat] := rfl
    rw [writeNode_closed has, slash] at here
    simp only [List.cons_append, List.append_assoc] at here
    exact stands.refuses_tag documented isName valid invalid here (by decide)

/-- An element of which a child is refused. -/
theorem refuses_open (documented : p.Documented) {children : List Xml} (readable : Readable name)
    (valid : ValidAttributes p.encoding attributes)
    (named : ∀ entry ∈ attributes, ∀ c ∈ entry.1, isValidChar c = true)
    (some : hasChildren p children = true)
    (inner : Refuses p strict str (writeNodes p false children [])) :
    Refuses p strict str (writeNode p false (element name attributes children) []) := by
  refine ⟨fun {parent _ _ _ _ _} stands here => ?_⟩
  rw [writeNode_open some] at here
  simp only [List.cons_append, List.append_assoc] at here
  obtain ⟨l₁, inTag, first⟩ := stands.startTag
    documented readable valid named here (by decide)
  have greater := drop_append (drop_append (drop_cons here))
  have inside := drop_cons greater
  obtain ⟨e, thrown⟩ := inner.thrown (.initial str _) inside
  obtain ⟨c, more, split⟩ := children_end children (name ++ '>'.toNat :: ([] ++ _))
  rw [split] at inside
  have called : ({ l₁ with state := .childs } : Locals).xmlName = name := inTag.xmlName
  exact ⟨e, first _ (inTag.childs greater _ (Runs.childs_thrown rfl called inside thrown))⟩

theorem names_of_none : ∀ {children : List Xml}, EachValid p.encoding children →
    hasChildren p children = false → EachEverywhere NamesValid children := by
  intro children valid none
  induction children with
  | nil => trivial
  | cons x xs ih =>
    rw [EachValid] at valid
    unfold hasChildren at none ih
    rw [List.any_cons, Bool.or_eq_false_iff] at none
    rw [EachEverywhere]
    refine ⟨?_, ih valid.2 none.2⟩
    cases x with
    | cData => trivial
    | element | pcData => exact nomatch none.1
    | comment | docType | processingInstruction | document => exact valid.1.elim

mutual

theorem node_refuses (documented : p.Documented) :
    ∀ x, Valid p.encoding x → ¬ Everywhere NamesValid x →
      Refuses p strict str (writeNode p false x [])
  | pcData _, _, invalid => absurd trivial invalid
  | cData _, _, invalid => absurd trivial invalid
  | element name attributes children, valid, invalid => by
    rw [Valid] at valid
    rw [Everywhere] at invalid
    by_cases named : NamesValid (element name attributes children)
    · have inner : ¬ EachEverywhere NamesValid children := fun all => invalid ⟨named, all⟩
      have has : hasChildren p children = true := by
        rw [← Bool.not_eq_false]
        exact fun none => inner (names_of_none valid.2.2 none)
      exact refuses_open documented (valid.1.readable named.1) valid.2.1 named.2 has
        (each_refuses documented children valid.2.2 inner)
    · exact refuses_tag documented valid.1 valid.2.1 named
  | comment _, valid, _ => valid.elim
  | docType _, valid, _ => valid.elim
  | processingInstruction _, valid, _ => valid.elim
  | document _, valid, _ => valid.elim

theorem each_refuses (documented : p.Documented) :
    ∀ xs, EachValid p.encoding xs → ¬ EachEverywhere NamesValid xs →
      Refuses p strict str (writeNodes p false xs [])
  | [], _, invalid => absurd trivial invalid
  | x :: xs, valid, invalid => by
    rw [EachValid] at valid
    rw [EachEverywhere] at invalid
    rw [writeNodes]
    by_cases named : Everywhere NamesValid x
    · exact (node_reads documented x valid.1 named).refuses
        (each_refuses documented xs valid.2 (fun all => invalid ⟨named, all⟩))
    · exact (node_refuses documented x valid.1 named).append _

end

end Nodes

end Haxe.Source.Xml
