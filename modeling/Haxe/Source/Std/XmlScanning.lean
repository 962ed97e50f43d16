import Haxe.Theory.Fuel
import Haxe.Source.Std.XmlParser
import Haxe.Source.Std.XmlPrinted

/-!
# Reading printed XML: turns of the loop

Where the loop stands behind a run of turns, from which the rest is read.
-/

namespace Haxe.Source.Xml

open Theory Theory.InterruptedRuns

variable {p : Platform} {strict : Bool} {str rest text : List Nat} {pos c : Nat}
  {parent : Option (List Nat)} {l : Locals} {r : Reading (Nat × List Xml)}

/-- From a position, `doParse` ends with `r`. -/
def Runs (p : Platform) (strict : Bool) (str : List Nat) (parent : Option (List Nat)) (pos : Nat)
    (l : Locals) (r : Reading (Nat × List Xml)) : Prop :=
  Settles (fun fuel => doParse p strict str fuel parent pos l) r

/-- The loop gets from a position to another one. -/
def Leads (p : Platform) (strict : Bool) (str : List Nat) (parent : Option (List Nat)) (pos : Nat)
    (l : Locals) (pos' : Nat) (l' : Locals) : Prop :=
  ∀ r, Runs p strict str parent pos' l' r → Runs p strict str parent pos l r

section Turns

theorem getElem?_of_drop (here : str.drop pos = c :: rest) : str[pos]? = some c := by
  rw [← List.head?_drop, here]
  rfl

theorem Leads.refl : Leads p strict str parent pos l pos l := fun _ runs => runs

theorem Leads.trans {pos' pos'' : Nat} {l' l'' : Locals}
    (first : Leads p strict str parent pos l pos' l')
    (second : Leads p strict str parent pos' l' pos'' l'') :
    Leads p strict str parent pos l pos'' l'' :=
  fun r runs => first r (second r runs)

theorem Leads.turn {pos' : Nat} {l' : Locals} (here : str.drop pos = c :: rest)
    (turns : turn p strict str parent pos c l = .on l' pos') :
    Leads p strict str parent pos l pos' l' := by
  intro r runs
  refine Settles.succ (fun fuel => ?_) runs
  rw [doParse, getElem?_of_drop here]
  simp only [turns]

theorem Runs.fail {e : Exn} (here : str.drop pos = c :: rest)
    (turns : turn p strict str parent pos c l = .fail e) :
    Runs p strict str parent pos l (.thrown e) := by
  refine Settles.done (fun fuel => ?_)
  rw [doParse, getElem?_of_drop here]
  simp only [turns]

/-- Units at which nothing changes. -/
theorem Leads.stay (here : str.drop pos = text ++ rest)
    (stays : ∀ c ∈ text, ∀ pos, Xml.turn p strict str parent pos c l = .on l (pos + 1)) :
    Leads p strict str parent pos l (pos + text.length) l := by
  induction text generalizing pos with
  | nil => exact .refl
  | cons c text ih =>
    have next : pos + (c :: text).length = pos + 1 + text.length := by
      rw [List.length_cons]
      omega
    rw [next]
    exact (turn here (stays c List.mem_cons_self pos)).trans
      (ih (drop_cons here) (fun d member => stays d (List.mem_cons_of_mem c member)))

/-- No space is left to be ignored. -/
theorem Leads.next (at_ : l.state = .ignoreSpaces) (here : str.drop pos = c :: rest)
    (solid : isBlank c = false) :
    Leads p strict str parent pos l pos { l with state := l.next } := by
  apply turn here
  unfold Xml.turn
  rw [at_]
  exact if_neg (by rw [solid]; exact Bool.false_ne_true)

theorem Leads.blank (at_ : l.state = .ignoreSpaces) (here : str.drop pos = ' '.toNat :: rest) :
    Leads p strict str parent pos l (pos + 1) l := by
  apply turn here
  unfold Xml.turn
  rw [at_]
  rfl

end Turns

section Entities

/-- A state in which a text is collected. -/
structure Collects (p : Platform) (strict : Bool) (str : List Nat) (parent : Option (List Nat))
    (state : S) (attrValQuote : Option Nat) (quotes : Bool) : Prop where
  entity : ∀ {pos l}, l.state = state →
    turn p strict str parent pos '&'.toNat l =
      .on { l.addSub str pos with state := .escape, escapeNext := state, start := pos + 1 } (pos + 1)
  plain : ∀ {pos l c}, l.state = state → l.attrValQuote = attrValQuote →
    entityName quotes c = none → turn p strict str parent pos c l = .on l (pos + 1)

/-- What is collected in front of a position. The buffer holds all of it behind an entity only. -/
structure Collected (quotes : Bool) (str : List Nat) (pos : Nat) (l : Locals) (text : List Nat) :
    Prop where
  start_le : l.start ≤ pos
  content : l.buf ++ substr str l.start (pos - l.start) = text
  flushed : l.start = pos ↔ ∀ c, text.getLast? = some c → (entityName quotes c).isSome

theorem collects_pcdata (q : Option Nat) : Collects p strict str parent .pcdata q false where
  entity at_ := by
    unfold turn
    rw [at_]
    rfl
  plain at_ _ plain := by
    have other := entityName_none plain
    unfold turn
    rw [at_]
    exact (if_neg other.2.1).trans (if_neg other.1)

theorem collects_attribVal :
    Collects p strict str parent .attribVal (some '"'.toNat) true where
  entity at_ := by
    unfold turn
    rw [at_]
    rfl
  plain {pos l c} at_ quote plain := by
    have other := entityName_none plain
    unfold turn
    rw [at_]
    show attribVal strict str pos c l = _
    unfold attribVal
    rw [quote, if_neg other.1, if_neg (fun h => h.1.elim other.2.2.1 other.2.1), if_neg]
    exact fun same => other.2.2.2 rfl (Option.some.inj same)

theorem resolve_entityName (documented : p.Documented) {quotes : Bool} {c : Nat}
    {name : List Nat} (named : entityName quotes c = some name) (pos : Nat) :
    resolve p strict str name pos = .ok [c] := by
  obtain ⟨rfl, rfl⟩ | ⟨rfl, rfl⟩ | ⟨rfl, rfl⟩ | ⟨rfl, rfl⟩ | ⟨rfl, rfl⟩ := entityName_some named
  · rfl
  · rfl
  · rfl
  · rfl
  · have number : p.parseInt (ascii "039") = some 39 :=
      documented.decimal (ascii "039") (by decide) (by decide) (by decide)
    have narrow : ¬ (p.encoding = .bytes ∧ 39 ≥ 128) := fun h => absurd h.2 (by decide)
    have single : p.encoding.addChar 39 = [39] := if_neg (fun h => absurd h.2 (by decide))
    unfold resolve
    rw [if_pos (by rfl), if_neg (by decide)]
    show addNumber p str (p.parseInt (ascii "039")) pos = _
    rw [number]
    unfold addNumber
    show (if p.encoding = .bytes ∧ 39 ≥ 128 then _ else addCode p (some 39)) = _
    rw [if_neg narrow]
    show (if 39 ≤ 0x10FFFF then Except.ok (p.encoding.addChar 39) else addOther p (some 39)) = _
    rw [if_pos (by decide), single]
    rfl

theorem entityName_valid {quotes : Bool} {c : Nat} {name : List Nat}
    (named : entityName quotes c = some name) :
    ∀ u ∈ name, u ≠ ';'.toNat ∧ (!isValidChar u && u != '#'.toNat) = false := by
  obtain ⟨-, rfl⟩ | ⟨-, rfl⟩ | ⟨-, rfl⟩ | ⟨-, rfl⟩ | ⟨-, rfl⟩ := entityName_some named
  all_goals decide

end Entities

section Texts

variable {state : S} {attrValQuote : Option Nat} {quotes : Bool}

/-- What a text changes. -/
def Locals.collect (l : Locals) (buf : List Nat) (start : Nat) (escapeNext : S) : Locals :=
  { l with buf := buf, start := start, escapeNext := escapeNext }

theorem escape_resolved {units : List Nat} {l : Locals}
    (resolved : resolve p strict str (substr str l.start (pos - l.start)) pos = .ok units) :
    escape p strict str pos ';'.toNat l =
      .on { l with buf := l.buf ++ units, start := pos + 1, state := l.escapeNext } (pos + 1) := by
  unfold escape
  rw [if_pos rfl, resolved]

theorem Leads.entity (documented : p.Documented)
    (collects : Collects p strict str parent state attrValQuote quotes) (at_ : l.state = state)
    (collected : Collected quotes str pos l text) {name : List Nat}
    (named : entityName quotes c = some name)
    (here : str.drop pos = '&'.toNat :: (name ++ ';'.toNat :: rest)) :
    Leads p strict str parent pos l (pos + 1 + name.length + 1)
      (l.collect (text ++ [c]) (pos + 1 + name.length + 1) state) := by
  have inside : str.drop (pos + 1) = name ++ ';'.toNat :: rest := drop_cons here
  have behind : str.drop (pos + 1 + name.length) = ';'.toNat :: rest := drop_append inside
  have resolved : resolve p strict str
      (substr str (pos + 1) (pos + 1 + name.length - (pos + 1))) (pos + 1 + name.length) =
        .ok [c] := by
    rw [Nat.add_sub_cancel_left, substr_of_drop inside]
    exact resolve_entityName documented named _
  apply (turn here (collects.entity at_)).trans
  apply (stay inside ?_).trans
  · apply turn behind
    refine (escape_resolved resolved).trans ?_
    congr 1
    unfold Locals.collect
    rw [← collected.content, ← at_]
    rfl
  · intro u member pos
    have valid := entityName_valid named u member
    show escape p strict str pos u _ = _
    unfold escape
    rw [if_neg valid.1, valid.2]
    rfl

theorem Collected.flush (text : List Nat) {name : List Nat} {escapeNext : S}
    (named : entityName quotes c = some name) :
    Collected quotes str pos (l.collect (text ++ [c]) pos escapeNext) (text ++ [c]) where
  start_le := Nat.le_refl pos
  content := by
    show text ++ [c] ++ substr str pos (pos - pos) = text ++ [c]
    rw [Nat.sub_self]
    exact List.append_nil _
  flushed := by
    refine ⟨fun _ d last => ?_, fun _ => rfl⟩
    rw [List.getLast?_concat] at last
    rw [← Option.some.inj last, named]
    rfl

theorem Collected.plain {units : List Nat} (collected : Collected quotes str pos l text)
    (here : str.drop pos = units ++ rest) (nonempty : units ≠ [])
    (plain : ∀ u ∈ units, entityName quotes u = none) :
    Collected quotes str (pos + units.length) l (text ++ units) where
  start_le := Nat.le_trans collected.start_le (Nat.le_add_right _ _)
  content := by
    rw [substr_append here collected.start_le, ← List.append_assoc, collected.content]
  flushed := by
    have positive := List.length_pos_iff.mpr nonempty
    have order := collected.start_le
    constructor
    · intro same
      omega
    · intro all
      have last := List.getLast?_append_of_ne_nil text nonempty
      obtain ⟨u, found⟩ := Option.ne_none_iff_exists'.mp (mt List.getLast?_eq_none_iff.mp nonempty)
      have escaped := all u (last.trans found)
      rw [plain u (List.mem_of_getLast? found)] at escaped
      exact nomatch escaped

/-- A character of a text. -/
theorem Leads.char (documented : p.Documented)
    (collects : Collects p strict str parent state attrValQuote quotes) (at_ : l.state = state)
    (quote : l.attrValQuote = attrValQuote) (collected : Collected quotes str pos l text)
    {d : Char} (here : str.drop pos = escaped p quotes d ++ rest) :
    ∃ buf start escapeNext,
      Collected quotes str (pos + (escaped p quotes d).length) (l.collect buf start escapeNext)
        (text ++ p.encoding.units d) ∧
      Leads p strict str parent pos l (pos + (escaped p quotes d).length)
        (l.collect buf start escapeNext) := by
  unfold escaped at here ⊢
  cases named : entityName quotes d.toNat with
  | some name =>
    rw [named] at here
    have narrow : d.toNat < 128 := by
      refine Nat.not_le.mp (fun wide => ?_)
      rw [entityName_wide wide] at named
      exact nomatch named
    have behind : str.drop pos = '&'.toNat :: (name ++ ';'.toNat :: rest) := by
      rw [here]
      simp only [List.cons_append, List.append_assoc, List.nil_append]
    have length : pos + ('&'.toNat :: (name ++ [';'.toNat])).length = pos + 1 + name.length + 1 := by
      rw [List.length_cons, List.length_append, List.length_singleton]
      omega
    simp only [length]
    rw [units_narrow _ narrow]
    exact ⟨_, _, _, .flush text named, .entity documented collects at_ collected named behind⟩
  | none =>
    rw [named] at here
    have plain : ∀ u ∈ p.encoding.units d, entityName quotes u = none := by
      intro u member
      by_cases narrow : d.toNat < 128
      · rw [units_narrow _ narrow, List.mem_singleton] at member
        rw [member, named]
      · exact entityName_wide (units_wide _ (Nat.not_lt.mp narrow) u member)
    exact ⟨l.buf, l.start, l.escapeNext, collected.plain here (units_ne_nil _ d) plain,
      stay here (fun u member pos => collects.plain at_ quote (plain u member))⟩

/-- A text. -/
theorem Leads.chars (documented : p.Documented)
    (collects : Collects p strict str parent state attrValQuote quotes) (at_ : l.state = state)
    (quote : l.attrValQuote = attrValQuote) (collected : Collected quotes str pos l text)
    {cs : List Char} (here : str.drop pos = cs.flatMap (escaped p quotes) ++ rest) :
    ∃ buf start escapeNext,
      Collected quotes str (pos + (cs.flatMap (escaped p quotes)).length)
        (l.collect buf start escapeNext) (text ++ p.encoding.encode cs) ∧
      Leads p strict str parent pos l (pos + (cs.flatMap (escaped p quotes)).length)
        (l.collect buf start escapeNext) := by
  induction cs generalizing pos l text with
  | nil =>
    refine ⟨l.buf, l.start, l.escapeNext, ?_, .refl⟩
    have nothing : text ++ p.encoding.encode [] = text := List.append_nil text
    rw [nothing]
    exact collected
  | cons d cs ih =>
    rw [List.flatMap_cons, List.append_assoc] at here
    obtain ⟨buf, start, escapeNext, collected', first⟩ :=
      char documented collects at_ quote collected here
    obtain ⟨buf', start', escapeNext', collected'', second⟩ :=
      ih (l := l.collect buf start escapeNext) at_ quote collected' (drop_append here)
    rw [List.flatMap_cons, List.length_append, ← Nat.add_assoc, encode_cons, ← List.append_assoc]
    exact ⟨buf', start', escapeNext', collected'', first.trans second⟩

end Texts

end Haxe.Source.Xml

/-!
## Reading printed XML: texts and `CData`

Between the nodes of an element the loop has the children that are finished and the text behind
them.
-/

namespace Haxe.Source.Xml

open Theory Theory.InterruptedRuns

variable {p : Platform} {strict : Bool} {str rest text name : List Nat} {pos c : Nat}
  {parent : Option (List Nat)} {l : Locals} {nodes : List Xml}

/-- Between two nodes, or in the text behind the last one. -/
structure Stands (str : List Nat) (pos : Nat) (l : Locals) (nodes : List Xml)
    (text : List Nat) : Prop where
  children : l.children = nodes
  nsubs : l.nsubs = nodes.length
  phase : (l.state = .begin ∧ l.buf = [] ∧ text = []) ∨
    (l.state = .pcdata ∧ Collected false str pos l text ∧ text ≠ [])

/-- Behind a bracket. -/
structure Opened (l : Locals) (nodes : List Xml) : Prop where
  state : l.state = .ignoreSpaces
  next : l.next = .beginNode
  buf : l.buf = []
  children : l.children = nodes
  nsubs : l.nsubs = nodes.length

theorem Stands.initial (str : List Nat) (pos : Nat) : Stands str pos .initial [] [] :=
  ⟨rfl, rfl, .inl ⟨rfl, rfl, rfl⟩⟩

section Texts

theorem Stands.bracket (stands : Stands str pos l nodes text)
    (here : str.drop pos = '<'.toNat :: rest) :
    ∃ l', Opened l' (nodes ++ pcDatas.part text) ∧
      Leads p strict str parent pos l (pos + 1) l' := by
  obtain ⟨at_, empty, nothing⟩ | ⟨at_, collected, something⟩ := stands.phase
  · have turns : turn p strict str parent pos '<'.toNat l =
        .on { l with state := .ignoreSpaces, next := .beginNode } (pos + 1) := by
      unfold turn
      rw [at_]
      rfl
    refine ⟨_, ?_, .turn here turns⟩
    rw [nothing, Texts.part_nil, List.append_nil]
    exact ⟨rfl, rfl, empty, stands.children, stands.nsubs⟩
  · have turns : turn p strict str parent pos '<'.toNat l =
        .on { (l.addChild (pcData (l.addSub str pos).buf)) with
          buf := [], state := .ignoreSpaces, next := .beginNode } (pos + 1) := by
      unfold turn
      rw [at_]
      rfl
    refine ⟨_, ?_, .turn here turns⟩
    have read : (l.addSub str pos).buf = text := collected.content
    rw [Texts.part_of_ne something, read]
    refine ⟨rfl, rfl, rfl, congrArg (· ++ [pcData text]) stands.children, ?_⟩
    show l.nsubs + 1 = _
    rw [stands.nsubs, List.length_append]
    rfl

/-- A text that is not empty does not begin with a bracket. -/
theorem escaped_head (quotes : Bool) (d : Char) :
    ∃ u us, escaped p quotes d = u :: us ∧ u ≠ '<'.toNat := by
  unfold escaped
  cases named : entityName quotes d.toNat with
  | some name => exact ⟨_, _, rfl, by decide⟩
  | none =>
    by_cases narrow : d.toNat < 128
    · exact ⟨_, _, units_narrow _ narrow, (entityName_none named).2.1⟩
    · have wide := units_wide p.encoding (Nat.not_lt.mp narrow)
      obtain ⟨u, us, split⟩ := List.exists_cons_of_ne_nil (units_ne_nil p.encoding d)
      refine ⟨u, us, split, fun same => ?_⟩
      have bound := wide u (split ▸ List.mem_cons_self)
      rw [same] at bound
      exact absurd bound (by decide)

theorem Stands.pcData (documented : p.Documented) (stands : Stands str pos l nodes text)
    {nodeValue : List Nat} (formed : p.encoding.WellFormed nodeValue)
    (here : str.drop pos = htmlEscape p nodeValue false ++ rest) :
    ∃ l', Stands str (pos + (htmlEscape p nodeValue false).length) l' nodes
        (text ++ nodeValue) ∧
      Leads p strict str parent pos l (pos + (htmlEscape p nodeValue false).length) l' := by
  obtain ⟨cs, rfl⟩ := formed
  rw [htmlEscape_encode] at here ⊢
  cases cs with
  | nil =>
    have nothing : text ++ p.encoding.encode [] = text := List.append_nil text
    rw [nothing]
    exact ⟨l, stands, .refl⟩
  | cons d cs =>
    have something : text ++ p.encoding.encode (d :: cs) ≠ [] := by
      rw [encode_cons]
      intro empty
      exact units_ne_nil _ d (List.append_eq_nil_iff.mp (List.append_eq_nil_iff.mp empty).2).1
    obtain ⟨at_, empty, nothing⟩ | ⟨at_, collected, -⟩ := stands.phase
    · obtain ⟨u, us, head, other⟩ := @escaped_head p false d
      have first : str.drop pos = u :: (us ++ cs.flatMap (escaped p false) ++ rest) := by
        rw [here, List.flatMap_cons, head, List.cons_append, List.cons_append]
      have turns : turn p strict str parent pos u l =
          .on { l with start := pos, state := .pcdata } pos := by
        unfold turn
        rw [at_]
        exact if_neg other
      have collected : Collected false str pos { l with start := pos, state := .pcdata } text := by
        refine ⟨Nat.le_refl pos, ?_, fun _ e last => ?_, fun _ => rfl⟩
        · show l.buf ++ substr str pos (pos - pos) = text
          rw [empty, nothing, Nat.sub_self]
          rfl
        · rw [nothing] at last
          exact nomatch last
      obtain ⟨buf, start, escapeNext, collected', leads⟩ :=
        Leads.chars (l := { l with start := pos, state := .pcdata }) documented
          (collects_pcdata l.attrValQuote) rfl rfl collected here
      exact ⟨Locals.collect { l with start := pos, state := .pcdata } buf start escapeNext,
        ⟨stands.children, stands.nsubs, .inr ⟨rfl, collected', something⟩⟩,
        (Leads.turn first turns).trans leads⟩
    · obtain ⟨buf, start, escapeNext, collected', leads⟩ :=
        Leads.chars documented (collects_pcdata l.attrValQuote) at_ rfl collected here
      exact ⟨l.collect buf start escapeNext,
        ⟨stands.children, stands.nsubs, .inr ⟨at_, collected', something⟩⟩, leads⟩

end Texts

section CDatas

/-- The end of a `CData` is not found earlier. -/
theorem cData_inside {before behind nodeValue : List Nat} {d : Nat}
    (free : ¬ ascii "]]>" <:+: nodeValue) (split : nodeValue = before ++ d :: behind) :
    ¬ (d = ']'.toNat ∧ (behind ++ (ascii "]]>" ++ rest))[0]? = some ']'.toNat ∧
      (behind ++ (ascii "]]>" ++ rest))[1]? = some '>'.toNat) := by
  intro found
  match behind, found with
  | [], found => exact absurd (Option.some.inj found.2.2) (by decide)
  | [e], found => exact absurd (Option.some.inj found.2.2) (by decide)
  | e :: f :: behind, found =>
    apply free
    rw [split, found.1, Option.some.inj found.2.1, Option.some.inj found.2.2]
    exact ⟨before, behind, by simp only [List.append_assoc]; rfl⟩

theorem Leads.cData (before : List Nat) {behind nodeValue : List Nat} (at_ : l.state = .cdata)
    (free : ¬ ascii "]]>" <:+: nodeValue) (split : nodeValue = before ++ behind)
    (here : str.drop pos = behind ++ (ascii "]]>" ++ rest)) :
    Leads p strict str parent pos l (pos + behind.length) l := by
  induction behind generalizing before pos with
  | nil => exact .refl
  | cons d behind ih =>
    have ahead : ∀ i, str[pos + 1 + i]? = (behind ++ (ascii "]]>" ++ rest))[i]? := by
      intro i
      rw [← List.getElem?_drop, drop_cons here]
      rfl
    have turns : Xml.turn p strict str parent pos d l = .on l (pos + 1) := by
      unfold Xml.turn
      rw [at_]
      apply if_neg
      rw [show str[pos + 1]? = _ from ahead 0, show str[pos + 2]? = _ from ahead 1]
      exact cData_inside free split
    have next : pos + (d :: behind).length = pos + 1 + behind.length := by
      rw [List.length_cons]
      omega
    rw [next]
    refine (turn here turns).trans (ih (before ++ [d]) ?_ (drop_cons here))
    rw [split, List.append_assoc]
    rfl

theorem Opened.cData (opened : Opened l nodes) {nodeValue : List Nat}
    (free : ¬ ascii "]]>" <:+: nodeValue)
    (here : str.drop pos = ascii "![CDATA[" ++ (nodeValue ++ (ascii "]]>" ++ rest))) :
    ∃ l', Stands str (pos + 8 + nodeValue.length + 3) l' (nodes ++ [Xml.cData nodeValue]) [] ∧
      Leads p strict str parent pos l (pos + 8 + nodeValue.length + 3) l' := by
  have inside : str.drop (pos + 8) = nodeValue ++ (ascii "]]>" ++ rest) :=
    @drop_append str _ (ascii "![CDATA[") pos here
  have behind : str.drop (pos + 8 + nodeValue.length) = ascii "]]>" ++ rest := drop_append inside
  have ahead : ∀ i, str[pos + 1 + i]? =
      (ascii "[CDATA[" ++ (nodeValue ++ (ascii "]]>" ++ rest)))[i]? := by
    intro i
    rw [← List.getElem?_drop, drop_cons here]
    rfl
  have keyword : substr str (pos + 2) 6 = ascii "CDATA[" := by
    have inner : str.drop (pos + 2) =
        ascii "CDATA[" ++ (nodeValue ++ (ascii "]]>" ++ rest)) :=
      @drop_append str _ (ascii "![") pos here
    exact substr_of_drop inner
  have start : beginNode str pos '!'.toNat { l with state := l.next } =
      .on { l with state := .cdata, start := pos + 8 } (pos + 8) := by
    have bracket : str[pos + 1]? = some '['.toNat := ahead 0
    unfold beginNode
    rw [if_pos rfl, if_pos bracket, keyword]
    rfl
  have end_ : turn p strict str parent (pos + 8 + nodeValue.length) ']'.toNat
      { l with state := .cdata, start := pos + 8 } =
      .on { (l.addChild (Xml.cData nodeValue)) with state := .begin, start := pos + 8 }
        (pos + 8 + nodeValue.length + 3) := by
    have last : ∀ i, str[pos + 8 + nodeValue.length + i]? = (ascii "]]>" ++ rest)[i]? := by
      intro i
      rw [← List.getElem?_drop, behind]
    have read : substr str (pos + 8) (pos + 8 + nodeValue.length - (pos + 8)) = nodeValue := by
      rw [Nat.add_sub_cancel_left]
      exact substr_of_drop inside
    unfold turn
    refine (if_pos ⟨rfl, last 1, last 2⟩).trans ?_
    exact congrArg (fun v => Turn.on
      { (l.addChild (Xml.cData v)) with state := .begin, start := pos + 8 } _) read
  refine ⟨_, ?_, (Leads.next opened.state here rfl).trans <| (Leads.turn here ?_).trans <|
    (Leads.cData [] rfl free rfl inside).trans (Leads.turn behind end_)⟩
  · refine ⟨congrArg (· ++ [Xml.cData nodeValue]) opened.children, ?_, .inl ⟨rfl, opened.buf, rfl⟩⟩
    show l.nsubs + 1 = _
    rw [opened.nsubs, List.length_append]
    rfl
  · unfold turn
    rw [show ({ l with state := l.next } : Locals).state = .beginNode from opened.next]
    exact start

end CDatas

end Haxe.Source.Xml
