import Haxe.Source.Std.XmlReadBack
import Haxe.Source.Std.XmlNames
import Haxe.Source.Std.XmlTermination

/-!
# Printing and parsing XML

A document is read back from its text, unless a name has a character outside of ASCII, an element
has nothing but `CData` of white space, or the last text ends with an escaped character. Parsing
ends on every text.
-/

namespace Haxe.Guarantees

open Theory Theory.InterruptedRuns Source Source.Xml

section XmlRoundTrip

variable {p : Platform}

/-- The printed document is parsed as the same tree, up to merged and empty `PCData`. -/
def XmlRoundTrips (p : Platform) (strict : Bool) (children : List Xml) : Prop :=
  ∃ read,
    Settles (parse p strict (print p (.document children) false)) (.returned read) ∧
      Xml.normalize read = Xml.normalize (.document children)

theorem print_document (children : List Xml) :
    print p (.document children) false = writeNodes p false children [] := by
  unfold print
  rw [writeNode]

/-- A document that is read, with its last text or without. -/
theorem parse_settles (documented : p.Documented) (strict : Bool) {children : List Xml}
    (valid : EachValid p.encoding children) (named : EachEverywhere NamesValid children) :
    Settles (parse p strict (print p (.document children) false))
      (.returned (.document (remaining (pcDatas.front (readBackEach p children) [])
        (pcDatas.trailing (readBackEach p children) [])))) := by
  rw [print_document]
  have start : (writeNodes p false children []).drop 0 = writeNodes p false children [] ++ [] := by
    rw [List.drop_zero, List.append_nil]
  obtain ⟨l, stands, leads⟩ := (each_reads documented children valid named).leads
    (.initial _ 0) start
  obtain ⟨n, all⟩ := leads _ (stands.finish (drop_append start))
  refine ⟨n, fun m enough => ?_⟩
  have ended : doParse p strict _ m none 0 .initial = _ := all m enough
  unfold parse
  rw [ended]
  rfl

theorem parse_refuses (documented : p.Documented) (strict : Bool) {children : List Xml}
    (valid : EachValid p.encoding children) (named : ¬ EachEverywhere NamesValid children) :
    ∃ e, Settles (parse p strict (print p (.document children) false)) (.thrown e) := by
  rw [print_document]
  have start : (writeNodes p false children []).drop 0 = writeNodes p false children [] ++ [] := by
    rw [List.drop_zero, List.append_nil]
  obtain ⟨e, n, all⟩ :=
    (each_refuses documented children valid named).thrown
      (.initial _ 0) start
  refine ⟨e, n, fun m enough => ?_⟩
  have ended : doParse p strict _ m none 0 .initial = _ := all m enough
  unfold parse
  rw [ended]
  rfl

/-- The last text is lost with strict parsing and without. -/
theorem not_round_trips_of_lost (documented : p.Documented) (strict : Bool) {children : List Xml}
    (valid : EachValid p.encoding children) (named : EachEverywhere NamesValid children)
    (lost : TextLost children) : ¬ XmlRoundTrips p strict children := by
  rintro ⟨read, settled, same⟩
  rw [Outcome.returned.inj (settled.unique (parse_settles documented strict valid named)),
    Xml.normalize, Xml.normalize, Xml.document.injEq] at same
  exact remaining_lost lost same

/-- When a document is read back as it was printed. -/
theorem xml_round_trips_iff (documented : p.Documented) (strict : Bool)
    (doc : Document p.encoding) :
    XmlRoundTrips p strict doc.children ↔
      EachEverywhere NamesValid doc.children ∧
        EachEverywhere (ChildrenPrinted p) doc.children ∧ ¬ TextLost doc.children := by
  by_cases named : EachEverywhere NamesValid doc.children
  · have settles := parse_settles documented strict doc.valid named
    have normal : Xml.normalize (.document doc.children) =
        .document (pcDatas.merge (normalizeEach doc.children) []) := by rw [Xml.normalize]
    by_cases lost : TextLost doc.children
    · have fails := not_round_trips_of_lost documented strict doc.valid named lost
      exact ⟨fun trips => absurd trips fails, fun kept => absurd lost kept.2.2⟩
    · rw [remaining_eq lost] at settles
      have same_iff : Xml.normalize (.document
          (orEmpty (pcDatas.merge (readBackEach p doc.children) []))) =
            Xml.normalize (.document doc.children) ↔
          EachEverywhere (ChildrenPrinted p) doc.children := by
        rw [Xml.normalize, normal, Xml.document.injEq, merge_normalize, normalizeEach_eq,
          keeps_both.merge_map_iff keeps_normalize, normalize_readBack_each _ doc.valid]
      constructor
      · rintro ⟨read, settled, same⟩
        rw [Outcome.returned.inj (settled.unique settles)] at same
        exact ⟨named, same_iff.mp same, lost⟩
      · intro kept
        exact ⟨_, settles, same_iff.mpr kept.2.1⟩
  · obtain ⟨e, refused⟩ := parse_refuses documented strict doc.valid named
    constructor
    · rintro ⟨read, settled, -⟩
      exact nomatch settled.unique refused
    · intro kept
      exact absurd kept.1 named

/-- A target with strings of UTF-16. -/
def utf16Platform : Platform where
  encoding := .utf16
  target := ⟨0, by decide, true⟩
  isSpace c := (c > 8 && c < 14) || c == 32
  isTrimmed c := (c > 8 && c < 14) || c == 32
  parseInt s :=
    if s ≠ [] ∧ s.length ≤ 9 ∧ ∀ d ∈ s, 48 ≤ d ∧ d ≤ 57 then
      some (s.foldl (fun n d => n * 10 + (d - 48)) 0 : Nat)
    else none
  addOther _ := none

theorem utf16Platform_documented : utf16Platform.Documented where
  decimal _ nonempty short all := if_pos ⟨nonempty, short, all⟩

theorem isName_single (c : Char) (start : isNameStart c.toNat = true) :
    IsName .utf16 (Encoding.utf16.encode [c]) :=
  ⟨c, [], rfl, start, List.forall_mem_nil _⟩

/-- `<a b="&quot;">&lt;<![CDATA[ ]]></a>` -/
def quotedDocument : Document utf16Platform.encoding where
  children :=
    [.element (ascii "a") [(ascii "b", ascii "\"")] [.pcData (ascii "<"), .cData (ascii " ")]]
  valid := by
    refine ⟨⟨isName_single 'a' rfl, ⟨?_, ?_, ?_⟩, ⟨['<'], rfl⟩, ?_, trivial⟩, trivial⟩
    · exact List.forall_mem_singleton.mpr (isName_single 'b' rfl)
    · exact List.forall_mem_singleton.mpr ⟨['"'], rfl⟩
    · exact List.nodup_cons.mpr ⟨List.not_mem_nil, List.nodup_nil⟩
    · exact fun inside => absurd inside.length_le (by decide)

theorem quoted_document_round_trips :
    XmlRoundTrips utf16Platform true quotedDocument.children := by
  refine (xml_round_trips_iff utf16Platform_documented true quotedDocument).mpr ⟨?_, ?_, ?_⟩
  · refine ⟨⟨⟨?_, ?_⟩, trivial, trivial, trivial⟩, trivial⟩ <;> decide
  · exact ⟨⟨fun _ => rfl, trivial, trivial, trivial⟩, trivial⟩
  · rintro ⟨-, c, last, -⟩
    exact nomatch last

/-- `<a/>x&amp;` -/
def ampersandDocument : Document utf16Platform.encoding where
  children := [.element (ascii "a") [] [], .pcData (ascii "x&")]
  valid := by
    refine ⟨⟨isName_single 'a' rfl, ⟨List.forall_mem_nil _, List.forall_mem_nil _, List.nodup_nil⟩,
      trivial⟩, ⟨['x', '&'], rfl⟩, trivial⟩

theorem last_ampersand_is_lost : utf16Platform.Documented ∧
    ∀ strict, ¬ XmlRoundTrips utf16Platform strict ampersandDocument.children := by
  refine ⟨utf16Platform_documented, fun strict => ?_⟩
  apply not_round_trips_of_lost utf16Platform_documented strict ampersandDocument.valid
  · refine ⟨⟨⟨?_, ?_⟩, trivial⟩, trivial, trivial⟩ <;> decide
  · exact ⟨⟨_, List.mem_cons_self, rfl⟩, '&'.toNat, rfl, .inl rfl⟩

end XmlRoundTrip

section XmlTermination

/-- Parsing from a position ends within so many turns, those of the children included, however it
ends, and a turn that stays at its character goes on to a state of a smaller rank. -/
theorem doParse_ends (p : Platform) (strict : Bool) (str : List Nat) :
    (∀ (parent : Option (List Nat)) (pos fuel : Nat), 4 * (str.length - pos) + 2 ≤ fuel →
      (∃ r, doParse p strict str fuel parent pos .initial = .returned r ∧ pos ≤ r.1) ∨
        ∃ e, doParse p strict str fuel parent pos .initial = .thrown e) ∧
      Locals.initial.Resumable ∧
      ∀ (parent : Option (List Nat)) (pos c : Nat) (l : Locals), l.Resumable →
        (turn p strict str parent pos c l).Progresses pos l := by
  refine ⟨?_, Locals.initial_resumable, fun parent pos c l => turn_progresses⟩
  intro parent pos fuel enough
  have weight : weight str pos .initial = 4 * (str.length - pos) + 1 := rfl
  have finishes : Finishes pos (doParse p strict str fuel parent pos .initial) :=
    doParse_finishes p strict str Locals.initial_resumable (by omega)
  cases ended : doParse p strict str fuel parent pos .initial with
  | returned r =>
    rw [ended] at finishes
    exact .inl ⟨r, rfl, finishes⟩
  | thrown e => exact .inr ⟨e, rfl⟩
  | exhausted =>
    rw [ended] at finishes
    exact absurd finishes id

/-- `<a>&</a>`: an entity that ends at its first character, and children. -/
theorem entity_of_nothing_ends :
    ((∃ r, doParse utf16Platform false (ascii "<a>&</a>") 34 none 0 .initial = .returned r ∧
        0 ≤ r.1) ∨
      ∃ e, doParse utf16Platform false (ascii "<a>&</a>") 34 none 0 .initial = .thrown e) ∧
      (turn utf16Platform false (ascii "<a>&</a>") none 0 60 .initial).Progresses 0 .initial := by
  have ends := doParse_ends utf16Platform false (ascii "<a>&</a>")
  exact ⟨ends.1 none 0 34 (by decide), ends.2.2 none 0 60 .initial ends.2.1⟩

end XmlTermination

end Haxe.Guarantees
