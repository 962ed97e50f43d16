import Haxe.Theory.ClassFileFormat
import Haxe.Source.Generators.JvmMethod
import Haxe.Source.Generators.StackMapBytes

/-!
# Annotations of the JVM generator

`j_annotation` and `write_annotation` of `jvmAttribute.ml`, and the annotations of the class file
that the values stand for.
-/

namespace Haxe.Source.Jvm

open Theory.AnnotationFormat (AnnotationStructure ElementValue ConstTag)

mutual

/-- `j_annotation` -/
inductive JAnnotationRecord where
  | mk (annType : Int) (annElements : List (Int × Char × JAnnotationValue))

/-- `j_annotation_value`; a `j_annotation_element_value` has the tag in front. -/
inductive JAnnotationValue where
  | valConst (i : Int)
  | valEnum (i1 i2 : Int)
  | valClass (i : Int)
  | valAnnotation (a : JAnnotationRecord)
  | valArray (annl : List (Char × JAnnotationValue))

end

def JAnnotationRecord.annType : JAnnotationRecord → Int
  | .mk annType _ => annType

def JAnnotationRecord.annElements : JAnnotationRecord → List (Int × Char × JAnnotationValue)
  | .mk _ annElements => annElements

section Loop

variable (write : JAnnotationRecord → Option (List Nat)) (ann : JAnnotationRecord)

mutual

/-- `loop` of `write_annotation`, called for `ann`; `write` is the function itself. -/
@[grind =] def writeElementValue (c : Char) : JAnnotationValue → Option (List Nat)
  | .valConst i => do return writeByte c.toNat ++ (← writeUi16 i)
  | .valEnum i1 i2 => do return writeByte c.toNat ++ (← writeUi16 i1) ++ (← writeUi16 i2)
  | .valClass i => do return writeByte c.toNat ++ (← writeUi16 i)
  -- the annotation that is written again is the one around
  | JAnnotationValue.valAnnotation _ => do return writeByte c.toNat ++ (← write ann)
  | .valArray annl => do
    return writeByte c.toNat ++ (← writeUi16 annl.length) ++ (← writeElementValues annl)

@[grind =] def writeElementValues : List (Char × JAnnotationValue) → Option (List Nat)
  | [] => some []
  | (c, v) :: annl => do return (← writeElementValue c v) ++ (← writeElementValues annl)

end

end Loop

/-- An element of the annotation that is written. -/
def writeElement (write : JAnnotationRecord → Option (List Nat)) (ann : JAnnotationRecord)
    (element : Int × Char × JAnnotationValue) : Option (List Nat) := do
  return (← writeUi16 element.1) ++
    (← writeElementValue write ann element.2.1 element.2.2)

/-- `write_annotation`; `none` when the fuel is used up, or `Overflow` is raised. -/
@[grind =] def writeAnnotation : Nat → JAnnotationRecord → Option (List Nat)
  | 0, _ => none
  | fuel + 1, ann => do
    let annType ← writeUi16 ann.annType
    let annElements ← writeArray16 (writeElement (fun nested => writeAnnotation fuel nested) ann)
      ann.annElements
    return annType ++ annElements

/-- What fits in two bytes. -/
@[grind =] def u2 (i : Int) : Option Nat := if 0 ≤ i ∧ i ≤ 0xffff then some i.toNat else none

mutual

/-- The annotation of the class file: the tags are those of the values, the indices and counts
fit in two bytes. -/
def JAnnotationRecord.structured : JAnnotationRecord → Option AnnotationStructure
  | .mk annType annElements => do
    let typeIndex ← u2 annType
    let _ ← u2 annElements.length
    return .mk typeIndex (← pairs annElements)

def pairs : List (Int × Char × JAnnotationValue) → Option (List (Nat × ElementValue))
  | [] => some []
  | (i, c, v) :: elements => do return (← u2 i, ← v.elementValue c) :: (← pairs elements)

@[grind =] def JAnnotationValue.elementValue (c : Char) : JAnnotationValue → Option ElementValue
  | .valConst i => do return .constValue (← ConstTag.ofByte c.toNat) (← u2 i)
  | .valEnum i1 i2 => if c = 'e' then do return .enumConstValue (← u2 i1) (← u2 i2) else none
  | .valClass i => if c = 'c' then do return .classInfo (← u2 i) else none
  | JAnnotationValue.valAnnotation a =>
    if c = '@' then do return .annotationValue (← a.structured) else none
  | .valArray annl =>
    if c = '[' then do
      let _ ← u2 annl.length
      return .arrayValue (← elementValues annl)
    else none

def elementValues : List (Char × JAnnotationValue) → Option (List ElementValue)
  | [] => some []
  | (c, v) :: annl => do return (← v.elementValue c) :: (← elementValues annl)

end

mutual

/-- There is an annotation inside of the value. -/
def JAnnotationValue.Nests : JAnnotationValue → Prop
  | JAnnotationValue.valAnnotation _ => True
  | .valArray annl => EachNests annl
  | _ => False

/-- There is an annotation inside of one of the values. -/
def EachNests : List (Char × JAnnotationValue) → Prop
  | [] => False
  | (_, v) :: annl => v.Nests ∨ EachNests annl

end

/-- There is an annotation inside of the annotation. -/
def JAnnotationRecord.Nests (ann : JAnnotationRecord) : Prop :=
  ∃ element ∈ ann.annElements, element.2.2.Nests

end Haxe.Source.Jvm

/-!
## The bytes of annotations

What is written for an element value that has no annotation inside is read back as the value that
it stands for, and an annotation with one inside is written without end.
-/

namespace Haxe.Source.Jvm

open Theory.StackMapFormat Theory.AnnotationFormat

theorem reads_u2 {i : Int} {n : Nat} (stands : u2 i = some n) :
    ∃ bytes, writeUi16 i = some bytes ∧ Reads readU2 bytes n := by
  unfold u2 at stands
  split at stands
  · rename_i fits
    obtain rfl := Option.some.inj stands
    have written : writeUi16 i = some [(i / 256).toNat, (i % 256).toNat] := by
      rw [writeUi16, if_pos fits]
    exact ⟨_, written, (reads_ui16 written).2.2⟩
  · cases stands

/-- A count is the length of the list. -/
theorem reads_count {α : Type} {values : List α} {n : Nat}
    (stands : u2 values.length = some n) :
    ∃ bytes, writeUi16 values.length = some bytes ∧ Reads readU2 bytes values.length := by
  obtain ⟨bytes, written, read⟩ := reads_u2 stands
  unfold u2 at stands
  split at stands
  · have counted := Option.some.inj stands
    rw [Int.toNat_natCast] at counted
    rw [← counted] at read
    exact ⟨bytes, written, read⟩
  · cases stands

/-- A value is written to some bytes, whatever is around it, and they are read back. -/
def ValueReadBack (c : Char) (v : JAnnotationValue) (e : ElementValue) : Prop :=
  ∃ bytes, (∀ write ann, writeElementValue write ann c v = some bytes) ∧
    ∃ enough, ∀ depth, enough ≤ depth → Reads (readElementValue depth) bytes e

def ValuesReadBack (annl : List (Char × JAnnotationValue)) (es : List ElementValue) : Prop :=
  ∃ bytes, (∀ write ann, writeElementValues write ann annl = some bytes) ∧
    ∃ enough, ∀ depth, enough ≤ depth →
      Reads (readTimes (readElementValue depth) annl.length) bytes es

theorem tag_of_const {n : Nat} {tag : ConstTag} (tagged : ConstTag.ofByte n = some tag) :
    n < 256 ∧ n ≠ 'e'.toNat ∧ n ≠ 'c'.toNat ∧ n ≠ '@'.toNat ∧ n ≠ '['.toNat := by
  unfold ConstTag.ofByte at tagged
  simp only [Char.reduceToNat] at tagged ⊢
  repeat' split at tagged
  all_goals first
    | omega
    | cases tagged

/-- A tag is written as it is. -/
theorem writeByte_tag {n : Nat} (small : n < 256) (bytes : List Nat) :
    writeByte n ++ bytes = n :: bytes := by
  rw [writeByte, List.singleton_append]
  congr 1
  omega

theorem const_readBack {c : Char} {i : Int} {e : ElementValue}
    (stands : (JAnnotationValue.valConst i).elementValue c = some e) :
    ValueReadBack c (.valConst i) e := by
  rw [JAnnotationValue.elementValue] at stands
  obtain ⟨tag, tagged, stands⟩ := Option.bind_eq_some_iff.mp stands
  obtain ⟨index, fits, stands⟩ := Option.bind_eq_some_iff.mp stands
  obtain rfl := Option.some.inj stands
  obtain ⟨bytes, written, read⟩ := reads_u2 fits
  obtain ⟨small, notEnum, notClass, notAnnotation, notArray⟩ := tag_of_const tagged
  refine ⟨c.toNat :: bytes, fun write ann => ?_, 1, fun depth deep rest => ?_⟩
  · rw [writeElementValue, written, ← writeByte_tag small]
    rfl
  · obtain ⟨depth, rfl⟩ : ∃ d, depth = d + 1 := ⟨depth - 1, by omega⟩
    rw [List.cons_append, readElementValue, if_neg notEnum, if_neg notClass,
      if_neg notAnnotation, if_neg notArray, tagged]
    simp only [bind, Option.bind, read rest]
    rfl

theorem enum_readBack {c : Char} {i1 i2 : Int} {e : ElementValue}
    (stands : (JAnnotationValue.valEnum i1 i2).elementValue c = some e) :
    ValueReadBack c (.valEnum i1 i2) e := by
  rw [JAnnotationValue.elementValue] at stands
  split at stands
  · subst c
    obtain ⟨typeName, first, stands⟩ := Option.bind_eq_some_iff.mp stands
    obtain ⟨constName, second, stands⟩ := Option.bind_eq_some_iff.mp stands
    obtain rfl := Option.some.inj stands
    obtain ⟨front, written, read⟩ := reads_u2 first
    obtain ⟨back, written', read'⟩ := reads_u2 second
    refine ⟨'e'.toNat :: (front ++ back), fun write ann => ?_, 1, fun depth deep rest => ?_⟩
    · rw [writeElementValue, written, written', ← writeByte_tag (by decide), ← List.append_assoc]
      rfl
    · obtain ⟨depth, rfl⟩ : ∃ d, depth = d + 1 := ⟨depth - 1, by omega⟩
      rw [List.cons_append, readElementValue, if_pos (Eq.refl _), List.append_assoc]
      simp only [bind, Option.bind, read (back ++ rest), read' rest]
      rfl
  · cases stands

theorem class_readBack {c : Char} {i : Int} {e : ElementValue}
    (stands : (JAnnotationValue.valClass i).elementValue c = some e) :
    ValueReadBack c (.valClass i) e := by
  rw [JAnnotationValue.elementValue] at stands
  split at stands
  · subst c
    obtain ⟨index, fits, stands⟩ := Option.bind_eq_some_iff.mp stands
    obtain rfl := Option.some.inj stands
    obtain ⟨bytes, written, read⟩ := reads_u2 fits
    refine ⟨'c'.toNat :: bytes, fun write ann => ?_, 1, fun depth deep rest => ?_⟩
    · rw [writeElementValue, written, ← writeByte_tag (by decide)]
      rfl
    · obtain ⟨depth, rfl⟩ : ∃ d, depth = d + 1 := ⟨depth - 1, by omega⟩
      rw [List.cons_append, readElementValue, if_neg (by decide), if_pos (Eq.refl _)]
      simp only [bind, Option.bind, read rest]
      rfl
  · cases stands

theorem array_readBack {c : Char} {annl : List (Char × JAnnotationValue)} {e : ElementValue}
    (stands : (JAnnotationValue.valArray annl).elementValue c = some e)
    (each : ∀ es, elementValues annl = some es → ValuesReadBack annl es) :
    ValueReadBack c (.valArray annl) e := by
  rw [JAnnotationValue.elementValue] at stands
  split at stands
  · subst c
    obtain ⟨count, counted, stands⟩ := Option.bind_eq_some_iff.mp stands
    obtain ⟨es, listed, stands⟩ := Option.bind_eq_some_iff.mp stands
    obtain rfl := Option.some.inj stands
    obtain ⟨front, written, read⟩ := reads_count counted
    obtain ⟨back, written', enough, read'⟩ := each es listed
    refine ⟨'['.toNat :: (front ++ back), fun write ann => ?_, enough + 1,
      fun depth deep rest => ?_⟩
    · rw [writeElementValue, written, written', ← writeByte_tag (by decide), ← List.append_assoc]
      rfl
    · obtain ⟨depth, rfl⟩ : ∃ d, depth = d + 1 := ⟨depth - 1, by omega⟩
      rw [List.cons_append, readElementValue, if_neg (by decide), if_neg (by decide),
        if_neg (by decide), if_pos (Eq.refl _), List.append_assoc]
      simp only [bind, Option.bind, read (back ++ rest), read' depth (by omega) rest]
      rfl
  · cases stands

/-- Values one after another. -/
theorem valuesReadBack_cons {c : Char} {v : JAnnotationValue} {annl : List (Char × JAnnotationValue)}
    {e : ElementValue} {es : List ElementValue} (first : ValueReadBack c v e)
    (others : ValuesReadBack annl es) : ValuesReadBack ((c, v) :: annl) (e :: es) := by
  obtain ⟨front, written, enough, read⟩ := first
  obtain ⟨back, written', enough', read'⟩ := others
  refine ⟨front ++ back, fun write ann => ?_, max enough enough', fun depth deep rest => ?_⟩
  · rw [writeElementValues, written, written']
    rfl
  · rw [List.length_cons, readTimes, List.append_assoc, read depth (by omega)]
    simp only [bind, Option.bind, read' depth (by omega) rest]
    rfl

mutual

theorem value_readBack (c : Char) : ∀ (v : JAnnotationValue) (e : ElementValue),
    v.elementValue c = some e → ¬ v.Nests → ValueReadBack c v e
  | .valConst _, _, stands, _ => const_readBack stands
  | .valEnum _ _, _, stands, _ => enum_readBack stands
  | .valClass _, _, stands, _ => class_readBack stands
  | JAnnotationValue.valAnnotation _, _, _, flat => absurd trivial flat
  | .valArray annl, _, stands, flat =>
    array_readBack stands fun es listed => values_readBack annl es listed flat

theorem values_readBack : ∀ (annl : List (Char × JAnnotationValue)) (es : List ElementValue),
    elementValues annl = some es → ¬ EachNests annl → ValuesReadBack annl es
  | [], _, stands, _ => by
    obtain rfl := Option.some.inj stands
    exact ⟨[], fun _ _ => rfl, 0, fun _ _ _ => rfl⟩
  | (c, v) :: annl, _, stands, flat => by
    rw [EachNests] at flat
    obtain ⟨e, first, stands⟩ := Option.bind_eq_some_iff.mp stands
    obtain ⟨es, others, stands⟩ := Option.bind_eq_some_iff.mp stands
    obtain rfl := Option.some.inj stands
    exact valuesReadBack_cons (value_readBack c v e first fun nests => flat (.inl nests))
      (values_readBack annl es others fun nests => flat (.inr nests))

end

mutual

/-- An annotation inside is not written when the one around is not. -/
theorem value_unwritten (write : JAnnotationRecord → Option (List Nat)) (ann : JAnnotationRecord)
    (around : write ann = none) (c : Char) : ∀ v : JAnnotationValue, v.Nests →
    writeElementValue write ann c v = none
  | JAnnotationValue.valAnnotation _, _ => by
    rw [writeElementValue, around]
    rfl
  | .valArray annl, nests => by
    rw [writeElementValue, values_unwritten write ann around annl nests]
    cases writeUi16 annl.length <;> rfl

theorem values_unwritten (write : JAnnotationRecord → Option (List Nat)) (ann : JAnnotationRecord)
    (around : write ann = none) : ∀ annl : List (Char × JAnnotationValue), EachNests annl →
    writeElementValues write ann annl = none
  | (c, v) :: annl, nests => by
    rw [writeElementValues]
    obtain here | behind := nests
    · rw [value_unwritten write ann around c v here]
      rfl
    · rw [values_unwritten write ann around annl behind]
      cases writeElementValue write ann c v <;> rfl

end

theorem reads_pair {readValue : Reader ElementValue} {front back : List Nat} {name : Nat}
    {value : ElementValue} (read : Reads readU2 front name) (read' : Reads readValue back value) :
    Reads (readPair readValue) (front ++ back) (name, value) := by
  intro rest
  show (readU2 ((front ++ back) ++ rest)).bind _ = _
  rw [List.append_assoc, read]
  show (readValue (back ++ rest)).bind _ = _
  rw [read']
  rfl

theorem pairs_readBack : ∀ (elements : List (Int × Char × JAnnotationValue))
    (stands : List (Nat × ElementValue)), pairs elements = some stands →
    (¬ ∃ element ∈ elements, element.2.2.Nests) →
    ∃ bytes, (∀ write ann, elements.mapM (writeElement write ann) = some bytes) ∧
      ∃ enough, ∀ depth, enough ≤ depth →
        Reads (readTimes (readPair (readElementValue depth)) elements.length) bytes.flatten stands
  | [], _, stands, _ => by
    obtain rfl := Option.some.inj stands
    exact ⟨[], fun _ _ => rfl, 0, fun _ _ _ => rfl⟩
  | (i, c, v) :: elements, _, stands, flat => by
    obtain ⟨name, fits, stands⟩ := Option.bind_eq_some_iff.mp stands
    obtain ⟨e, first, stands⟩ := Option.bind_eq_some_iff.mp stands
    obtain ⟨others, more, stands⟩ := Option.bind_eq_some_iff.mp stands
    obtain rfl := Option.some.inj stands
    obtain ⟨index, written, read⟩ := reads_u2 fits
    obtain ⟨front, written', enough, read'⟩ := value_readBack c v e first
      fun nests => flat ⟨_, List.mem_cons_self, nests⟩
    obtain ⟨back, written'', enough', read''⟩ := pairs_readBack elements others more
      fun ⟨element, member, nests⟩ => flat ⟨element, List.mem_cons_of_mem _ member, nests⟩
    refine ⟨(index ++ front) :: back, fun write ann => ?_, max enough enough',
      fun depth deep rest => ?_⟩
    · rw [List.mapM_cons, writeElement, written, written', written'']
      rfl
    · have here := reads_pair read (read' depth (by omega)) (back.flatten ++ rest)
      rw [List.flatten_cons, List.length_cons, readTimes, List.append_assoc, here]
      simp only [bind, Option.bind, read'' depth (by omega) rest]
      rfl

/-- An annotation with no other one inside is written, and read back. -/
theorem annotation_readBack {ann : JAnnotationRecord} {a : AnnotationStructure}
    (stands : ann.structured = some a) (flat : ¬ ann.Nests) :
    ∃ bytes, (∀ fuel, writeAnnotation (fuel + 1) ann = some bytes) ∧
      ∃ enough, ∀ depth, enough ≤ depth → Reads (readStructure depth) bytes a := by
  obtain ⟨annType, annElements⟩ := ann
  rw [JAnnotationRecord.structured] at stands
  obtain ⟨typeIndex, fits, stands⟩ := Option.bind_eq_some_iff.mp stands
  obtain ⟨count, counted, stands⟩ := Option.bind_eq_some_iff.mp stands
  obtain ⟨elements, listed, stands⟩ := Option.bind_eq_some_iff.mp stands
  obtain rfl := Option.some.inj stands
  obtain ⟨front, written, read⟩ := reads_u2 fits
  obtain ⟨number, written', read'⟩ := reads_count counted
  obtain ⟨back, written'', enough, read''⟩ := pairs_readBack annElements elements listed flat
  refine ⟨front ++ (number ++ back.flatten), fun fuel => ?_, enough, fun depth deep rest => ?_⟩
  · unfold writeAnnotation
    rw [JAnnotationRecord.annType, JAnnotationRecord.annElements, writeArray16, written,
      written', written'']
    rfl
  · show (readU2 ((front ++ (number ++ back.flatten)) ++ rest)).bind _ = _
    rw [List.append_assoc, List.append_assoc, read]
    show (readU2 (number ++ (back.flatten ++ rest))).bind _ = _
    rw [read']
    show (readTimes _ _ (back.flatten ++ rest)).bind _ = _
    rw [read'' depth deep rest]
    rfl

theorem elements_unwritten {write : JAnnotationRecord → Option (List Nat)} {ann : JAnnotationRecord}
    (around : write ann = none) {elements : List (Int × Char × JAnnotationValue)}
    (nests : ∃ element ∈ elements, element.2.2.Nests) :
    elements.mapM (writeElement write ann) = none := by
  induction elements with
  | nil =>
    obtain ⟨_, none, _⟩ := nests
    cases none
  | cons element elements ih =>
    rw [List.mapM_cons]
    obtain ⟨other, member, nests⟩ := nests
    obtain rfl | behind := List.mem_cons.mp member
    · rw [writeElement, value_unwritten write ann around other.2.1 other.2.2 nests]
      cases writeUi16 other.1 <;> rfl
    · rw [ih ⟨other, behind, nests⟩]
      cases writeElement write ann element <;> rfl

/-- The annotation around is written again for each one inside, so that no fuel is enough. -/
theorem nested_unwritten {ann : JAnnotationRecord} (nests : ann.Nests) (fuel : Nat) :
    writeAnnotation fuel ann = none := by
  induction fuel with
  | zero => rfl
  | succ fuel ih =>
    unfold writeAnnotation
    rw [writeArray16, elements_unwritten ih nests]
    cases writeUi16 ann.annType with
    | none => rfl
    | some annType => cases writeUi16 ann.annElements.length <;> rfl

end Haxe.Source.Jvm
