import Mathlib.Data.List.Induction
import Haxe.Source.Generators.JvmSwitch

/-!
# Hashes of strings

`java_hash` is the hash of the code points of a string. Where every one of them is a code unit, it
is the hash of the string in Java.
-/

namespace Haxe.Source.Jvm.Switch

open Theory

theorem pow_succ (a : BitVec 32) (n : Nat) : pow a (n + 1) = a * pow a n := by
  cases n with
  | zero => exact (BitVec.mul_one a).symm
  | succ n => rfl

/-- A factor in front of a sum. -/
theorem foldl_mul {α : Type} (a : BitVec 32) (f : α → BitVec 32) (xs : List α) (h : BitVec 32) :
    xs.foldl (fun h x => h + a * f x) (a * h) = a * xs.foldl (fun h x => h + f x) h := by
  induction xs generalizing h with
  | nil => rfl
  | cons x xs ih => rw [List.foldl_cons, List.foldl_cons, ← BitVec.mul_add, ih]

theorem javaHash_concat (s : List Char) (c : Char) :
    javaHash (s ++ [c]) = 31 * javaHash s + BitVec.ofNat 32 c.toNat := by
  have shifted : s.zipIdx.foldl (fun h char =>
      h + BitVec.ofNat 32 char.1.toNat * pow 31 ((s ++ [c]).length - (char.2 + 1))) 0 =
        s.zipIdx.foldl (fun h char =>
          h + 31 * (BitVec.ofNat 32 char.1.toNat * pow 31 (s.length - (char.2 + 1)))) (31 * 0) := by
    have zero : (31 : BitVec 32) * 0 = 0 := by decide
    rw [zero]
    apply List.foldl_ext
    intro h char member
    have inside : char.2 < s.length := by
      have found := List.snd_lt_of_mem_zipIdx member
      omega
    have exponent : (s ++ [c]).length - (char.2 + 1) = s.length - (char.2 + 1) + 1 := by
      rw [List.length_append, List.length_singleton]
      omega
    rw [exponent, pow_succ, ← BitVec.mul_assoc, BitVec.mul_comm _ 31, BitVec.mul_assoc]
  unfold javaHash
  dsimp only
  rw [List.zipIdx_append, List.foldl_append, shifted, foldl_mul]
  simp [pow]

theorem hashCode_concat (units : List Nat) (unit : Nat) :
    hashCode (units ++ [unit]) = 31 * hashCode units + BitVec.ofNat 32 unit := by
  rw [hashCode, List.foldl_append]
  rfl

/-- The hash of the code points. -/
theorem javaHash_eq (s : List Char) : javaHash s = hashCode (s.map Char.toNat) := by
  induction s using List.reverseRecOn with
  | nil => rfl
  | append_singleton s c ih =>
    rw [javaHash_concat, ih, List.map_append, List.map_singleton, hashCode_concat]

/-- What the characters beyond the basic plane add to the hash: each one shifts the hash `h` of
the code units in front of it once more, and counts as its two surrogates. -/
@[grind =] def surplusFrom (h surplus : BitVec 32) : List Char → BitVec 32
  | [] => surplus
  | c :: s =>
    if c.toNat < 65536 then surplusFrom (31 * h + BitVec.ofNat 32 c.toNat) (31 * surplus) s
    else
      let high := BitVec.ofNat 32 (55296 + (c.toNat - 65536) / 1024)
      let low := BitVec.ofNat 32 (56320 + (c.toNat - 65536) % 1024)
      surplusFrom (31 * (31 * h + high) + low)
        (31 * surplus + (31 * (31 * h + high) + low - (31 * h + BitVec.ofNat 32 c.toNat))) s

def surplus (s : List Char) : BitVec 32 := surplusFrom 0 0 s

theorem surplusFrom_narrow {s : List Char} (narrow : ∀ c ∈ s, c.toNat < 65536) (h : BitVec 32) :
    surplusFrom h 0 s = 0 := by
  induction s generalizing h with
  | nil => rfl
  | cons c s ih =>
    have zero : (31 : BitVec 32) * 0 = 0 := by decide
    rw [surplusFrom, if_pos (narrow c List.mem_cons_self), zero]
    exact ih (fun c member => narrow c (.tail _ member)) _

theorem difference_step (h h' c x : BitVec 32) :
    31 * (h - h') + (x - (31 * h + c)) = x - (31 * h' + c) := by
  grind

/-- The hash of the code units, from those of some characters on. -/
theorem surplusFrom_eq (s : List Char) (h h' : BitVec 32) :
    surplusFrom h (h - h') s =
      (Utf16.encode s).foldl (fun h unit => 31 * h + BitVec.ofNat 32 unit) h -
        (s.map Char.toNat).foldl (fun h unit => 31 * h + BitVec.ofNat 32 unit) h' := by
  induction s generalizing h h' with
  | nil => rfl
  | cons c s ih =>
    rw [Utf16.encode_cons, List.foldl_append, List.map_cons, List.foldl_cons, ← ih, surplusFrom]
    unfold Utf16.units
    split
    · have step := difference_step h h' (BitVec.ofNat 32 c.toNat)
        (31 * h + BitVec.ofNat 32 c.toNat)
      rw [BitVec.sub_self, BitVec.add_zero] at step
      rw [step]
      rfl
    · dsimp only
      rw [difference_step]
      rfl

/-- The hash in Java is that of the compiler with the surplus. -/
theorem hashes_agree_iff (s : List Char) :
    javaHash s = hashCode (Utf16.encode s) ↔ surplus s = 0 := by
  have difference : surplus s = hashCode (Utf16.encode s) - javaHash s := by
    rw [javaHash_eq]
    have from_zero := surplusFrom_eq s 0 0
    rw [BitVec.sub_self] at from_zero
    exact from_zero
  rw [difference]
  grind

theorem surplus_narrow {s : List Char} (narrow : ∀ c ∈ s, c.toNat < 65536) : surplus s = 0 :=
  surplusFrom_narrow narrow 0

end Haxe.Source.Jvm.Switch

/-!
## The buckets of a string switch

Every string of the cases is in the bucket of its hash, with the index of its case, and each hash
has one bucket.
-/

namespace Haxe.Source.Jvm.Switch

namespace HashtblList

variable {α β : Type}

/-- The keys are those of the values, each of them once. -/
structure Listed (htl : HashtblList α β) : Prop where
  once : htl.keys.Nodup
  keyed : ∀ key, key ∈ htl.keys ↔ key ∈ htl.values.map Prod.fst

theorem create_listed : (create : HashtblList α β).Listed := ⟨List.nodup_nil, fun _ => Iff.rfl⟩

variable [DecidableEq α]

theorem add_listed {htl : HashtblList α β} (listed : htl.Listed) (key : α) (value : β) :
    (htl.add key value).Listed := by
  unfold add
  by_cases present : key ∈ htl.values.map Prod.fst
  · rw [if_pos present]
    refine ⟨listed.once, fun key' => ?_⟩
    rw [listed.keyed, List.map_cons, List.mem_cons]
    constructor
    · exact Or.inr
    · rintro (rfl | earlier)
      · exact present
      · exact earlier
  · rw [if_neg present]
    refine ⟨List.nodup_cons.mpr ⟨fun same => present ((listed.keyed key).mp same), listed.once⟩,
      fun key' => ?_⟩
    rw [List.mem_cons, listed.keyed, List.map_cons, List.mem_cons]

variable (entries : List (α × β))

/-- The values that are added one after another. -/
theorem added_values (htl : HashtblList α β) :
    (entries.foldl (fun htl entry => htl.add entry.1 entry.2) htl).values =
      entries.reverse ++ htl.values := by
  induction entries generalizing htl with
  | nil => rfl
  | cons entry entries ih =>
    rw [List.foldl_cons, ih, List.reverse_cons, List.append_assoc]
    rfl

theorem added_listed {htl : HashtblList α β} (listed : htl.Listed) :
    (entries.foldl (fun htl entry => htl.add entry.1 entry.2) htl).Listed := by
  induction entries generalizing htl with
  | nil => exact listed
  | cons entry entries ih => exact ih (add_listed listed entry.1 entry.2)

/-- A pair of the list: a key with all of its values. -/
theorem mem_asList {htl : HashtblList α β} {bucket : α × List β} :
    bucket ∈ htl.asList ↔ bucket.1 ∈ htl.keys ∧ bucket.2 = htl.findAll bucket.1 := by
  unfold asList
  rw [List.mem_map]
  constructor
  · rintro ⟨key, present, rfl⟩
    exact ⟨present, rfl⟩
  · rintro ⟨present, found⟩
    exact ⟨bucket.1, present, Prod.ext rfl found.symm⟩

theorem mem_findAll {htl : HashtblList α β} {key : α} {value : β} :
    value ∈ htl.findAll key ↔ (key, value) ∈ htl.values := by
  unfold findAll
  rw [List.mem_map]
  constructor
  · rintro ⟨entry, member, rfl⟩
    obtain ⟨present, same⟩ := List.mem_filter.mp member
    rw [← of_decide_eq_true same]
    exact present
  · intro present
    exact ⟨(key, value), List.mem_filter.mpr ⟨present, decide_eq_true rfl⟩, rfl⟩

end HashtblList

open HashtblList

section Buckets

variable {cases : List (SwitchCase (List Char))}

theorem mem_entries {hash : BitVec 32} {e : List Char × Nat} :
    (hash, e) ∈ entries cases ↔
      ∃ case_, cases[e.2]? = some case_ ∧ e.1 ∈ case_.labels ∧ hash = javaHash e.1 := by
  unfold entries
  rw [List.mem_flatMap]
  constructor
  · rintro ⟨⟨case_, index⟩, member, entry⟩
    obtain ⟨s, label, same⟩ := List.mem_map.mp entry
    cases same
    exact ⟨case_, List.mem_zipIdx_iff_getElem?.mp member, label, rfl⟩
  · rintro ⟨case_, found, label, rfl⟩
    exact ⟨(case_, e.2), List.mem_zipIdx_iff_getElem?.mpr found,
      List.mem_map.mpr ⟨e.1, label, rfl⟩⟩

theorem entries_strings :
    (entries cases).map (fun entry => entry.2.1) = cases.flatMap SwitchCase.labels := by
  have from_index (k : Nat) : ((cases.zipIdx k).flatMap fun case_ =>
      case_.1.labels.map fun s => (javaHash s, s, case_.2)).map (fun entry => entry.2.1) =
        cases.flatMap SwitchCase.labels := by
    induction cases generalizing k with
    | nil => rfl
    | cons case_ cases ih =>
      rw [List.zipIdx_cons, List.flatMap_cons, List.map_append, ih, List.map_map,
        List.flatMap_cons]
      congr 1
      exact List.map_id _
  exact from_index 0

/-- A bucket holds the entries of its hash. -/
theorem mem_bucket {bucket : BitVec 32 × List (List Char × Nat)} (member : bucket ∈ buckets cases)
    {e : List Char × Nat} : e ∈ bucket.2 ↔ (bucket.1, e) ∈ entries cases := by
  obtain ⟨_, found⟩ := mem_asList.mp member
  rw [found, mem_findAll, added_values]
  constructor
  · intro entry
    exact List.mem_reverse.mp ((List.mem_append.mp entry).resolve_right List.not_mem_nil)
  · intro entry
    exact List.mem_append_left _ (List.mem_reverse.mpr entry)

theorem bucket_of_entry {hash : BitVec 32} {e : List Char × Nat}
    (entry : (hash, e) ∈ entries cases) :
    ∃ bucket ∈ buckets cases, bucket.1 = hash ∧ e ∈ bucket.2 := by
  have present : (hash, e) ∈ ((entries cases).foldl
      (fun htl entry => HashtblList.add htl entry.1 entry.2) HashtblList.create).values := by
    rw [added_values]
    exact List.mem_append_left _ (List.mem_reverse.mpr entry)
  refine ⟨(hash, _), mem_asList.mpr ⟨?_, rfl⟩, rfl, mem_findAll.mpr present⟩
  exact ((added_listed (entries cases) create_listed).keyed hash).mpr
    (List.mem_map.mpr ⟨_, present, rfl⟩)

theorem bucket_keys_nodup : ((buckets cases).map Prod.fst).Nodup := by
  unfold buckets asList
  dsimp only
  rw [List.map_map]
  exact (List.map_id _).symm ▸ (added_listed (entries cases) create_listed).once

/-- No string is twice in a bucket. -/
theorem bucket_strings_nodup (distinct : (cases.flatMap SwitchCase.labels).Nodup)
    {bucket : BitVec 32 × List (List Char × Nat)} (member : bucket ∈ buckets cases) :
    (bucket.2.map Prod.fst).Nodup := by
  obtain ⟨_, found⟩ := mem_asList.mp member
  have values : (entries cases).reverse ++ (create : HashtblList (BitVec 32) _).values =
      (entries cases).reverse := List.append_nil _
  rw [found, findAll, added_values, values, List.map_map]
  have strings := List.nodup_reverse.mpr distinct
  rw [← entries_strings, ← List.map_reverse] at strings
  exact strings.sublist (List.filter_sublist.map _)

end Buckets

end Haxe.Source.Jvm.Switch

/-!
## Executions of string switches

The bucket that a hash leads to is looked through, entry by entry. A string is found exactly if it
is in the bucket of its hash in Java.
-/

namespace Haxe.Source.Jvm.Switch

open Theory Theory.LabelledCode

section Places

variable {cases : List (SwitchCase (List Char))}

/-- The labels of a comparison are those of its string. -/
theorem places_testCode (e : List Char × Nat) :
    (places (testCode cases e)).Sublist [.then_ e.1, .else_ e.1] := by
  unfold testCode
  rw [places_instr, places_instr, places_instr]
  cases cases[e.2]? with
  | none => exact List.nil_sublist _
  | some case_ =>
    rw [Option.elim_some, branchCode]
    split
    · rw [places_instr, places_here, places_instr, places_append, places_gotoExit]
      exact List.Sublist.refl _
    · exact List.nil_sublist _

/-- The string of the labels of a comparison. -/
def stringOf : Label → Option (List Char)
  | .then_ s | .else_ s => some s
  | _ => none

/-- The hash that a label is made for. -/
def hashOf : Label → Option (BitVec 32)
  | .hashMatch hash => some hash
  | .then_ s | .else_ s => some (javaHash s)
  | _ => none

def indexOf : Label → Option Nat
  | .caseExpr index => some index
  | _ => none

theorem stringOf_testCode {e : List Char × Nat} {l : Label} (member : l ∈ places (testCode cases e)) :
    stringOf l = some e.1 ∧ hashOf l = some (javaHash e.1) := by
  have labels := (places_testCode e).subset member
  rw [List.mem_cons, List.mem_singleton] at labels
  obtain rfl | rfl := labels
  · exact ⟨rfl, rfl⟩
  · exact ⟨rfl, rfl⟩

theorem places_tests_nodup {es : List (List Char × Nat)} (distinct : (es.map Prod.fst).Nodup) :
    (places (es.flatMap (testCode cases))).Nodup := by
  rw [places_flatMap]
  refine nodup_flatMap_of_keys Prod.fst stringOf distinct ?_
    fun e _ l member => (stringOf_testCode member).1
  intro e _
  refine List.Nodup.sublist (places_testCode e) (List.nodup_cons.mpr ⟨?_, List.nodup_singleton _⟩)
  intro same
  cases List.mem_singleton.mp same

theorem places_bucketCode (bucket : BitVec 32 × List (List Char × Nat)) :
    places (bucketCode cases bucket) =
      .hashMatch bucket.1 :: places (bucket.2.flatMap (testCode cases)) := by
  rw [bucketCode, places_here, places_append]
  exact congrArg _ (List.append_nil _)

theorem hashOf_tests {hash : BitVec 32} {es : List (List Char × Nat)}
    (entries : ∀ e ∈ es, hash = javaHash e.1) {l : Label}
    (member : l ∈ places (es.flatMap (testCode cases))) :
    hashOf l = some hash ∧ ∃ s, stringOf l = some s := by
  rw [places_flatMap] at member
  obtain ⟨e, entry, label⟩ := List.mem_flatMap.mp member
  have of := stringOf_testCode label
  exact ⟨by rw [of.2, entries e entry], e.1, of.1⟩

theorem entry_hash {bucket : BitVec 32 × List (List Char × Nat)} (member : bucket ∈ buckets cases) :
    ∀ e ∈ bucket.2, bucket.1 = javaHash e.1 := by
  intro e entry
  obtain ⟨_, _, _, hash⟩ := mem_entries.mp ((mem_bucket member).mp entry)
  exact hash

theorem hashOf_bucketCode {bucket : BitVec 32 × List (List Char × Nat)}
    (member : bucket ∈ buckets cases) {l : Label} (label : l ∈ places (bucketCode cases bucket)) :
    hashOf l = some bucket.1 := by
  rw [places_bucketCode, List.mem_cons] at label
  obtain rfl | test := label
  · rfl
  · exact (hashOf_tests (entry_hash member) test).1

theorem places_buckets_nodup (distinct : (cases.flatMap SwitchCase.labels).Nodup) :
    (places ((buckets cases).flatMap (bucketCode cases))).Nodup := by
  rw [places_flatMap]
  refine nodup_flatMap_of_keys Prod.fst hashOf bucket_keys_nodup ?_
    fun bucket member l => hashOf_bucketCode member
  intro bucket member
  rw [places_bucketCode, List.nodup_cons]
  refine ⟨fun label => ?_, places_tests_nodup (bucket_strings_nodup distinct member)⟩
  obtain ⟨_, s, of⟩ := hashOf_tests (entry_hash member) label
  cases of

theorem places_exprCode (expr : SwitchCase (List Char) × Nat) :
    (places (exprCode expr)).Sublist [.caseExpr expr.2] := by
  unfold exprCode
  split
  · rw [places_here, places_instr, places_gotoExit]
  · exact List.nil_sublist _

theorem indexOf_exprCode {expr : SwitchCase (List Char) × Nat} {l : Label}
    (label : l ∈ places (exprCode expr)) : indexOf l = some expr.2 := by
  rw [List.mem_singleton.mp ((places_exprCode expr).subset label)]
  rfl

theorem places_exprs_nodup : (places (cases.zipIdx.flatMap exprCode)).Nodup := by
  rw [places_flatMap]
  refine nodup_flatMap_of_keys Prod.snd indexOf ?_
    (fun expr _ => (List.nodup_singleton _).sublist (places_exprCode expr))
    fun expr _ l => indexOf_exprCode
  rw [List.zipIdx_map_snd]
  exact List.nodup_range'

/-- The code of a switch in front of its end. -/
def bodyCode (cases : List (SwitchCase (List Char))) (byDefault : Option (Block × Bool)) : Code :=
  hashSwitch cases ++ ((buckets cases).flatMap (bucketCode cases) ++
    (cases.zipIdx.flatMap exprCode ++ defaultCode byDefault))

theorem places_bodyCode (byDefault : Option (Block × Bool)) :
    places (bodyCode cases byDefault) = places ((buckets cases).flatMap (bucketCode cases)) ++
      (places (cases.zipIdx.flatMap exprCode) ++ places (defaultCode byDefault)) := by
  rw [bodyCode, places_append, places_append, places_append]
  rfl

/-- No label of a switch over distinct strings has two places. -/
theorem stringSwitch_once (distinct : (cases.flatMap SwitchCase.labels).Nodup)
    (byDefault : Option (Block × Bool)) :
    (places (ended byDefault (bodyCode cases byDefault))).Nodup := by
  have hashed {l : Label} (label : l ∈ places ((buckets cases).flatMap (bucketCode cases))) :
      hashOf l ≠ none := by
    rw [places_flatMap] at label
    obtain ⟨bucket, member, label⟩ := List.mem_flatMap.mp label
    rw [hashOf_bucketCode member label]
    exact Option.some_ne_none _
  have indexed {l : Label} (label : l ∈ places (cases.zipIdx.flatMap exprCode)) :
      indexOf l ≠ none := by
    rw [places_flatMap] at label
    obtain ⟨expr, _, label⟩ := List.mem_flatMap.mp label
    rw [indexOf_exprCode label]
    exact Option.some_ne_none _
  have defaults {l : Label} (label : l ∈ places (defaultCode byDefault)) :
      byDefault ≠ none ∧ l = .default := by
    rw [places_defaultCode] at label
    split at label
    · cases label
    · exact ⟨‹_›, List.mem_singleton.mp label⟩
  have parts (l : Label) (label : l ∈ places (bodyCode cases byDefault)) :
      hashOf l ≠ none ∨ indexOf l ≠ none ∨ byDefault ≠ none ∧ l = .default := by
    rw [places_bodyCode] at label
    obtain label | label := List.mem_append.mp label
    · exact .inl (hashed label)
    · obtain label | label := List.mem_append.mp label
      · exact .inr (.inl (indexed label))
      · exact .inr (.inr (defaults label))
  apply ended_once
  · rw [places_bodyCode, List.nodup_append, List.nodup_append]
    refine ⟨places_buckets_nodup distinct, ⟨places_exprs_nodup, ?_, ?_⟩, ?_⟩
    · rw [places_defaultCode]
      split
      · exact List.nodup_nil
      · exact List.nodup_singleton _
    · rintro l expr l' there rfl
      obtain rfl := (defaults there).2
      exact indexed expr rfl
    · rintro l bucket l' there rfl
      have hash := hashed bucket
      obtain expr | there := List.mem_append.mp there
      · have index := indexed expr
        cases l <;> first
          | exact hash rfl
          | exact index rfl
      · obtain rfl := (defaults there).2
        exact hash rfl
  · intro label
    obtain hash | index | last := parts _ label
    · exact hash rfl
    · exact index rfl
    · cases last.2
  · intro nothing label
    obtain hash | index | last := parts _ label
    · exact hash rfl
    · exact index rfl
    · exact last.1 nothing

end Places

theorem jumpTable_sorted {cases : List (SwitchCase (List Char))} :
    (jumpTable cases).Pairwise fun pair pair' => pair.1.toInt < pair'.1.toInt := by
  apply sortPairs_sorted
  rw [List.map_map]
  exact bucket_keys_nodup

/-- The label that a hash is looked up as. -/
theorem jumpTable_lookup {cases : List (SwitchCase (List Char))} (hash : BitVec 32) :
    lookup (jumpTable cases) hash =
      if hash ∈ (buckets cases).map Prod.fst then .hashMatch hash else .default := by
  have pairs : (buckets cases).map (fun bucket => (bucket.1, Label.hashMatch bucket.1)) =
      ((buckets cases).map Prod.fst).map fun hash => (hash, Label.hashMatch hash) := by
    rw [List.map_map]
    rfl
  rw [jumpTable, pairs]
  exact sortPairs_lookup _ _ hash

section Executions

variable {cases : List (SwitchCase (List Char))} {byDefault : Option (Block × Bool)}
  {code front back rest : Code} {u : List Nat} {r : Result}

/-- The shared body of a case with several labels is somewhere in the code. -/
def SharesBody (cases : List (SwitchCase (List Char))) (code : Code) : Prop :=
  ∀ (index : Nat) (case_ : SwitchCase (List Char)), cases[index]? = some case_ →
    case_.labels.length ≠ 1 → ∃ front back, code = front ++ .here (.caseExpr index) ::
      .instr (.block (.case_ index) case_.terminates) :: (gotoExit case_.terminates ++ back)

theorem testCode_eq {e : List Char × Nat} {case_ : SwitchCase (List Char)}
    (indexed : cases[e.2]? = some case_) :
    testCode cases e = .instr .load :: .instr (.string e.1) :: .instr .equals ::
      branchCode e.1 e.2 case_ := by
  unfold testCode
  rw [indexed]
  rfl

/-- The subject equals the string of an entry. -/
theorem test_hit (once : (places (ended byDefault code)).Nodup) (shares : SharesBody cases code)
    {e : List Char × Nat} {case_ : SwitchCase (List Char)} (indexed : cases[e.2]? = some case_)
    (split : code = front ++ (testCode cases e ++ back)) (hit : Utf16.encode e.1 = u) :
    Leads (step (some u)) finish (ended byDefault code) (testCode cases e ++ rest) ⟨[], []⟩
      (ofBlock (some (.case_ e.2, case_.terminates))) := by
  have equal : decide (some (Utf16.encode e.1) = some u) = true := decide_eq_true (by rw [hit])
  rw [testCode_eq indexed] at split ⊢
  refine Leads.fall rfl (Leads.fall rfl (Leads.fall rfl ?_))
  rw [equal]
  unfold branchCode at split ⊢
  by_cases single : case_.labels.length = 1
  · rw [if_pos single] at split ⊢
    refine Leads.fall rfl (Leads.here _ ?_)
    have held : code = front ++ [.instr .load, .instr (.string e.1), .instr .equals,
        .instr (.if_ .cmpEq (.else_ e.1)), .here (.then_ e.1)] ++
          .instr (.block (.case_ e.2) case_.terminates) ::
            (gotoExit case_.terminates ++ (.here (.else_ e.1) :: back)) := by
      rw [split]
      simp
    have body : Leads (step (some u)) finish (ended byDefault code)
        (.instr (.block (.case_ e.2) case_.terminates) ::
          (gotoExit case_.terminates ++ ([.here (.else_ e.1)] ++ rest))) ⟨[], []⟩
        (ofBlock (some (.case_ e.2, case_.terminates))) := held_block_leads _ _ once held
    rw [← List.append_assoc] at body
    exact body
  · rw [if_neg single] at split ⊢
    obtain ⟨front', back', held⟩ := shares e.2 case_ indexed single
    have placed : ended byDefault code = front' ++ .here (.caseExpr e.2) ::
        (.instr (.block (.case_ e.2) case_.terminates) ::
          (gotoExit case_.terminates ++ (back' ++ endCode byDefault code))) := by
      rw [ended]
      conv => lhs; lhs; rw [held]
      simp
    have found : behind (.caseExpr e.2) (ended byDefault code) = _ :=
      (congrArg (behind _) placed).trans (behind_eq (placed ▸ once))
    refine Leads.jump rfl found ?_
    apply held_block_leads (front' ++ [.here (.caseExpr e.2)]) back' once
    rw [held, List.append_assoc]
    rfl

/-- The subject is another string than that of an entry. -/
theorem test_miss (once : (places (ended byDefault code)).Nodup)
    {e : List Char × Nat} {case_ : SwitchCase (List Char)} (indexed : cases[e.2]? = some case_)
    (split : code = front ++ (testCode cases e ++ back)) (miss : Utf16.encode e.1 ≠ u)
    (next : Leads (step (some u)) finish (ended byDefault code)
      (back ++ endCode byDefault code) ⟨[], []⟩ r) :
    Leads (step (some u)) finish (ended byDefault code)
      (testCode cases e ++ (back ++ endCode byDefault code)) ⟨[], []⟩ r := by
  have different : decide (some (Utf16.encode e.1) = some u) = false :=
    decide_eq_false fun same => miss (Option.some.inj same)
  rw [testCode_eq indexed] at split ⊢
  refine Leads.fall rfl (Leads.fall rfl (Leads.fall rfl ?_))
  rw [different]
  unfold branchCode at split ⊢
  by_cases single : case_.labels.length = 1
  · rw [if_pos single] at split ⊢
    have placed : ended byDefault code = (front ++ [.instr .load, .instr (.string e.1),
        .instr .equals, .instr (.if_ .cmpEq (.else_ e.1)), .here (.then_ e.1),
        .instr (.block (.case_ e.2) case_.terminates)] ++ gotoExit case_.terminates) ++
          .here (.else_ e.1) :: (back ++ endCode byDefault code) := by
      rw [ended]
      conv => lhs; lhs; rw [split]
      simp
    have found : behind (.else_ e.1) (ended byDefault code) = _ :=
      (congrArg (behind _) placed).trans (behind_eq (placed ▸ once))
    exact Leads.jump rfl found next
  · rw [if_neg single] at split ⊢
    exact Leads.fall rfl next

/-- The entries of a bucket are compared one after the other. -/
theorem tests_lead (front : Code) (once : (places (ended byDefault code)).Nodup)
    (shares : SharesBody cases code)
    {es : List (List Char × Nat)} (split : code = front ++ (es.flatMap (testCode cases) ++ back))
    (indexed : ∀ e ∈ es, ∃ case_, cases[e.2]? = some case_)
    (hits : ∀ e ∈ es, Utf16.encode e.1 = u → ∀ case_, cases[e.2]? = some case_ →
      ofBlock (some (.case_ e.2, case_.terminates)) = r)
    (none : (∀ e ∈ es, Utf16.encode e.1 ≠ u) → Leads (step (some u)) finish (ended byDefault code)
      (back ++ endCode byDefault code) ⟨[], []⟩ r) :
    Leads (step (some u)) finish (ended byDefault code)
      (es.flatMap (testCode cases) ++ (back ++ endCode byDefault code)) ⟨[], []⟩ r := by
  induction es generalizing front with
  | nil => exact none fun e member => absurd member List.not_mem_nil
  | cons e es ih =>
    obtain ⟨case_, found⟩ := indexed e List.mem_cons_self
    rw [List.flatMap_cons, List.append_assoc] at split ⊢
    by_cases hit : Utf16.encode e.1 = u
    · rw [← hits e List.mem_cons_self hit case_ found]
      exact test_hit once shares found split hit
    · rw [← List.append_assoc (es.flatMap _)]
      refine test_miss once found split hit ?_
      rw [List.append_assoc]
      refine ih (front ++ testCode cases e) (by rw [split, List.append_assoc])
        (fun e member => indexed e (.tail _ member)) (fun e member => hits e (.tail _ member)) ?_
      intro others
      exact none (List.forall_mem_cons.mpr ⟨hit, others⟩)

theorem sharesBody (byDefault : Option (Block × Bool)) :
    SharesBody cases (bodyCode cases byDefault) := by
  intro index case_ found several
  obtain ⟨first, last, split⟩ := List.append_of_mem
    (List.mem_zipIdx_iff_getElem?.mpr found : (case_, index) ∈ cases.zipIdx)
  have own : exprCode (case_, index) = .here (.caseExpr index) ::
      .instr (.block (.case_ index) case_.terminates) :: gotoExit case_.terminates :=
    if_pos several
  refine ⟨hashSwitch cases ++ ((buckets cases).flatMap (bucketCode cases) ++
    first.flatMap exprCode), last.flatMap exprCode ++ defaultCode byDefault, ?_⟩
  rw [bodyCode, split, List.flatMap_append, List.flatMap_cons, own]
  simp

/-- Where a bucket is in the code. -/
theorem bucket_placed (byDefault : Option (Block × Bool))
    {bucket : BitVec 32 × List (List Char × Nat)} (member : bucket ∈ buckets cases) :
    ∃ front back, bodyCode cases byDefault = front ++ .here (.hashMatch bucket.1) ::
      (bucket.2.flatMap (testCode cases) ++ (.instr (.goto .default) :: back)) := by
  obtain ⟨first, last, split⟩ := List.append_of_mem member
  refine ⟨hashSwitch cases ++ first.flatMap (bucketCode cases),
    last.flatMap (bucketCode cases) ++ (cases.zipIdx.flatMap exprCode ++ defaultCode byDefault),
    ?_⟩
  rw [bodyCode]
  conv => lhs; rw [split, List.flatMap_append, List.flatMap_cons, bucketCode]
  simp

/-- Every jump to the default executes its body alone. -/
theorem string_default_leads (distinct : (cases.flatMap SwitchCase.labels).Nodup) {i : Instr}
    {stack stack' : List JValue}
    (jumps : step (some u) i ⟨stack, []⟩ = some (.jump .default ⟨stack', []⟩)) :
    Leads (step (some u)) finish (ended byDefault (bodyCode cases byDefault)) (.instr i :: rest)
      ⟨stack, []⟩ (ofBlock byDefault) := by
  have shape : bodyCode cases byDefault = (hashSwitch cases ++
      ((buckets cases).flatMap (bucketCode cases) ++ cases.zipIdx.flatMap exprCode)) ++
        (defaultCode byDefault ++ []) := by
    simp [bodyCode]
  have once := stringSwitch_once distinct byDefault
  rw [shape] at once ⊢
  exact default_leads once jumps

/-- The execution for a string: the entries of its hash in Java are looked through. -/
theorem string_leads (distinct : (cases.flatMap SwitchCase.labels).Nodup)
    (hits : ∀ e, (hashCode u, e) ∈ entries cases → Utf16.encode e.1 = u →
      ∀ case_, cases[e.2]? = some case_ →
        ofBlock (some (.case_ e.2, case_.terminates)) = r)
    (nothing : (∀ e, (hashCode u, e) ∈ entries cases → Utf16.encode e.1 ≠ u) →
      ofBlock byDefault = r) :
    Executes (some u) (ended byDefault (bodyCode cases byDefault)) [] r := by
  have notNull : step (some u) (.ifNull .default) ⟨[.string (some u)], []⟩ =
      some (.fall ⟨[], []⟩) := rfl
  refine Leads.fall rfl (Leads.fall notNull (Leads.fall rfl (Leads.fall rfl ?_)))
  have looked (label : Label) (same : lookup (jumpTable cases) (hashCode u) = label) :
      step (some u) (.lookupswitch .default (jumpTable cases)) ⟨[.int (hashCode u)], []⟩ =
        some (.jump label ⟨[], []⟩) := by
    rw [← same]
    exact if_pos jumpTable_sorted
  by_cases present : hashCode u ∈ (buckets cases).map Prod.fst
  · have label := looked _ ((jumpTable_lookup (hashCode u)).trans (if_pos present))
    obtain ⟨bucket, member, same⟩ := List.mem_map.mp present
    have entry {e : List Char × Nat} : e ∈ bucket.2 ↔ (hashCode u, e) ∈ entries cases := by
      rw [mem_bucket member, same]
    have once := stringSwitch_once distinct byDefault
    obtain ⟨front, back, split⟩ := bucket_placed byDefault member
    have placed : ended byDefault (bodyCode cases byDefault) = front ++
        .here (.hashMatch bucket.1) :: (bucket.2.flatMap (testCode cases) ++
          ((.instr (.goto .default) :: back) ++
            endCode byDefault (bodyCode cases byDefault))) := by
      rw [ended]
      conv => lhs; lhs; rw [split]
      simp
    have found : behind (.hashMatch bucket.1) (ended byDefault (bodyCode cases byDefault)) = _ :=
      (congrArg (behind _) placed).trans (behind_eq (placed ▸ once))
    rw [same] at found
    refine Leads.jump label found ?_
    refine tests_lead (front ++ [.here (.hashMatch bucket.1)]) once
      (sharesBody byDefault) (by rw [split]; simp) ?_ (fun e member => hits e (entry.mp member)) ?_
    · intro e member
      obtain ⟨case_, indexed, _⟩ := mem_entries.mp (entry.mp member)
      exact ⟨case_, indexed⟩
    · intro others
      rw [← nothing fun e member => others e (entry.mpr member)]
      exact string_default_leads distinct rfl
  · have label := looked _ ((jumpTable_lookup (hashCode u)).trans (if_neg present))
    have absent (e : List Char × Nat) (member : (hashCode u, e) ∈ entries cases) :
        Utf16.encode e.1 ≠ u := by
      obtain ⟨bucket, member, same, _⟩ := bucket_of_entry member
      exact absurd (List.mem_map.mpr ⟨bucket, member, same⟩) present
    rw [← nothing absent]
    exact string_default_leads distinct label

/-- A null reference is dispatched to the default. -/
theorem null_leads (distinct : (cases.flatMap SwitchCase.labels).Nodup) :
    Executes none (ended byDefault (bodyCode cases byDefault)) [] (ofBlock byDefault) := by
  have shape : bodyCode cases byDefault = (hashSwitch cases ++
      ((buckets cases).flatMap (bucketCode cases) ++ cases.zipIdx.flatMap exprCode)) ++
        (defaultCode byDefault ++ []) := by
    simp [bodyCode]
  have once := stringSwitch_once distinct byDefault
  refine Leads.fall rfl ?_
  rw [shape] at once ⊢
  exact default_leads once rfl

end Executions

end Haxe.Source.Jvm.Switch
