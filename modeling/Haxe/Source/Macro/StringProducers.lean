import Haxe.Source.Macro.StringSearch

/-!
# Producers of strings

Which code points the strings represent that the functions of the macro interpreter make from
represented strings. `split`, `urlDecode` and the buffer compute lengths that need not fit.
-/

namespace Haxe.Source.StdString

open UTF8 EvalString
open Theory Occurrence

variable {points : List CodePoint} {this : VString}

/-- Some code points are represented. -/
def IsText (s : VString) : Prop := ∃ points, Represents s points

theorem isText_ofPoints (points : List CodePoint) : IsText (ofPoints points) :=
  ⟨points, represents_ofPoints points⟩

theorem represents_create {s : List Nat} {length : Int} (bytes : s = encode points)
    (count : length = points.length) : Represents (createWithLength s length) points where
  bytes := bytes
  length := count
  pairs := Nat.zero_le 2
  cached _ none := absurd none List.not_mem_nil

theorem represents_unknown (points : List CodePoint) :
    Represents (createUnknownVstring (encode points)) points := by
  refine represents_create rfl ?_
  rw [length_encode]

theorem represents_empty : Represents emptyString [] := represents_create rfl rfl

theorem represents_concat {s1 s2 : VString} {points1 points2 : List CodePoint}
    (left : Represents s1 points1) (right : Represents s2 points2) :
    Represents (concat s1 s2) (points1 ++ points2) := by
  apply represents_create
  · rw [left.bytes, right.bytes, encode_append]
  · rw [left.length, right.length, List.length_append, Int.natCast_add]

theorem bind_ok {α β : Type} {x : Res α} {f : α → Res β} {b : β} (made : x >>= f = .ok b) :
    ∃ a, x = .ok a ∧ f a = .ok b := by
  cases x with
  | error e => cases made
  | ok a => exact ⟨a, rfl, made⟩

theorem isText_fromCharCode {i : Int} {v : VString} (made : fromCharCode i = .ok v) :
    IsText v := by
  unfold fromCharCode stringOfCharCode at made
  cases isPoint : ucharOfInt i with
  | error e =>
    rw [isPoint] at made
    cases made
  | ok u =>
    rw [isPoint] at made
    obtain rfl := Except.ok.inj made
    exact ⟨[u], represents_create (by simp) rfl⟩

/-! ## join -/

/-- One string of `join`. -/
def joinStep (sep : VString) (state : Bool × List Nat × Int) (s : VString) :
    Bool × List Nat × Int :=
  (false, (if state.1 then state.2.1 else state.2.1 ++ sep.sstring) ++ s.sstring,
    (if state.1 then 0 else state.2.2 + sep.slength) + s.slength)

theorem join_eq (sep : VString) (sl : List VString) :
    join sep sl = createWithLength (sl.foldl (joinStep sep) (true, [], 0)).2.1
      (sl.foldl (joinStep sep) (true, [], 0)).2.2 := rfl

theorem joinStep_isText {sep s : VString} (sepIs : IsText sep) (sIs : IsText s)
    {state : Bool × List Nat × Int} (before : IsText (createWithLength state.2.1 state.2.2))
    (start : state.1 = true → state.2.1 = []) :
    IsText (createWithLength (joinStep sep state s).2.1 (joinStep sep state s).2.2) := by
  obtain ⟨sepPoints, sepIs⟩ := sepIs
  obtain ⟨sPoints, sIs⟩ := sIs
  obtain ⟨done, before⟩ := before
  unfold joinStep
  cases first : state.1 with
  | true =>
    refine ⟨sPoints, represents_create ?_ ?_⟩
    · rw [if_pos rfl, start first, sIs.bytes, List.nil_append]
    · dsimp only
      rw [if_pos rfl, sIs.length, Int.zero_add]
  | false =>
    refine ⟨done ++ sepPoints ++ sPoints, represents_create ?_ ?_⟩
    · have bytes : state.2.1 = encode done := before.bytes
      rw [if_neg Bool.false_ne_true, bytes, sepIs.bytes, sIs.bytes, encode_append, encode_append]
    · have count : state.2.2 = done.length := before.length
      dsimp only
      rw [if_neg Bool.false_ne_true, count, sepIs.length, sIs.length, List.length_append,
        List.length_append]
      omega

theorem isText_join {sep : VString} {sl : List VString} (sepIs : IsText sep)
    (all : ∀ s ∈ sl, IsText s) : IsText (join sep sl) := by
  have run : ∀ (sl : List VString) (state : Bool × List Nat × Int), (∀ s ∈ sl, IsText s) →
      IsText (createWithLength state.2.1 state.2.2) → (state.1 = true → state.2.1 = []) →
      IsText (createWithLength (sl.foldl (joinStep sep) state).2.1
        (sl.foldl (joinStep sep) state).2.2) := by
    intro sl
    induction sl with
    | nil => exact fun state _ before _ => before
    | cons s sl ih =>
      intro state all before start
      apply ih
      · exact fun s' member => all s' (List.mem_cons_of_mem _ member)
      · exact joinStep_isText sepIs (all s List.mem_cons_self) before start
      · exact fun first => absurd first Bool.false_ne_true
  rw [join_eq]
  exact run sl (true, [], 0) all ⟨[], represents_create rfl rfl⟩ fun _ => rfl

/-! ## Reading a string -/

theorem charAt_isText (represents : Represents this points) (i : Int) :
    (∀ v, (charAt this i).1 = .ok v → IsText v) ∧ Represents (charAt this i).2 points := by
  unfold charAt
  split
  · refine ⟨fun v made => ?_, represents⟩
    obtain rfl := Except.ok.inj made
    exact ⟨[], represents_empty⟩
  · rename_i inside
    have length := represents.length
    obtain ⟨c, rfl⟩ : ∃ c : Nat, i = c := ⟨i.toNat, by omega⟩
    obtain ⟨got, after⟩ := @charAt_ok points this represents c (by omega)
    refine ⟨fun v made => ?_, after⟩
    obtain ⟨char, -, made⟩ := bind_ok made
    exact isText_fromCharCode made

theorem charCodeAt_represents (represents : Represents this points) (i : Int) :
    Represents (charCodeAt this i).2 points := by
  unfold charCodeAt
  split
  · exact represents
  · rename_i inside
    have length := represents.length
    obtain ⟨c, rfl⟩ : ∃ c : Nat, i = c := ⟨i.toNat, by omega⟩
    exact (@charAt_ok points this represents c (by omega)).2

/-- `substr` gives the code points from an index. -/
theorem substr_ok (represents : Represents this points) {c n : Nat}
    (inside : c + n ≤ points.length) :
    (EvalString.substr this c n).1 = .ok (ofPoints ((points.drop c).take n)) ∧
      Represents (EvalString.substr this c n).2 points := by
  obtain ⟨got, after⟩ := @getOffset_ok points this represents c (by omega)
  have cut := @stringSub_offset points c (c + n) (Nat.le_add_right c n)
  unfold EvalString.substr
  rw [if_neg (by omega)]
  refine ⟨?_, after⟩
  dsimp only
  rw [got, represents.bytes]
  simp only [bind, Except.bind, move]
  rw [if_pos (by omega), Int.toNat_natCast, nextTimes_offset inside]
  dsimp only
  rw [cut, Nat.add_sub_cancel_left]
  unfold ofPoints
  rw [List.length_take, List.length_drop, Nat.min_eq_left (by omega)]
  rfl

theorem substr_within (represents : Represents this points) {c : Nat} {cLength : Int}
    (room : c + cLength ≤ points.length) :
    (∀ v, (EvalString.substr this c cLength).1 = .ok v → IsText v) ∧
      Represents (EvalString.substr this c cLength).2 points := by
  by_cases negative : cLength < 0
  · unfold EvalString.substr
    rw [if_pos negative]
    refine ⟨fun v made => ?_, represents⟩
    obtain rfl := Except.ok.inj made
    exact ⟨[], represents_empty⟩
  · obtain ⟨n, rfl⟩ : ∃ n : Nat, cLength = n := ⟨cLength.toNat, by omega⟩
    obtain ⟨got, after⟩ := @substr_ok points this represents c n (by omega)
    refine ⟨fun v made => ?_, after⟩
    rw [got] at made
    obtain rfl := Except.ok.inj made
    exact isText_ofPoints _

theorem substr_isText (represents : Represents this points) (cPos : Int) (len : Option Int) :
    (∀ v, (substr this cPos len).1 = .ok v → IsText v) ∧
      Represents (substr this cPos len).2 points := by
  have length := represents.length
  unfold substr
  dsimp only
  split
  · refine ⟨fun v made => ?_, represents⟩
    obtain rfl := Except.ok.inj made
    exact ⟨[], represents_empty⟩
  · obtain ⟨c, isStart⟩ : ∃ c : Nat, (if cPos < 0 then
        if this.slength + cPos < 0 then 0 else this.slength + cPos else cPos) = c := by
      split
      · split
        · exact ⟨0, rfl⟩
        · exact ⟨(this.slength + cPos).toNat, by omega⟩
      · exact ⟨cPos.toNat, by omega⟩
    rw [isStart]
    apply substr_within represents
    split
    · omega
    · split <;> omega

theorem ordered_eq {a b : Int} (first : 0 ≤ a) (last : 0 ≤ b) :
    ∃ c n : Nat, (if a > b then (b, a) else (a, b)) = ((c : Int), ((c + n : Nat) : Int)) := by
  split
  · refine ⟨b.toNat, (a - b).toNat, Prod.ext ?_ ?_⟩
    · dsimp only
      omega
    · dsimp only
      omega
  · refine ⟨a.toNat, (b - a).toNat, Prod.ext ?_ ?_⟩
    · dsimp only
      omega
    · dsimp only
      omega

theorem substring_isText (represents : Represents this points) (cFirst : Int)
    (endIndex : Option Int) :
    (∀ v, (substring this cFirst endIndex).1 = .ok v → IsText v) ∧
      Represents (substring this cFirst endIndex).2 points := by
  have length := represents.length
  unfold substring
  dsimp only
  obtain ⟨c, n, isOrdered⟩ := @ordered_eq (if cFirst < 0 then 0 else cFirst)
    (if endIndex.getD this.slength < 0 then 0 else endIndex.getD this.slength)
    (by split <;> omega) (by split <;> omega)
  obtain ⟨m, isLast, upto, order⟩ : ∃ m : Nat, (if ((c + n : Nat) : Int) > this.slength
      then this.slength else ((c + n : Nat) : Int)) = m ∧ m ≤ points.length ∧
      (c ≤ points.length → c ≤ m) := by
    split
    · exact ⟨points.length, length, Nat.le_refl _, id⟩
    · exact ⟨c + n, rfl, by omega, fun _ => Nat.le_add_right c n⟩
  rw [isOrdered]
  dsimp only
  rw [isLast]
  by_cases empty : (c : Int) > this.slength ∨ (c : Int) = m
  · rw [if_pos empty]
    refine ⟨fun v made => ?_, represents⟩
    obtain rfl := Except.ok.inj made
    exact ⟨[], represents_empty⟩
  · rw [if_neg empty]
    obtain ⟨got, after⟩ := @getOffset_ok points this represents c (by omega)
    have cut := @stringSub_offset points c m (order (by omega))
    have piece : Represents (createWithLength (encode ((points.drop c).take (m - c)))
        ((m : Int) - c)) ((points.drop c).take (m - c)) := by
      refine represents_create rfl ?_
      rw [List.length_take, List.length_drop]
      omega
    refine ⟨fun v made => ?_, after⟩
    rw [got, represents.bytes] at made
    simp only [bind, Except.bind, pure, Except.pure] at made
    by_cases whole : (m : Int) = this.slength
    · obtain rfl : m = points.length := by omega
      rw [if_pos whole, ← offset_length] at made
      rw [cut] at made
      obtain rfl := Except.ok.inj made
      exact ⟨_, piece⟩
    · have steps := @nextTimes_offset points c (m - c) (by omega)
      rw [show c + (m - c) = m by omega] at steps
      rw [if_neg whole, move, if_pos (by omega), show ((m : Int) - c).toNat = m - c by omega,
        steps] at made
      dsimp only at made
      rw [cut] at made
      obtain rfl := Except.ok.inj made
      exact ⟨_, piece⟩

/-! ## split and replace -/

variable {hay needle : List CodePoint} {str : VString}

/-- No slip in a gap in front of an occurrence that is found: its index leaves room for the
needle. -/
def SplitsCounted (needle : List CodePoint) (hay : List CodePoint) : Prop :=
  if _nonempty : needle = [] then True
  else
    match _found : first needle hay with
    | none => True
    | some q =>
      q + drift needle hay q + needle.length ≤ hay.length →
        drift needle hay q = 0 ∧ SplitsCounted needle (hay.drop (q + needle.length))
termination_by hay.length
decreasing_by exact length_behind _nonempty _found

theorem splitsCounted_some (nonempty : needle ≠ []) {q : Nat}
    (found : first needle hay = some q) :
    SplitsCounted needle hay ↔ (q + drift needle hay q + needle.length ≤ hay.length →
      drift needle hay q = 0 ∧ SplitsCounted needle (hay.drop (q + needle.length))) := by
  rw [SplitsCounted, dif_neg nonempty]
  split
  · rename_i absent
    rw [absent] at found
    cases found
  · rename_i found'
    obtain rfl := Option.some.inj (found.symm.trans found')
    rfl

theorem splitLoop_isText (thisIs : Represents this hay) (strIs : Represents str needle)
    (nonempty : needle ≠ []) {p fuel : Nat} (upto : p ≤ hay.length)
    (enough : hay.length < fuel + p) (counted : SplitsCounted needle (hay.drop p)) :
    ∃ l, splitLoop this str fuel p (offset hay p) = .ok l ∧ ∀ v ∈ l, IsText v := by
  induction fuel generalizing p with
  | zero => omega
  | succ fuel ih =>
    have positive := List.length_pos_iff.mpr nonempty
    have search := findSubstring_forward thisIs strIs nonempty (Nat.le_refl p) upto
    have rest : IsText (createWithLength (encode (hay.drop p)) (hay.length - p)) := by
      refine ⟨hay.drop p, represents_create rfl ?_⟩
      rw [List.length_drop]
      omega
    cases isFirst : first needle (hay.drop p) with
    | none =>
      have found : searched needle hay p p = none := by
        unfold searched
        rw [isFirst]
        rfl
      rw [found] at search
      refine ⟨_, splitLoop_last thisIs upto search, fun v member => ?_⟩
      obtain rfl := List.mem_singleton.mp member
      exact rest
    | some q =>
      have inside := (first_bound isFirst).resolve_right nonempty
      rw [splitsCounted_some nonempty isFirst] at counted
      rw [List.length_drop] at inside counted
      rw [searched_of_first isFirst] at search
      by_cases room : p + q + drift needle (hay.drop p) q + needle.length ≤ hay.length
      · obtain ⟨exact', behind⟩ := counted (by omega)
        rw [if_pos room, exact', Nat.add_zero] at search
        rw [List.drop_drop, ← Nat.add_assoc] at behind
        obtain ⟨l, others, texts⟩ := @ih (p + q + needle.length) (by omega) (by omega) behind
        have cut := encodeRange_offset thisIs (Nat.le_add_right p q) (((p + q : Nat) : Int) - p)
        rw [Int.natCast_add, ← strIs.length] at others
        refine ⟨_, splitLoop_found search cut others, fun v member => ?_⟩
        rcases List.mem_cons.mp member with rfl | other
        · refine ⟨_, represents_create rfl ?_⟩
          rw [List.length_take, List.length_drop]
          omega
        · exact texts v other
      · rw [if_neg room] at search
        refine ⟨_, splitLoop_last thisIs upto search, fun v member => ?_⟩
        obtain rfl := List.mem_singleton.mp member
        exact rest

theorem split_isText (thisIs : Represents this hay) (strIs : Represents str needle)
    (counted : SplitsCounted needle hay) {l : List VString} (made : split this str = .ok l) :
    ∀ v ∈ l, IsText v := by
  have long := length_le_encode hay
  unfold split at made
  split at made
  · rw [thisIs.bytes, iter_encode] at made
    obtain rfl := Except.ok.inj made
    intro v member
    obtain ⟨uc, -, rfl⟩ := List.mem_map.mp member
    exact ⟨[uc], represents_create (by simp) rfl⟩
  · rename_i bytes
    split at made
    · have whole := encodeRange_offset thisIs (Nat.zero_le hay.length) this.slength
      rw [offset_length, offset_zero, List.drop_zero, Nat.sub_zero, List.take_length,
        ← thisIs.bytes, Int.natCast_zero, Int.sub_zero] at whole
      rw [whole] at made
      obtain rfl := Except.ok.inj made
      intro v member
      obtain rfl := List.mem_singleton.mp member
      exact ⟨hay, represents_create thisIs.bytes thisIs.length⟩
    · have nonempty : needle ≠ [] := by
        rintro rfl
        rw [strIs.bytes] at bytes
        exact bytes rfl
      obtain ⟨l', loop, texts⟩ := @splitLoop_isText this hay needle str thisIs strIs nonempty 0
        (this.sstring.length + 1) (Nat.zero_le _) (by rw [thisIs.bytes]; omega) counted
      rw [offset_zero, Int.natCast_zero, made] at loop
      obtain rfl := Except.ok.inj loop
      exact texts

/-- The length of a replaced text fits, whichever occurrences were found. -/
theorem replace_isText {by' v : VString} {byPoints : List CodePoint}
    (thisIs : Represents this hay) (strIs : Represents str needle)
    (byIs : Represents by' byPoints) (made : replace this str by' = .ok v) : IsText v := by
  by_cases empty : needle = []
  · obtain ⟨v', made', represents⟩ := (replace_iff thisIs strIs byIs).mpr (Or.inr (by
      subst empty
      rw [FindsAll, dif_pos rfl]
      trivial))
    rw [made] at made'
    obtain rfl := Except.ok.inj made'
    exact ⟨_, represents⟩
  · obtain ⟨x, n, loop, length, -⟩ := @replaceLoop_spec hay needle this str by' byPoints thisIs
      strIs byIs empty 0 0 (this.sstring.length + 1) (Nat.le_refl 0) (Nat.zero_le _)
      (by have := length_le_encode hay; rw [thisIs.bytes]; omega)
    unfold replace at made
    dsimp only at made
    rw [offset_zero, Int.natCast_zero] at loop
    rw [if_neg (mt (slength_eq_zero strIs).mp empty), loop] at made
    obtain rfl := Except.ok.inj made
    refine ⟨x, represents_create rfl ?_⟩
    rw [length, List.drop_zero, thisIs.length, byIs.length, strIs.length]

/-! ## urlDecode -/

theorem addUchar_ascii {u : CodePoint} (small : u.val < 0x80) : addUchar u = [u.val] := by
  unfold addUchar
  dsimp only
  rw [if_neg (by omega), if_pos (by omega)]

/-- A byte below `0x80` is a character. -/
theorem isText_byte {c : Nat} (small : c < 0x80) : IsText (createAscii [c]) := by
  have bound : c < 2 ^ 31 := by omega
  refine ⟨[⟨c, bound⟩], represents_create ?_ rfl⟩
  rw [encode_cons, addUchar_ascii small]
  rfl

theorem addString_isText {b : VStringBuffer} {s : VString} (before : IsText b.contents)
    (added : IsText s) : IsText (b.addString s).contents := by
  obtain ⟨done, before⟩ := before
  obtain ⟨more, added⟩ := added
  exact ⟨done ++ more, represents_concat before added⟩

theorem urlDecodeLoop_isText {s : List Nat} (ascii : ∀ c ∈ s, c < 0x80) {fuel i : Nat}
    {b b' : VStringBuffer} (before : IsText b.contents)
    (made : urlDecodeLoop s fuel i b = .ok b') : IsText b'.contents := by
  induction fuel generalizing i b with
  | zero => cases made
  | succ fuel ih =>
    rw [urlDecodeLoop] at made
    split at made
    · obtain rfl := Except.ok.inj made
      exact before
    · rename_i c read
      have small := ascii c (List.mem_of_getElem? read)
      split at made
      · split at made
        · rename_i d digits
          split at made
          · rename_i low
            exact ih (addString_isText before (isText_byte low)) made
          · split at made
            · obtain ⟨c2, -, made⟩ := bind_ok made
              obtain ⟨v, one, made⟩ := bind_ok made
              exact ih (addString_isText before (isText_fromCharCode one)) made
            · split at made
              · obtain ⟨c2, -, made⟩ := bind_ok made
                obtain ⟨c3, -, made⟩ := bind_ok made
                obtain ⟨v, one, made⟩ := bind_ok made
                exact ih (addString_isText before (isText_fromCharCode one)) made
              · obtain ⟨c2, -, made⟩ := bind_ok made
                obtain ⟨c3, -, made⟩ := bind_ok made
                obtain ⟨c4, -, made⟩ := bind_ok made
                obtain ⟨v, one, made⟩ := bind_ok made
                exact ih (addString_isText before (isText_fromCharCode one)) made
        · exact ih before made
      · split at made
        · exact ih (addString_isText before (isText_byte (by omega))) made
        · exact ih (addString_isText before (isText_byte small)) made

theorem urlDecode_isText {s v : VString} (ascii : ∀ c ∈ s.sstring, c < 0x80)
    (made : urlDecode s = .ok v) : IsText v := by
  unfold urlDecode at made
  obtain ⟨b, decoded, made⟩ := bind_ok made
  obtain rfl := Except.ok.inj made
  exact urlDecodeLoop_isText ascii ⟨[], represents_create rfl rfl⟩ decoded

/-! ## StringBuf -/

theorem encode_ascii {points : List CodePoint} (ascii : ∀ u ∈ points, u.val < 0x80) :
    (encode points).length = points.length := by
  induction points with
  | nil => rfl
  | cons u points ih =>
    rw [encode_cons, List.length_append, addUchar_ascii (ascii u List.mem_cons_self),
      ih fun v member => ascii v (List.mem_cons_of_mem _ member), List.length_singleton,
      List.length_cons, Nat.add_comm]

theorem isText_printed {points : List CodePoint} (ascii : ∀ u ∈ points, u.val < 0x80) :
    IsText (createAscii (encode points)) :=
  ⟨points, represents_create rfl (by rw [encode_ascii ascii])⟩

theorem addChar_isText {b b' : VStringBuffer} {i : Int} (before : IsText b.contents)
    (made : addChar b i = .ok b') : IsText b'.contents := by
  unfold addChar at made
  obtain ⟨bytes, char, made⟩ := bind_ok made
  obtain rfl := Except.ok.inj made
  have one : fromCharCode i = .ok (createWithLength bytes 1) := by
    unfold fromCharCode
    rw [char]
    rfl
  exact addString_isText before (isText_fromCharCode one)

/-- A substring is added unless it starts in front of a string whose start is cached. -/
theorem addSub_isText {b : VStringBuffer} (before : IsText b.contents)
    (represents : Represents this points) {cPos : Int} {len : Option Int}
    (inside : cPos = -1 → cachesStart this = true → len.getD (this.slength - cPos) ≤ 0) :
    (∀ b', (addSub b this cPos len).1 = .ok b' → IsText b'.contents) ∧
      Represents (addSub b this cPos len).2 points := by
  unfold addSub
  dsimp only
  by_cases some' : len.getD (this.slength - cPos) > 0
  · rw [if_pos some']
    by_cases reached : 0 ≤ cPos ∧ cPos ≤ points.length
    · obtain ⟨c, rfl⟩ : ∃ c : Nat, cPos = c := ⟨cPos.toNat, by omega⟩
      obtain ⟨n, isLen⟩ : ∃ n : Nat, len.getD (this.slength - c) = n :=
        ⟨(len.getD (this.slength - c)).toNat, by omega⟩
      obtain ⟨got, after⟩ := @getOffset_ok points this represents c (by omega)
      refine ⟨fun b' made => ?_, after⟩
      rw [got, represents.bytes, isLen] at made
      simp only [bind, Except.bind, move] at made
      rw [if_pos (by omega), Int.toNat_natCast] at made
      by_cases room : c + n ≤ points.length
      · rw [nextTimes_offset room] at made
        dsimp only at made
        unfold VStringBuffer.addSubstring at made
        rw [represents.bytes, stringSub_offset (Nat.le_add_right c n)] at made
        obtain rfl := Except.ok.inj made
        refine addString_isText before
          (s := createWithLength (encode ((points.drop c).take (c + n - c))) n) ?_
        refine ⟨_, represents_create rfl ?_⟩
        rw [List.length_take, List.length_drop]
        omega
      · rw [nextTimes_beyond (by omega) (by omega)] at made
        cases made
    · have failed : (getOffset this cPos).1 = .error .invalidArgument := by
        by_cases negative : cPos < 0
        · rw [getOffset_negative represents negative, if_neg]
          exact fun front => absurd (inside front.1 front.2) (by omega)
        · exact getOffset_beyond represents (by omega)
      rw [failed, getOffset_error failed]
      exact ⟨fun b' made => absurd made (by simp [bind, Except.bind]), represents⟩
  · rw [if_neg some']
    refine ⟨fun b' made => ?_, represents⟩
    obtain rfl := Except.ok.inj made
    exact before

end Haxe.Source.StdString
