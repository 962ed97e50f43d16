import Haxe.Source.Std.UnserializerPositions

/-!
# The end of an unserializer

A run that never moves back ends: each token that is returned leaves less of the buffer.
-/

namespace Haxe.Source.Unserializer

open Theory.InterruptedRuns DynamicValues

variable {F C E : Type} {buf : List Char} {α β : Type}

/-- How many characters lie ahead. -/
def room (buf : List Char) (s : State F C E) : Nat := (buf.length - s.pos).toNat

/-- What the loops need of `unserialize`: it ends where its fuel is enough, and it moves on. -/
structure Reads (buf : List Char) (fuel : Nat) (read : Reading F C E (Value F C E)) : Prop where
  keeps : Keeps (Logged buf) read
  inside : ∀ {s v s'}, read s = (.returned v, s') → s.pos < buf.length
  moves_on : ∀ {s v s'}, read s = (.returned v, s') → Straight s' → s.pos < s'.pos
  halts : ∀ {s}, Coherent s → 2 * room buf s + 1 ≤ fuel → Halts Straight read s

theorem ends_pure (a : α) : Ends (pure a : Reading F C E α) := fun _ => nofun

theorem ends_throw (text : String) : Ends (throwMessage text : Reading F C E α) := fun _ => nofun

theorem ends_advance : Ends (advance : Reading F C E Unit) := fun _ => nofun

theorem ends_next : Ends (next buf : Reading F C E (Option Char)) := fun _ => nofun

theorem ends_readDigits : Ends (readDigits buf : Reading F C E Int) := fun _ => nofun

theorem ends_update (address : Nat) (f : Cell F C E → Cell F C E) :
    Ends (Run.modify (State.update address f) : Reading F C E Unit) := fun _ => nofun

theorem ends_look {f : State F C E → Reading F C E α} (step : ∀ s, (f s s).1 ≠ .exhausted) :
    Ends (Run.get >>= f) := step

theorem ends_allocateCached (cell : Cell F C E) : Ends (allocateCached cell) := fun _ => nofun

theorem ends_createEnum (platform : Platform F C E) (edecl : E) (tag : Value F C E)
    (args : List (Value F C E)) : Ends (createEnum platform edecl tag args) := by
  unfold createEnum
  split
  · exact ends_throw _
  · exact fun _ => nofun

/-- What comes after a part that moves on or stays. -/
theorem halts_bind {r : Reading F C E α} {f : α → Reading F C E β} {s : State F C E}
    (coherent : Coherent s) (kept : Keeps (Logged buf) r) (first : Halts Straight r s)
    (keeps : ∀ a, Keeps (Logged buf) (f a))
    (second : ∀ a s', r s = (.returned a, s') → Coherent s' → room buf s' ≤ room buf s →
      Halts Straight (f a) s') : Halts Straight (r >>= f) s := by
  have extends_ := kept s coherent
  apply Halts.bind (fun related good => (related extends_.coherent).straight_back good)
    first keeps
  intro a s' done straight
  rw [done] at extends_
  have on : s.pos ≤ s'.pos := extends_.le_pos straight coherent.pos_mem
  have less : room buf s' ≤ room buf s := by
    unfold room
    omega
  exact second a s' done extends_.coherent less

theorem halts_after {r : Reading F C E α} {f : α → Reading F C E β} {s : State F C E}
    (coherent : Coherent s) (kept : Keeps (Logged buf) r) (ends : Ends r)
    (keeps : ∀ a, Keeps (Logged buf) (f a))
    (second : ∀ a s', r s = (.returned a, s') → Coherent s' → room buf s' ≤ room buf s →
      Halts Straight (f a) s') : Halts Straight (r >>= f) s :=
  halts_bind coherent kept (ends.halts s) keeps second

/-- What comes after a token. -/
theorem Reads.andThen {read : Reading F C E (Value F C E)} {fuel : Nat}
    (reads : Reads buf fuel read) {f : Value F C E → Reading F C E β} {s : State F C E}
    (coherent : Coherent s) (enough : 2 * room buf s + 1 ≤ fuel)
    (keeps : ∀ v, Keeps (Logged buf) (f v))
    (second : ∀ v s', Coherent s' → room buf s' < room buf s → Halts Straight (f v) s') :
    Halts Straight (read >>= f) s := by
  have extends_ := reads.keeps s coherent
  apply Halts.bind (fun related good => (related extends_.coherent).straight_back good)
    (reads.halts coherent enough) keeps
  intro v s' done straight
  rw [done] at extends_
  have inside := reads.inside done
  have on := reads.moves_on done straight
  have less : room buf s' < room buf s := by
    unfold room
    omega
  exact second v s' extends_.coherent less

variable {read : Reading F C E (Value F C E)} {fuel : Nat}

theorem halts_unserializeObject (reads : Reads buf fuel read) (o : Nat) {rounds : Nat}
    {s : State F C E} (coherent : Coherent s) (enough : 2 * room buf s + 1 ≤ fuel)
    (rounds_enough : 2 * room buf s + 2 ≤ rounds) :
    Halts Straight (unserializeObject buf read o rounds) s := by
  induction rounds generalizing s with
  | zero => omega
  | succ rounds ih =>
    have keeps := keeps_unserializeObject reads.keeps o rounds
    unfold unserializeObject
    unfold Halts
    rw [Run.get_bind]
    split_ifs with beyond close
    · exact (ends_throw _).halts s
    · exact ends_advance.halts s
    · apply reads.andThen coherent enough
      · intro k
        cases k with
        | string text =>
          exact keeps_bind reads.keeps fun v => keeps_bind (keeps_update o _) fun _ => keeps
        | _ => exact keeps_throw _
      · intro k s' coherent' less
        cases k with
        | string text =>
          apply reads.andThen coherent' (by omega)
          · exact fun v => keeps_bind (keeps_update o _) fun _ => keeps
          · intro v s'' coherent'' less'
            apply halts_after coherent'' (keeps_update o _) (ends_update o _) (fun _ => keeps)
            intro _ s₃ _ coherent₃ less₃
            exact ih coherent₃ (by omega) (by omega)
        | _ => exact (ends_throw _).halts s'

theorem halts_readArgs (reads : Reads buf fuel read) (nargs : Nat) {s : State F C E}
    (coherent : Coherent s) (enough : 2 * room buf s + 1 ≤ fuel) :
    Halts Straight (readArgs read nargs) s := by
  induction nargs generalizing s with
  | zero => exact (ends_pure _).halts s
  | succ nargs ih =>
    have keeps := keeps_readArgs reads.keeps nargs
    apply reads.andThen coherent enough
    · exact fun _ => keeps_bind keeps fun _ => keeps_pure _
    · intro arg s' coherent' less
      apply halts_bind coherent' keeps (ih coherent' (by omega)) fun _ => keeps_pure _
      intro rest s'' _ _ _
      exact (ends_pure _).halts s''

theorem halts_unserializeEnum (platform : Platform F C E) (reads : Reads buf fuel read)
    (edecl : E) (tag : Value F C E) {s : State F C E} (coherent : Coherent s)
    (enough : 2 * room buf s + 1 ≤ fuel) :
    Halts Straight (unserializeEnum platform buf read edecl tag) s := by
  have keepsEnum := fun args => @keeps_createEnum F C E buf platform edecl tag args
  have keepsArgs := fun nargs => keeps_readArgs reads.keeps nargs
  apply halts_after coherent keeps_next ends_next
  · intro c
    split_ifs
    · exact keeps_throw _
    · exact keeps_bind keeps_readDigits fun nargs => keeps_bind (keepsArgs _) keepsEnum
  · intro c s₁ _ coherent₁ less₁
    split_ifs
    · exact (ends_throw _).halts s₁
    · apply halts_after coherent₁ keeps_readDigits ends_readDigits
      · exact fun nargs => keeps_bind (keepsArgs _) keepsEnum
      · intro nargs s₂ _ coherent₂ less₂
        apply halts_bind coherent₂ (keepsArgs _)
          (halts_readArgs reads nargs.toNat coherent₂ (by omega)) keepsEnum
        intro args s₃ _ _ _
        exact (ends_createEnum platform edecl tag args).halts s₃

theorem halts_readArray (reads : Reads buf fuel read) (a : Nat) {rounds : Nat}
    {s : State F C E} (coherent : Coherent s) (enough : 2 * room buf s + 1 ≤ fuel)
    (rounds_enough : 2 * room buf s + 2 ≤ rounds) :
    Halts Straight (readArray buf read a rounds) s := by
  induction rounds generalizing s with
  | zero => omega
  | succ rounds ih =>
    have keeps := keeps_readArray reads.keeps a rounds
    unfold readArray
    unfold Halts
    rw [Run.get_bind]
    split_ifs with close nulls
    · exact ends_advance.halts s
    · apply halts_after coherent keeps_advance ends_advance
      · exact fun _ => keeps_bind keeps_readDigits fun n =>
          keeps_bind (keeps_update a _) fun _ => keeps
      · intro _ s₁ advanced coherent₁ _
        have inside := (charAt_lt nulls).2
        have on : s₁.pos = s.pos + 1 := by
          have moved : s.moveTo (s.pos + 1) = s₁ := congrArg Prod.snd advanced
          rw [← moved]
          rfl
        have less₁ : room buf s₁ < room buf s := by
          unfold room
          omega
        apply halts_after coherent₁ keeps_readDigits ends_readDigits
        · exact fun n => keeps_bind (keeps_update a _) fun _ => keeps
        · intro n s₂ _ coherent₂ less₂
          apply halts_after coherent₂ (keeps_update a _) (ends_update a _) (fun _ => keeps)
          intro _ s₃ _ coherent₃ less₃
          exact ih coherent₃ (by omega) (by omega)
    · apply reads.andThen coherent enough
      · exact fun v => keeps_bind (keeps_update a _) fun _ => keeps
      · intro v s₁ coherent₁ less₁
        apply halts_after coherent₁ (keeps_update a _) (ends_update a _) (fun _ => keeps)
        intro _ s₂ _ coherent₂ less₂
        exact ih coherent₂ (by omega) (by omega)

theorem halts_readList (reads : Reads buf fuel read) (l : Nat) {rounds : Nat}
    {s : State F C E} (coherent : Coherent s) (enough : 2 * room buf s + 1 ≤ fuel)
    (rounds_enough : 2 * room buf s + 2 ≤ rounds) :
    Halts Straight (readList buf read l rounds) s := by
  induction rounds generalizing s with
  | zero => omega
  | succ rounds ih =>
    have keeps := keeps_readList reads.keeps l rounds
    unfold readList
    unfold Halts
    rw [Run.get_bind]
    split_ifs with close
    · exact ends_advance.halts s
    · apply reads.andThen coherent enough
      · exact fun v => keeps_bind (keeps_update l _) fun _ => keeps
      · intro v s₁ coherent₁ less₁
        apply halts_after coherent₁ (keeps_update l _) (ends_update l _) (fun _ => keeps)
        intro _ s₂ _ coherent₂ less₂
        exact ih coherent₂ (by omega) (by omega)

theorem halts_readMap (reads : Reads buf fuel read) (h : Nat) {rounds : Nat}
    {s : State F C E} (coherent : Coherent s) (enough : 2 * room buf s + 1 ≤ fuel)
    (rounds_enough : 2 * room buf s + 2 ≤ rounds) :
    Halts Straight (readMap buf read h rounds) s := by
  induction rounds generalizing s with
  | zero => omega
  | succ rounds ih =>
    have keeps := keeps_readMap reads.keeps h rounds
    unfold readMap
    unfold Halts
    rw [Run.get_bind]
    split_ifs with close
    · exact ends_advance.halts s
    · apply reads.andThen coherent enough
      · exact fun k => keeps_bind reads.keeps fun v =>
          keeps_bind (keeps_update h _) fun _ => keeps
      · intro k s₁ coherent₁ less₁
        apply reads.andThen coherent₁ (by omega)
        · exact fun v => keeps_bind (keeps_update h _) fun _ => keeps
        · intro v s₂ coherent₂ less₂
          apply halts_after coherent₂ (keeps_update h _) (ends_update h _) (fun _ => keeps)
          intro _ s₃ _ coherent₃ less₃
          exact ih coherent₃ (by omega) (by omega)

theorem halts_readIntMap (reads : Reads buf fuel read) (h : Nat) {rounds : Nat}
    {s : State F C E} (coherent : Coherent s) (enough : 2 * room buf s + 1 ≤ fuel)
    (rounds_enough : 2 * room buf s + 2 ≤ rounds) :
    Halts Straight (readIntMap buf read h rounds) s := by
  induction rounds generalizing s with
  | zero => omega
  | succ rounds ih =>
    have keeps := keeps_readIntMap reads.keeps h rounds
    have keepsRest : ∀ i : Int, Keeps (Logged buf) (read >>= fun v =>
        Run.modify (State.update h (.set (.int i) v)) >>= fun _ =>
          readIntMap buf read h rounds) := fun i =>
      keeps_bind reads.keeps fun v => keeps_bind (keeps_update h _) fun _ => keeps
    unfold readIntMap
    apply halts_after coherent keeps_next ends_next
    · intro c
      split_ifs
      · exact keeps_bind keeps_readDigits keepsRest
      · exact keeps_throw _
      · exact keeps_pure _
    · intro c s₁ _ coherent₁ less₁
      split_ifs
      · apply halts_after coherent₁ keeps_readDigits ends_readDigits keepsRest
        intro i s₂ _ coherent₂ less₂
        apply reads.andThen coherent₂ (by omega)
        · exact fun v => keeps_bind (keeps_update h _) fun _ => keeps
        · intro v s₃ coherent₃ less₃
          apply halts_after coherent₃ (keeps_update h _) (ends_update h _) (fun _ => keeps)
          intro _ s₄ _ coherent₄ less₄
          exact ih coherent₄ (by omega) (by omega)
      · exact (ends_throw _).halts s₁
      · exact (ends_pure _).halts s₁

theorem ends_readFloat (platform : Platform F C E) : Ends (readFloat platform buf) :=
  fun _ => nofun

theorem ends_cacheValue (v : Value F C E) : Ends (cacheValue v) := fun _ => nofun

theorem ends_readString (platform : Platform F C E) : Ends (readString platform buf) := by
  apply ends_readDigits.bind
  intro len
  apply ends_next.bind
  intro c
  apply ends_look
  intro s
  split_ifs
  · exact ends_throw _ s
  · exact fun exhausted => nomatch exhausted

theorem ends_readBytes : Ends (readBytes buf : Reading F C E (Value F C E)) := by
  apply ends_readDigits.bind
  intro len
  apply ends_next.bind
  intro c
  apply ends_look
  intro s
  split_ifs
  · exact ends_throw _ s
  · exact ends_throw _ s
  · exact fun exhausted => nomatch exhausted

theorem ends_readDate (platform : Platform F C E) : Ends (readDate platform buf) := by
  apply ends_look
  intro s
  split_ifs
  · cases platform.dateFromString (substr buf s.pos 19) with
    | none => exact ends_throw _ s
    | some d => exact fun exhausted => nomatch exhausted
  · exact fun exhausted => nomatch exhausted

theorem ends_readReference : Ends (readReference buf : Reading F C E (Value F C E)) := by
  apply ends_readDigits.bind
  intro n
  apply ends_look
  intro s
  split_ifs
  · exact ends_throw _ s
  · cases s.cache[n.toNat]? with
    | none => exact ends_throw _ s
    | some v => exact ends_pure v s

theorem ends_readStringReference :
    Ends (readStringReference buf : Reading F C E (Value F C E)) := by
  apply ends_readDigits.bind
  intro n
  apply ends_look
  intro s
  split_ifs
  · exact ends_throw _ s
  · cases s.scache[n.toNat]? with
    | none => exact ends_throw _ s
    | some text => exact ends_pure _ s

theorem halts_readInto {loop : Nat → Reading F C E Unit} (cell : Cell F C E)
    (keeps : ∀ address, Keeps (Logged buf) (loop address)) {s : State F C E}
    (coherent : Coherent s)
    (loops : ∀ address s', Coherent s' → room buf s' ≤ room buf s →
      Halts Straight (loop address) s') : Halts Straight (readInto cell loop) s := by
  apply halts_after coherent (keeps_allocateCached cell) (ends_allocateCached cell)
  · exact fun address => keeps_bind (keeps address) fun _ => keeps_pure _
  · intro address s₁ _ coherent₁ less₁
    apply halts_bind coherent₁ (keeps address) (loops address s₁ coherent₁ less₁)
      fun _ => keeps_pure _
    intro _ s₂ _ _ _
    exact (ends_pure _).halts s₂

section

variable {platform : Platform F C E} (reads : Reads buf fuel read)

include reads

theorem halts_readClass {s : State F C E} (coherent : Coherent s)
    (enough : 2 * room buf s + 1 ≤ fuel) : Halts Straight (readClass platform read) s := by
  apply reads.andThen coherent enough
  · intro name
    apply keeps_look
    intro s
    cases platform.resolveClass name with
    | none => exact keeps_throw _ s
    | some cl => exact keeps_pure cl s
  · intro name s₁ _ _
    refine Ends.halts (ends_look ?_) s₁
    intro s
    cases platform.resolveClass name with
    | none => exact ends_throw _ s
    | some cl => exact ends_pure cl s

theorem halts_readEnum {s : State F C E} (coherent : Coherent s)
    (enough : 2 * room buf s + 1 ≤ fuel) : Halts Straight (readEnum platform read) s := by
  apply reads.andThen coherent enough
  · intro name
    apply keeps_look
    intro s
    cases platform.resolveEnum name with
    | none => exact keeps_throw _ s
    | some edecl => exact keeps_pure _ s
  · intro name s₁ _ _
    refine Ends.halts (ends_look ?_) s₁
    intro s
    cases platform.resolveEnum name with
    | none => exact ends_throw _ s
    | some edecl => exact ends_pure _ s

theorem halts_readIndexedEnum {s : State F C E} (coherent : Coherent s)
    (enough : 2 * room buf s + 1 ≤ fuel) :
    Halts Straight (readIndexedEnum platform buf read) s := by
  have keepsTag (e : Value F C E × E) (index : Int) :=
    @keeps_unserializeIndexed F C E buf read platform reads.keeps e index
  have keepsIndex (e : Value F C E × E) := keeps_bind keeps_readDigits (keepsTag e)
  apply halts_bind coherent (keeps_readEnum reads.keeps) (halts_readEnum reads coherent enough)
  · exact fun e => keeps_bind keeps_advance fun _ => keepsIndex e
  · intro e s₁ _ coherent₁ less₁
    apply halts_after coherent₁ keeps_advance ends_advance (fun _ => keepsIndex e)
    intro _ s₂ _ coherent₂ less₂
    apply halts_after coherent₂ keeps_readDigits ends_readDigits (keepsTag e)
    intro index s₃ _ coherent₃ less₃
    unfold unserializeIndexed Halts
    rw [Run.get_bind]
    cases if index < 0 then none else (platform.constructs e.2)[index.toNat]? with
    | none => exact (ends_throw _).halts s₃
    | some tag =>
      apply halts_bind coherent₃ (keeps_unserializeEnum reads.keeps e.2 _)
        (halts_unserializeEnum platform reads e.2 _ coherent₃ (by omega))
          (fun v => keeps_cacheValue v)
      intro v s₄ _ _ _
      exact (ends_cacheValue v).halts s₄

/-- The rest of a token ends, with fuel for the characters ahead. -/
theorem halts_unserializeRest {c : Char} {rest : Reading F C E (Value F C E)}
    (begins : unserializeRest platform buf read fuel c = some rest) {s : State F C E}
    (coherent : Coherent s) (enough : 2 * room buf s + 2 ≤ fuel) :
    Halts Straight rest s := by
  have keepsObject := fun o => keeps_unserializeObject reads.keeps o fuel
  have haltsObject : ∀ o s', Coherent s' → room buf s' ≤ room buf s →
      Halts Straight (unserializeObject buf read o fuel) s' := fun o s' coherent' less =>
    halts_unserializeObject reads o coherent' (by omega) (by omega)
  have keepsMap := fun h => keeps_readMap reads.keeps h fuel
  have haltsMap : ∀ h s', Coherent s' → room buf s' ≤ room buf s →
      Halts Straight (readMap buf read h fuel) s' := fun h s' coherent' less =>
    halts_readMap reads h coherent' (by omega) (by omega)
  unfold unserializeRest at begins
  split at begins <;> cases begins
  · exact (ends_pure _).halts s
  · exact (ends_pure _).halts s
  · exact (ends_pure _).halts s
  · exact (ends_pure _).halts s
  · exact (ends_readDigits.bind fun _ => ends_pure _).halts s
  · exact ((ends_readFloat platform).bind fun _ => ends_pure _).halts s
  · exact (ends_readString platform).halts s
  · exact (ends_pure _).halts s
  · exact (ends_pure _).halts s
  · exact (ends_pure _).halts s
  · apply halts_readInto _ (fun a => keeps_readArray reads.keeps a fuel) coherent
    intro a s' coherent' less
    exact halts_readArray reads a coherent' (by omega) (by omega)
  · exact halts_readInto _ keepsObject coherent haltsObject
  · exact ends_readReference.halts s
  · exact ends_readStringReference.halts s
  · apply halts_bind coherent reads.keeps (reads.halts coherent (by omega))
      (fun _ => Keeps.of_same Logged.refl fun _ => rfl)
    intro v s' _ _ _
    exact fun exhausted => nomatch exhausted
  · apply halts_bind coherent (keeps_readClass reads.keeps)
      (halts_readClass reads coherent (by omega)) (fun _ => keeps_readInto _ keepsObject)
    intro cl s' _ coherent' less
    exact halts_readInto _ keepsObject coherent' fun o s'' coherent'' less' =>
      haltsObject o s'' coherent'' (by omega)
  · have keepsEnum := fun (e : Value F C E × E) tag =>
      @keeps_unserializeEnum F C E buf read platform reads.keeps e.2 tag
    apply halts_bind coherent (keeps_readEnum reads.keeps)
      (halts_readEnum reads coherent (by omega))
    · exact fun e => keeps_bind reads.keeps fun tag =>
        keeps_bind (keepsEnum e tag) fun v => keeps_cacheValue v
    · intro e s₁ _ coherent₁ less₁
      apply reads.andThen coherent₁ (by omega)
      · exact fun tag => keeps_bind (keepsEnum e tag) fun v => keeps_cacheValue v
      · intro tag s₂ coherent₂ less₂
        apply halts_bind coherent₂ (keepsEnum e tag)
          (halts_unserializeEnum platform reads e.2 tag coherent₂ (by omega))
          (fun v => keeps_cacheValue v)
        intro v s₃ _ _ _
        exact (ends_cacheValue v).halts s₃
  · exact halts_readIndexedEnum reads coherent (by omega)
  · apply halts_readInto _ (fun l => keeps_readList reads.keeps l fuel) coherent
    intro l s' coherent' less
    exact halts_readList reads l coherent' (by omega) (by omega)
  · exact halts_readInto _ keepsMap coherent haltsMap
  · apply halts_readInto _ (fun h => keeps_readIntMap reads.keeps h fuel) coherent
    intro h s' coherent' less
    exact halts_readIntMap reads h coherent' (by omega) (by omega)
  · exact halts_readInto _ keepsMap coherent haltsMap
  · exact (ends_readDate platform).halts s
  · exact ends_readBytes.halts s
  · apply halts_bind coherent (keeps_readClass reads.keeps)
      (halts_readClass reads coherent (by omega))
      (fun _ => keeps_bind (keeps_allocateCached _) fun _ => keeps_throw _)
    intro cl s' _ _ _
    exact ((ends_allocateCached _).bind fun _ => ends_throw _).halts s'
  · apply halts_bind coherent (keeps_readClass reads.keeps)
      (halts_readClass reads coherent (by omega)) fun _ => keeps_pure _
    intro cl s' _ _ _
    exact (ends_pure _).halts s'
  · apply halts_bind coherent (keeps_readEnum reads.keeps)
      (halts_readEnum reads coherent (by omega)) fun _ => keeps_pure _
    intro e s' _ _ _
    exact (ends_pure _).halts s'

end

/-- A token that returns began inside the buffer, and it is the latest that was consumed. -/
theorem unserialize_returned {platform : Platform F C E} {fuel : Nat} {s s' : State F C E}
    {v : Value F C E} (returned : unserialize platform buf (fuel + 1) s = (.returned v, s')) :
    s.pos < buf.length ∧ (s.pos, s'.pos) ∈ s'.consumed := by
  cases begins : (charAt buf s.pos).bind
      (unserializeRest platform buf (unserialize platform buf fuel) fuel) with
  | none =>
    rw [unserialize_invalid begins] at returned
    exact nomatch (Prod.ext_iff.mp returned).1
  | some rest =>
    obtain ⟨c, at_, -⟩ := Option.bind_eq_some_iff.mp begins
    refine ⟨(charAt_lt at_).2, ?_⟩
    rw [unserialize_token begins, Run.bind_apply] at returned
    cases outcome : (rest (s.moveTo (s.pos + 1))).1 with
    | returned v' =>
      rw [outcome] at returned
      have last : (rest (s.moveTo (s.pos + 1))).2.consume s.pos = s' := congrArg Prod.snd returned
      rw [← last]
      exact List.mem_cons_self
    | thrown e =>
      rw [outcome] at returned
      exact nomatch (Prod.ext_iff.mp returned).1
    | exhausted =>
      rw [outcome] at returned
      exact nomatch (Prod.ext_iff.mp returned).1

theorem unserialize_reads (platform : Platform F C E) (fuel : Nat) :
    Reads buf fuel (unserialize platform buf fuel) := by
  induction fuel with
  | zero =>
    refine ⟨keeps_exhaust, ?_, ?_, ?_⟩
    · intro s v s' returned
      exact nomatch (Prod.ext_iff.mp returned).1
    · intro s v s' returned
      exact nomatch (Prod.ext_iff.mp returned).1
    · intro s _ enough
      omega
  | succ fuel ih =>
    refine ⟨unserialize_logged (fuel + 1), ?_, ?_, ?_⟩
    · exact fun returned => (unserialize_returned returned).1
    · intro s v s' returned straight
      exact straight.2 _ (unserialize_returned returned).2
    · intro s coherent enough
      cases begins : (charAt buf s.pos).bind
          (unserializeRest platform buf (unserialize platform buf fuel) fuel) with
      | none => exact Halts.thrown (unserialize_invalid begins)
      | some rest =>
        obtain ⟨c, at_, token⟩ := Option.bind_eq_some_iff.mp begins
        have inside := charAt_lt at_
        have less : room buf (s.moveTo (s.pos + 1)) + 1 = room buf s := by
          have moved : (s.moveTo (s.pos + 1)).pos = s.pos + 1 := rfl
          unfold room
          omega
        have halts := halts_unserializeRest ih token (.moveTo s (s.pos + 1)) (by omega)
        unfold Halts
        rw [unserialize_token begins, Run.bind_apply]
        cases outcome : (rest (s.moveTo (s.pos + 1))).1 with
        | returned v => exact fun exhausted => nomatch exhausted
        | thrown e => exact fun exhausted => nomatch exhausted
        | exhausted => exact fun _ => halts outcome

end Haxe.Source.Unserializer
