import Mathlib.Tactic.SplitIfs
import Haxe.Source.Std.Unserializer

/-!
# The positions of an unserializer

Every step moves on, except for a string of a negative length. So a run moves back exactly if it
consumes such a token.
-/

namespace Haxe.Source.Unserializer

open Theory.InterruptedRuns DynamicValues

variable {F C E : Type} {buf : List Char}

/-- At the position stands a string whose length is negative. -/
def Backward (buf : List Char) (p : Int) : Prop :=
  charAt buf p = some 'y' ∧ charAt buf (digitsAt buf (p + 1)).2 = some ':' ∧
    (digitsAt buf (p + 1)).1 < 0

instance (buf : List Char) (p : Int) : Decidable (Backward buf p) :=
  inferInstanceAs (Decidable (_ ∧ _ ∧ _))

/-- The run never moved back, and every token that it consumed moved it on. -/
def Straight (s : State F C E) : Prop :=
  s.moves.Pairwise (fun later earlier => earlier ≤ later) ∧ ∀ token ∈ s.consumed, token.1 < token.2

/-- The latest move is to where the run is. -/
def Coherent (s : State F C E) : Prop := s.moves.head? = some s.pos

/-- What any part of a run leaves: it is straight exactly if no token moved it back. -/
structure Extends (buf : List Char) (s s' : State F C E) : Prop where
  coherent : Coherent s'
  moves : s.moves <:+ s'.moves
  consumed : ∃ tokens, s'.consumed = tokens ++ s.consumed ∧
    (Straight s' ↔ Straight s ∧ ∀ token ∈ tokens, ¬Backward buf token.1)

def Logged (buf : List Char) (s s' : State F C E) : Prop := Coherent s → Extends buf s s'

theorem Logged.refl (s : State F C E) : Logged buf s s :=
  fun coherent => ⟨coherent, List.suffix_rfl, [], rfl, by simp⟩

theorem Logged.trans {s s' s'' : State F C E} (first : Logged buf s s')
    (second : Logged buf s' s'') : Logged buf s s'' := by
  intro coherent
  obtain ⟨coherent', moves, tokens, consumed, straight⟩ := first coherent
  obtain ⟨coherent'', moves', tokens', consumed', straight'⟩ := second coherent'
  refine ⟨coherent'', moves.trans moves', tokens' ++ tokens, ?_, ?_⟩
  · rw [consumed', consumed, List.append_assoc]
  · rw [straight', straight, List.forall_mem_append, and_assoc, And.comm (a := ∀ token ∈ tokens, _)]

theorem Extends.straight_back {s s' : State F C E} (extends_ : Extends buf s s')
    (straight : Straight s') : Straight s := by
  obtain ⟨-, -, tokens, -, iff⟩ := extends_
  exact (iff.mp straight).1

/-- A position that a straight run was at lies behind. -/
theorem Extends.le_pos {s s' : State F C E} (extends_ : Extends buf s s') (straight : Straight s')
    {p : Int} (mem : p ∈ s.moves) : p ≤ s'.pos := by
  have mem' : p ∈ s'.moves := extends_.moves.subset mem
  have head := extends_.coherent
  unfold Coherent at head
  obtain ⟨rest, moves⟩ := List.head?_eq_some_iff.mp head
  rw [moves] at mem'
  rcases List.mem_cons.mp mem' with rfl | older
  · exact Int.le_refl _
  · have sorted := straight.1
    rw [moves] at sorted
    exact (List.pairwise_cons.mp sorted).1 p older

theorem Coherent.pos_mem {s : State F C E} (coherent : Coherent s) : s.pos ∈ s.moves :=
  List.mem_of_mem_head? coherent

theorem Coherent.moveTo (s : State F C E) (p : Int) : Coherent (s.moveTo p) := rfl

/-- A move is straight exactly if it does not lead back. -/
theorem straight_moveTo {s : State F C E} (coherent : Coherent s) (p : Int) :
    Straight (s.moveTo p) ↔ Straight s ∧ s.pos ≤ p := by
  unfold Straight State.moveTo
  dsimp only
  rw [List.pairwise_cons, and_assoc]
  constructor
  · rintro ⟨least, sorted, tokens⟩
    exact ⟨⟨sorted, tokens⟩, least _ coherent.pos_mem⟩
  · rintro ⟨⟨sorted, tokens⟩, least⟩
    refine ⟨?_, sorted, tokens⟩
    intro q mem
    obtain ⟨rest, moves⟩ := List.head?_eq_some_iff.mp coherent
    rw [moves] at mem sorted
    rcases List.mem_cons.mp mem with rfl | older
    · exact least
    · exact Int.le_trans ((List.pairwise_cons.mp sorted).1 q older) least

theorem logged_moveTo (s : State F C E) {p : Int} (on : s.pos ≤ p) :
    Logged buf s (s.moveTo p) := by
  intro coherent
  refine ⟨.moveTo s p, List.suffix_cons _ _, [], rfl, ?_⟩
  rw [straight_moveTo coherent]
  simp [on]

/-- A step that leaves the position and what is recorded of the run. -/
theorem logged_of_same {s s' : State F C E} (pos : s'.pos = s.pos) (moves : s'.moves = s.moves)
    (consumed : s'.consumed = s.consumed) : Logged buf s s' := by
  intro coherent
  unfold Coherent at coherent
  refine ⟨?_, ?_, [], ?_, ?_⟩
  · unfold Coherent
    rw [pos, moves, coherent]
  · exact moves ▸ List.suffix_rfl
  · exact consumed
  · unfold Straight
    rw [moves, consumed]
    simp

theorem digits_le (fpos pos k : Int) (negative : Bool) :
    pos ≤ (digits buf fpos pos k negative).2.2 := by
  fun_induction digits buf fpos pos k negative with
  | case1 pos k negative at_ => exact Int.le_refl pos
  | case2 pos k negative at_ moved => exact Int.le_refl pos
  | case3 pos k negative at_ first ih => omega
  | case4 pos k negative c at_ minus other => exact Int.le_refl pos
  | case5 pos k negative c at_ minus digit ih => omega

theorem digitsAt_le (pos : Int) : pos ≤ (digitsAt buf pos).2 := digits_le pos pos 0 false

theorem floatEnd_le (pos : Int) : pos ≤ floatEnd buf pos := by
  fun_induction floatEnd buf pos with
  | case1 pos at_ => exact Int.le_refl pos
  | case2 pos c at_ part ih => omega
  | case3 pos c at_ other => exact Int.le_refl pos

section

variable {α : Type}

theorem keeps_pure (a : α) : Keeps (Logged buf) (pure a : Reading F C E α) :=
  Keeps.of_same Logged.refl fun _ => rfl

theorem keeps_throw (text : String) : Keeps (Logged buf) (throwMessage text : Reading F C E α) :=
  Keeps.of_same Logged.refl fun _ => rfl

theorem keeps_get : Keeps (Logged buf) (Run.get : Reading F C E (State F C E)) :=
  Keeps.of_same Logged.refl fun _ => rfl

theorem keeps_exhaust : Keeps (Logged buf) (Run.exhaust : Reading F C E α) :=
  Keeps.of_same Logged.refl fun _ => rfl

theorem keeps_bind {β : Type} {r : Reading F C E α} {f : α → Reading F C E β}
    (first : Keeps (Logged buf) r) (second : ∀ a, Keeps (Logged buf) (f a)) :
    Keeps (Logged buf) (r >>= f) := @Keeps.bind _ _ _ _ (Logged buf) Logged.trans _ _ first second

/-- What is done after a look at the state. -/
theorem keeps_look {f : State F C E → Reading F C E α}
    (step : ∀ s, Logged buf s (f s s).2) : Keeps (Logged buf) (Run.get >>= f) := step

theorem keeps_update (address : Nat) (f : Cell F C E → Cell F C E) :
    Keeps (Logged buf) (Run.modify (State.update address f) : Reading F C E Unit) :=
  Keeps.modify fun _ => logged_of_same rfl rfl rfl

theorem keeps_advance : Keeps (Logged buf) (advance : Reading F C E Unit) :=
  Keeps.modify fun s => logged_moveTo s (by omega)

theorem keeps_next : Keeps (Logged buf) (next buf : Reading F C E (Option Char)) :=
  keeps_look fun s => logged_moveTo s (by omega)

theorem keeps_readDigits : Keeps (Logged buf) (readDigits buf : Reading F C E Int) :=
  keeps_look fun s => logged_moveTo s (digitsAt_le s.pos)

theorem keeps_readFloat (platform : Platform F C E) :
    Keeps (Logged buf) (readFloat platform buf) :=
  keeps_look fun s => logged_moveTo s (floatEnd_le s.pos)

theorem keeps_allocateCached (cell : Cell F C E) :
    Keeps (Logged buf) (allocateCached cell : Reading F C E Nat) :=
  keeps_look fun _ => logged_of_same rfl rfl rfl

theorem keeps_cacheValue (v : Value F C E) : Keeps (Logged buf) (cacheValue v) := by
  intro s
  exact logged_of_same rfl rfl rfl

end

variable {read : Reading F C E (Value F C E)} {platform : Platform F C E}

theorem keeps_unserializeObject (reads : Keeps (Logged buf) read) (o fuel : Nat) :
    Keeps (Logged buf) (unserializeObject buf read o fuel) := by
  induction fuel with
  | zero => exact keeps_exhaust
  | succ fuel ih =>
    unfold unserializeObject
    apply keeps_bind keeps_get
    intro s
    split_ifs with beyond close
    · exact keeps_throw _
    · exact keeps_advance
    · apply keeps_bind reads
      intro k
      cases k with
      | string text =>
        apply keeps_bind reads
        intro v
        exact keeps_bind (keeps_update o _) fun _ => ih
      | _ => exact keeps_throw _

theorem keeps_readArgs (reads : Keeps (Logged buf) read) (nargs : Nat) :
    Keeps (Logged buf) (readArgs read nargs) := by
  induction nargs with
  | zero => exact keeps_pure _
  | succ nargs ih =>
    exact keeps_bind reads fun arg => keeps_bind ih fun rest => keeps_pure _

theorem keeps_createEnum (edecl : E) (tag : Value F C E) (args : List (Value F C E)) :
    Keeps (Logged buf) (createEnum platform edecl tag args) := by
  unfold createEnum
  split
  · exact keeps_throw _
  · exact keeps_look fun _ => logged_of_same rfl rfl rfl

theorem keeps_unserializeEnum (reads : Keeps (Logged buf) read) (edecl : E) (tag : Value F C E) :
    Keeps (Logged buf) (unserializeEnum platform buf read edecl tag) := by
  apply keeps_bind keeps_next
  intro c
  split_ifs with colon
  · exact keeps_throw _
  · apply keeps_bind keeps_readDigits
    intro nargs
    exact keeps_bind (keeps_readArgs reads _) fun args => keeps_createEnum edecl tag args

theorem keeps_readArray (reads : Keeps (Logged buf) read) (a fuel : Nat) :
    Keeps (Logged buf) (readArray buf read a fuel) := by
  induction fuel with
  | zero => exact keeps_exhaust
  | succ fuel ih =>
    unfold readArray
    apply keeps_bind keeps_get
    intro s
    split_ifs with close nulls
    · exact keeps_advance
    · apply keeps_bind keeps_advance
      intro _
      apply keeps_bind keeps_readDigits
      intro n
      exact keeps_bind (keeps_update a _) fun _ => ih
    · apply keeps_bind reads
      intro v
      exact keeps_bind (keeps_update a _) fun _ => ih

theorem keeps_readList (reads : Keeps (Logged buf) read) (l fuel : Nat) :
    Keeps (Logged buf) (readList buf read l fuel) := by
  induction fuel with
  | zero => exact keeps_exhaust
  | succ fuel ih =>
    unfold readList
    apply keeps_bind keeps_get
    intro s
    split_ifs with close
    · exact keeps_advance
    · apply keeps_bind reads
      intro v
      exact keeps_bind (keeps_update l _) fun _ => ih

theorem keeps_readMap (reads : Keeps (Logged buf) read) (h fuel : Nat) :
    Keeps (Logged buf) (readMap buf read h fuel) := by
  induction fuel with
  | zero => exact keeps_exhaust
  | succ fuel ih =>
    unfold readMap
    apply keeps_bind keeps_get
    intro s
    split_ifs with close
    · exact keeps_advance
    · apply keeps_bind reads
      intro k
      apply keeps_bind reads
      intro v
      exact keeps_bind (keeps_update h _) fun _ => ih

theorem keeps_readIntMap (reads : Keeps (Logged buf) read) (h fuel : Nat) :
    Keeps (Logged buf) (readIntMap buf read h fuel) := by
  induction fuel with
  | zero => exact keeps_exhaust
  | succ fuel ih =>
    unfold readIntMap
    apply keeps_bind keeps_next
    intro c
    split_ifs with colon other
    · apply keeps_bind keeps_readDigits
      intro i
      apply keeps_bind reads
      intro v
      exact keeps_bind (keeps_update h _) fun _ => ih
    · exact keeps_throw _
    · exact keeps_pure _

theorem keeps_readBytes : Keeps (Logged buf) (readBytes buf : Reading F C E (Value F C E)) := by
  apply keeps_bind keeps_readDigits
  intro len
  apply keeps_bind keeps_next
  intro c
  apply keeps_look
  intro s
  split_ifs with wrong negative
  · exact keeps_throw _ s
  · exact keeps_throw _ s
  · have moves : Keeps (Logged buf) (Run.modify fun s => s.moveTo (s.pos + len) :
        Reading F C E Unit) := Keeps.modify fun s => logged_moveTo s (by omega)
    exact (keeps_bind moves fun _ =>
      keeps_bind (keeps_allocateCached _) fun _ => keeps_pure _) s

theorem keeps_readDate : Keeps (Logged buf) (readDate platform buf) := by
  apply keeps_look
  intro s
  split_ifs with compatible
  · cases platform.dateFromString (substr buf s.pos 19) with
    | none => exact keeps_throw _ s
    | some d =>
      have on : s.pos ≤ s.pos + 19 := by omega
      exact (logged_moveTo s on).trans (logged_of_same rfl rfl rfl)
  · exact keeps_bind (keeps_readFloat platform) (fun d => fun s =>
      (logged_of_same rfl rfl rfl)) s

theorem keeps_readReference :
    Keeps (Logged buf) (readReference buf : Reading F C E (Value F C E)) := by
  apply keeps_bind keeps_readDigits
  intro n
  apply keeps_look
  intro s
  split_ifs with negative
  · exact keeps_throw _ s
  · cases s.cache[n.toNat]? with
    | none => exact keeps_throw _ s
    | some v => exact keeps_pure v s

theorem keeps_readStringReference :
    Keeps (Logged buf) (readStringReference buf : Reading F C E (Value F C E)) := by
  apply keeps_bind keeps_readDigits
  intro n
  apply keeps_look
  intro s
  split_ifs with negative
  · exact keeps_throw _ s
  · cases s.scache[n.toNat]? with
    | none => exact keeps_throw _ s
    | some text => exact keeps_pure _ s

theorem keeps_readClass (reads : Keeps (Logged buf) read) :
    Keeps (Logged buf) (readClass platform read) := by
  apply keeps_bind reads
  intro name
  apply keeps_look
  intro s
  cases platform.resolveClass name with
  | none => exact keeps_throw _ s
  | some cl => exact keeps_pure cl s

theorem keeps_readEnum (reads : Keeps (Logged buf) read) :
    Keeps (Logged buf) (readEnum platform read) := by
  apply keeps_bind reads
  intro name
  apply keeps_look
  intro s
  cases platform.resolveEnum name with
  | none => exact keeps_throw _ s
  | some edecl => exact keeps_pure _ s

theorem keeps_unserializeIndexed (reads : Keeps (Logged buf) read) (e : Value F C E × E)
    (index : Int) : Keeps (Logged buf) (unserializeIndexed platform buf read e index) := by
  apply keeps_look
  intro s
  cases if index < 0 then none else (platform.constructs e.2)[index.toNat]? with
  | none => exact keeps_throw _ s
  | some tag =>
    exact keeps_bind (keeps_unserializeEnum reads e.2 _) (fun v => keeps_cacheValue v) s

theorem keeps_readIndexedEnum (reads : Keeps (Logged buf) read) :
    Keeps (Logged buf) (readIndexedEnum platform buf read) := by
  apply keeps_bind (keeps_readEnum reads)
  intro e
  apply keeps_bind keeps_advance
  intro _
  exact keeps_bind keeps_readDigits fun index => keeps_unserializeIndexed reads e index

theorem keeps_readInto {loop : Nat → Reading F C E Unit} (cell : Cell F C E)
    (loops : ∀ address, Keeps (Logged buf) (loop address)) :
    Keeps (Logged buf) (readInto cell loop) :=
  keeps_bind (keeps_allocateCached cell) fun address =>
    keeps_bind (loops address) fun _ => keeps_pure _

/-- Every token but a string keeps to the rule, if its parts do. -/
theorem keeps_unserializeRest (reads : Keeps (Logged buf) read) {fuel : Nat} {c : Char}
    (other : c ≠ 'y') {rest : Reading F C E (Value F C E)}
    (begins : unserializeRest platform buf read fuel c = some rest) :
    Keeps (Logged buf) rest := by
  unfold unserializeRest at begins
  split at begins <;> first | exact absurd rfl other | cases begins
  · exact keeps_pure _
  · exact keeps_pure _
  · exact keeps_pure _
  · exact keeps_pure _
  · exact keeps_bind keeps_readDigits fun _ => keeps_pure _
  · exact keeps_bind (keeps_readFloat platform) fun _ => keeps_pure _
  · exact keeps_pure _
  · exact keeps_pure _
  · exact keeps_pure _
  · exact keeps_readInto _ fun a => keeps_readArray reads a fuel
  · exact keeps_readInto _ fun o => keeps_unserializeObject reads o fuel
  · exact keeps_readReference
  · exact keeps_readStringReference
  · exact keeps_bind reads fun _ => Keeps.of_same Logged.refl fun _ => rfl
  · exact keeps_bind (keeps_readClass reads) fun _ =>
      keeps_readInto _ fun o => keeps_unserializeObject reads o fuel
  · exact keeps_bind (keeps_readEnum reads) fun e => keeps_bind reads fun tag =>
      keeps_bind (keeps_unserializeEnum reads e.2 tag) fun v => keeps_cacheValue v
  · exact keeps_readIndexedEnum reads
  · exact keeps_readInto _ fun l => keeps_readList reads l fuel
  · exact keeps_readInto _ fun h => keeps_readMap reads h fuel
  · exact keeps_readInto _ fun h => keeps_readIntMap reads h fuel
  · exact keeps_readInto _ fun h => keeps_readMap reads h fuel
  · exact keeps_readDate
  · exact keeps_readBytes
  · exact keeps_bind (keeps_readClass reads) fun _ =>
      keeps_bind (keeps_allocateCached _) fun _ => keeps_throw _
  · exact keeps_bind (keeps_readClass reads) fun _ => keeps_pure _
  · exact keeps_bind (keeps_readEnum reads) fun _ => keeps_pure _

/-- The state of `readString` behind the colon. -/
def behindColon (buf : List Char) (s : State F C E) : State F C E :=
  (s.moveTo (digitsAt buf s.pos).2).moveTo ((digitsAt buf s.pos).2 + 1)

theorem readString_throws {s : State F C E}
    (wrong : charAt buf (digitsAt buf s.pos).2 ≠ some ':' ∨
      buf.length - ((digitsAt buf s.pos).2 + 1) < (digitsAt buf s.pos).1) :
    readString platform buf s = (.thrown (.message "Invalid string length"), behindColon buf s) := by
  change (if charAt buf (digitsAt buf s.pos).2 ≠ some ':' ∨
      buf.length - ((digitsAt buf s.pos).2 + 1) < (digitsAt buf s.pos).1 then _ else _ : Reading ..)
    (behindColon buf s) = _
  rw [if_pos wrong]
  rfl

theorem readString_returns {s : State F C E}
    (right : ¬(charAt buf (digitsAt buf s.pos).2 ≠ some ':' ∨
      buf.length - ((digitsAt buf s.pos).2 + 1) < (digitsAt buf s.pos).1)) :
    ∃ text, readString platform buf s = (.returned (.string text),
      ((behindColon buf s).moveTo
        ((digitsAt buf s.pos).2 + 1 + (digitsAt buf s.pos).1)).scached text) := by
  refine ⟨platform.urlDecode (substr buf ((digitsAt buf s.pos).2 + 1) (digitsAt buf s.pos).1), ?_⟩
  change (if charAt buf (digitsAt buf s.pos).2 ≠ some ':' ∨
      buf.length - ((digitsAt buf s.pos).2 + 1) < (digitsAt buf s.pos).1 then _ else _ : Reading ..)
    (behindColon buf s) = _
  rw [if_neg right]
  rfl

theorem logged_behindColon (s : State F C E) : Logged buf s (behindColon buf s) :=
  (logged_moveTo s (digitsAt_le s.pos)).trans (logged_moveTo _ (Int.le_of_lt (Int.lt_succ _)))

theorem unserialize_invalid {fuel : Nat} {s : State F C E}
    (invalid : (charAt buf s.pos).bind
      (unserializeRest platform buf (unserialize platform buf fuel) fuel) = none) :
    unserialize platform buf (fuel + 1) s = (.thrown (.message (invalidChar buf s.pos)), s) := by
  rw [unserialize, Run.get_bind, invalid]
  rfl

/-- `return` behind a token that is consumed. -/
def consumed (start : Int) (v : Value F C E) : Reading F C E (Value F C E) := do
  Run.modify fun s => s.consume start
  return v

theorem unserialize_token {fuel : Nat} {s : State F C E} {rest : Reading F C E (Value F C E)}
    (begins : (charAt buf s.pos).bind
      (unserializeRest platform buf (unserialize platform buf fuel) fuel) = some rest) :
    unserialize platform buf (fuel + 1) s =
      (rest >>= consumed s.pos) (s.moveTo (s.pos + 1)) := by
  rw [unserialize, Run.get_bind, begins]
  rfl

theorem straight_consume (s : State F C E) (start : Int) :
    Straight (s.consume start) ↔ Straight s ∧ start < s.pos := by
  unfold Straight State.consume
  dsimp only
  rw [List.forall_mem_cons, and_comm (a := start < s.pos), and_assoc]

/-- A token that does not move back is consumed. -/
theorem consumed_extends {s s' : State F C E} (extends_ : Extends buf (s.moveTo (s.pos + 1)) s')
    (coherent : Coherent s) (forward : ¬Backward buf s.pos) :
    Extends buf s (s'.consume s.pos) := by
  obtain ⟨tokens, consumed, straight⟩ := extends_.consumed
  refine ⟨extends_.coherent, (List.suffix_cons _ _).trans extends_.moves,
    (s.pos, s'.pos) :: tokens, ?_, ?_⟩
  · exact congrArg _ consumed
  · rw [straight_consume, List.forall_mem_cons]
    have moved := straight_moveTo coherent (s.pos + 1)
    constructor
    · rintro ⟨straight', -⟩
      have both := straight.mp straight'
      exact ⟨(moved.mp both.1).1, forward, both.2⟩
    · rintro ⟨straight₀, -, clean⟩
      have straight' := straight.mpr ⟨moved.mpr ⟨straight₀, by omega⟩, clean⟩
      have on := extends_.le_pos straight' (Coherent.moveTo s (s.pos + 1)).pos_mem
      have at_ : (s.moveTo (s.pos + 1)).pos = s.pos + 1 := rfl
      exact ⟨straight', by omega⟩

/-- A string is consumed, and its length tells whether it moves back. -/
theorem string_extends {s : State F C E} (coherent : Coherent s)
    (at_ : charAt buf s.pos = some 'y')
    (right : ¬(charAt buf (digitsAt buf (s.pos + 1)).2 ≠ some ':' ∨
      buf.length - ((digitsAt buf (s.pos + 1)).2 + 1) < (digitsAt buf (s.pos + 1)).1))
    (text : List Char) :
    Extends buf s ((((behindColon buf (s.moveTo (s.pos + 1))).moveTo
      ((digitsAt buf (s.pos + 1)).2 + 1 + (digitsAt buf (s.pos + 1)).1)).scached text).consume
        s.pos) := by
  have on := @digitsAt_le buf (s.pos + 1)
  have before : Extends buf s (behindColon buf (s.moveTo (s.pos + 1))) :=
    Logged.trans (logged_moveTo s (by omega)) (logged_behindColon _) coherent
  have straight : Straight (behindColon buf (s.moveTo (s.pos + 1))) ↔ Straight s := by
    obtain ⟨tokens, consumed, straight⟩ := before.consumed
    obtain rfl : tokens = [] := List.self_eq_append_left.mp consumed
    simpa using straight
  rw [not_or] at right
  have colon := Decidable.not_not.mp right.1
  generalize behindColon_is : behindColon buf (s.moveTo (s.pos + 1)) = b at *
  have pos : b.pos = (digitsAt buf (s.pos + 1)).2 + 1 := by
    rw [← behindColon_is]
    rfl
  have consumed : b.consumed = s.consumed := by
    rw [← behindColon_is]
    rfl
  have backward : Backward buf s.pos ↔ (digitsAt buf (s.pos + 1)).1 < 0 :=
    ⟨fun back => back.2.2, fun negative => ⟨at_, colon, negative⟩⟩
  generalize (digitsAt buf (s.pos + 1)).1 = len at *
  generalize (digitsAt buf (s.pos + 1)).2 = q at *
  refine ⟨.moveTo b _, before.moves.trans (List.suffix_cons _ _), [(s.pos, q + 1 + len)], ?_, ?_⟩
  · exact congrArg _ consumed
  · have moved := straight_moveTo before.coherent (q + 1 + len)
    have same : Straight ((b.moveTo (q + 1 + len)).scached text) ↔
        Straight (b.moveTo (q + 1 + len)) := Iff.rfl
    have at_end : ((b.moveTo (q + 1 + len)).scached text).pos = q + 1 + len := rfl
    rw [straight_consume, same, moved, straight, List.forall_mem_singleton, backward, pos, at_end]
    constructor
    · rintro ⟨⟨straight', least⟩, -⟩
      exact ⟨straight', by omega⟩
    · rintro ⟨straight', forward⟩
      exact ⟨⟨straight', by omega⟩, by omega⟩

theorem unserialize_logged (fuel : Nat) : Keeps (Logged buf) (unserialize platform buf fuel) := by
  induction fuel with
  | zero => exact keeps_exhaust
  | succ fuel ih =>
    intro s coherent
    cases begins : (charAt buf s.pos).bind
        (unserializeRest platform buf (unserialize platform buf fuel) fuel) with
    | none =>
      rw [unserialize_invalid begins]
      exact Logged.refl s coherent
    | some rest =>
      rw [unserialize_token begins, Run.bind_apply]
      obtain ⟨c, at_, token⟩ := Option.bind_eq_some_iff.mp begins
      have started : Logged buf s (s.moveTo (s.pos + 1)) := logged_moveTo s (by omega)
      by_cases string : c = 'y'
      · subst string
        obtain rfl : readString platform buf = rest := Option.some.inj token
        have at_ : charAt buf s.pos = some 'y' := at_
        by_cases wrong : charAt buf (digitsAt buf (s.pos + 1)).2 ≠ some ':' ∨
            buf.length - ((digitsAt buf (s.pos + 1)).2 + 1) < (digitsAt buf (s.pos + 1)).1
        · rw [@readString_throws F C E buf platform (s.moveTo (s.pos + 1)) wrong]
          exact started.trans (logged_behindColon _) coherent
        · obtain ⟨text, returns⟩ :=
            @readString_returns F C E buf platform (s.moveTo (s.pos + 1)) wrong
          rw [returns]
          exact string_extends coherent at_ wrong text
      · have kept := keeps_unserializeRest ih string token (s.moveTo (s.pos + 1))
        cases (rest (s.moveTo (s.pos + 1))).1 with
        | returned v =>
          apply consumed_extends (kept (.moveTo s _)) coherent
          rintro ⟨same, -⟩
          exact string (Option.some.inj (at_.symm.trans same))
        | thrown e => exact started.trans kept coherent
        | exhausted => exact started.trans kept coherent

end Haxe.Source.Unserializer
