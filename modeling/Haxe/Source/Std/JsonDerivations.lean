import Haxe.Source.Std.JsonStrings

/-!
# What a text that is read stands for

Where `JsonParser` returns a value, the text in front of the position is a text of the grammar with
the lenient tokens, and the value has its elements and its members in their order.
-/

namespace Haxe.Source.Json

open Theory Theory.InterruptedRuns
open Theory.JsonGrammar hiding Stops

variable {F : Type}

section Meaning

mutual

/-- The values of a tree: its elements and its members in the order of the text, a member with the
name of an earlier one in its place. What a string stands for is left open. -/
def Denotes (p : Platform F) : Tree → Value F → Prop
  | .literal word, v =>
    (word = ascii "true" ∧ v = .bool true) ∨ (word = ascii "false" ∧ v = .bool false) ∨
      (word = ascii "null" ∧ v = .null)
  | .number text, v => v = numberValue p text (text.contains '.'.toNat)
  | .string _, v => ∃ s, v = .string s
  | .array items, v => ∃ vs, DenoteItems p items vs ∧ v = .array vs
  | .object members, v =>
    ∃ fields, DenoteMembers p members fields ∧
      v = .object (fields.foldl (fun obj field => setField obj field.1 field.2) [])

def DenoteItems (p : Platform F) : List Tree → List (Value F) → Prop
  | [], vs => vs = []
  | tree :: rest, vs => ∃ v more, Denotes p tree v ∧ DenoteItems p rest more ∧ vs = v :: more

def DenoteMembers (p : Platform F) :
    List (List Nat × Tree) → List (List Nat × Value F) → Prop
  | [], fields => fields = []
  | (_, tree) :: rest, fields =>
    ∃ name v more, Denotes p tree v ∧ DenoteMembers p rest more ∧ fields = (name, v) :: more

end

end Meaning

section States

/-- What follows an element: spaces, and nothing or a comma with others. -/
def After {α : Type} (spells : List α → List Nat → Prop) (rest : List α) (s : List Nat) : Prop :=
  ∃ behind more, Spaces behind ∧ Closes spells rest more ∧ s = behind ++ more

/-- What follows in a list, by what is known of a comma. -/
def Remains {α : Type} (spells : List α → List Nat → Prop) (comma : Option Bool) (items : List α)
    (s : List Nat) : Prop :=
  match comma with
  | none => spells items s
  | some false => items ≠ [] ∧ spells items s
  | some true => After spells items s

/-- A space in front of what is spelled. -/
def Spaced {α : Type} (spells : List α → List Nat → Prop) : Prop :=
  ∀ {items s c}, Space c → spells items s → spells items (c :: s)

theorem spaces_cons {c : Nat} {ws : List Nat} (space : Space c) (spaces : Spaces ws) :
    Spaces (c :: ws) :=
  List.forall_mem_cons.mpr ⟨space, spaces⟩

theorem spaced_items : Spaced SpellsItems := by
  intro items s c space spells
  cases items with
  | nil => exact spaces_cons space spells
  | cons v rest =>
    obtain ⟨before, t, behind, more, spaces, spelled, spaces', closes, rfl⟩ := spells
    exact ⟨c :: before, t, behind, more, spaces_cons space spaces, spelled, spaces', closes, rfl⟩

theorem spaced_members : Spaced SpellsMembers := by
  intro members s c space spells
  cases members with
  | nil => exact spaces_cons space spells
  | cons member rest =>
    obtain ⟨name, v⟩ := member
    obtain ⟨before, gap, pad, t, behind, more, spaces, others, rest, spelled, spaces', closes,
      rfl⟩ := spells
    exact ⟨c :: before, gap, pad, t, behind, more, spaces_cons space spaces, others, rest, spelled,
      spaces', closes, rfl⟩

theorem Remains.space {α : Type} {spells : List α → List Nat → Prop} (spaced : Spaced spells)
    {comma : Option Bool} {items : List α} {s : List Nat} {c : Nat} (space : Space c)
    (remains : Remains spells comma items s) : Remains spells comma items (c :: s) := by
  cases comma with
  | none => exact spaced space remains
  | some comma =>
    cases comma with
    | false => exact ⟨remains.1, spaced space remains.2⟩
    | true =>
      obtain ⟨behind, more, spaces, closes, rfl⟩ := remains
      exact ⟨c :: behind, more, spaces_cons space spaces, closes, rfl⟩

theorem remains_close {α : Type} {spells : List α → List Nat → Prop} (empty : spells [] [])
    {comma : Option Bool} (complete : comma ≠ some false) : Remains spells comma [] [] := by
  cases comma with
  | none => exact empty
  | some comma =>
    cases comma with
    | false => exact absurd rfl complete
    | true => exact ⟨[], [], List.forall_mem_nil _, Or.inl ⟨rfl, rfl⟩, rfl⟩

theorem remains_comma {α : Type} {spells : List α → List Nat → Prop} {items : List α}
    {s : List Nat} (remains : Remains spells (some false) items s) :
    Remains spells (some true) items (44 :: s) :=
  ⟨[], 44 :: s, List.forall_mem_nil _, Or.inr ⟨remains.1, s, remains.2, rfl⟩, rfl⟩

/-- A list that is not empty, in front of a comma or behind one. -/
theorem remains_of_spells {α : Type} {spells : List α → List Nat → Prop} {comma : Option Bool}
    {items : List α} {s : List Nat} (spelled : spells items s) (nonempty : items ≠ [])
    (expected : comma ≠ some true) : Remains spells comma items s := by
  cases comma with
  | none => exact spelled
  | some comma =>
    cases comma with
    | false => exact ⟨nonempty, spelled⟩
    | true => exact absurd rfl expected

/-- What follows the name of a member. -/
def SpellsNamed (v : Tree) (rest : List (List Nat × Tree)) (s : List Nat) : Prop :=
  ∃ gap pad t after, Spaces gap ∧ Spaces pad ∧ Spells v t ∧ After SpellsMembers rest after ∧
    s = gap ++ (58 :: (pad ++ (t ++ after)))

end States

section Sound

variable {p : Platform F} {str : List Nat}

/-- Where a call of `parseRec` starts and ends. -/
def ReadsValue (p : Platform F) (str : List Nat) (pos : Nat) (v : Value F) (end_ : Nat) : Prop :=
  ∃ ws t tree rest, Spaces ws ∧ Spells tree t ∧ All (lenient p) tree ∧ Denotes p tree v ∧
    str.drop pos = ws ++ (t ++ rest) ∧ end_ = pos + ws.length + t.length

def ReadsItems (p : Platform F) (str : List Nat) (pos : Nat) (arr : List (Value F))
    (comma : Option Bool) (v : Value F) (end_ : Nat) : Prop :=
  ∃ items s vs rest, Remains SpellsItems comma items s ∧ AllItems (lenient p) items ∧
    DenoteItems p items vs ∧ v = .array (arr ++ vs) ∧ str.drop pos = s ++ 93 :: rest ∧
    end_ = pos + s.length + 1

def ReadsMembers (p : Platform F) (str : List Nat) (pos : Nat) (obj : List (List Nat × Value F))
    (comma : Option Bool) (v : Value F) (end_ : Nat) : Prop :=
  ∃ members s fields rest, Remains SpellsMembers comma members s ∧
    AllMembers (lenient p) members ∧ DenoteMembers p members fields ∧
    v = .object (fields.foldl (fun obj field => setField obj field.1 field.2) obj) ∧
    str.drop pos = s ++ 125 :: rest ∧ end_ = pos + s.length + 1

/-- Behind a name. -/
def ReadsNamed (p : Platform F) (str : List Nat) (pos : Nat) (obj : List (List Nat × Value F))
    (name : List Nat) (v : Value F) (end_ : Nat) : Prop :=
  ∃ tree x members s fields rest, SpellsNamed tree members s ∧ All (lenient p) tree ∧
    Denotes p tree x ∧ AllMembers (lenient p) members ∧ DenoteMembers p members fields ∧
    v = .object (fields.foldl (fun obj field => setField obj field.1 field.2)
      (setField obj name x)) ∧
    str.drop pos = s ++ 125 :: rest ∧ end_ = pos + s.length + 1

/-- What the calls with some fuel read. -/
structure Sound (p : Platform F) (str : List Nat) (fuel : Nat) : Prop where
  value : ∀ {pos v end_}, parseRec p str fuel pos = .returned (v, end_) →
    ReadsValue p str pos v end_
  items : ∀ {pos arr comma v end_}, parseArray p str fuel pos arr comma = .returned (v, end_) →
    ReadsItems p str pos arr comma v end_
  members : ∀ {pos obj comma v end_},
    parseObject p str fuel pos obj none comma = .returned (v, end_) →
    ReadsMembers p str pos obj comma v end_
  named : ∀ {pos obj name comma v end_}, comma ≠ some true →
    parseObject p str fuel pos obj (some name) comma = .returned (v, end_) →
    ReadsNamed p str pos obj name v end_

theorem bind_returned {α β : Type} {r : Reading α} {k : α → Reading β} {b : β}
    (done : r.bind k = .returned b) : ∃ a, r = .returned a ∧ k a = .returned b := by
  cases r with
  | returned a => exact ⟨a, rfl, done⟩
  | thrown e => cases done
  | exhausted => cases done

theorem not_invalidChar {α : Type} {pos : Nat} {a : α} :
    invalidChar p str pos ≠ (.returned a : Reading α) := by
  intro same
  cases same

theorem step_last {s : NumberState} {c : Option Nat} (last : s.step c = .last) :
    s.digit = true := by
  unfold NumberState.step at last
  cases c with
  | none =>
    simp only [] at last
    split at last
    · assumption
    · cases last
  | some c =>
    simp only [] at last
    repeat' split at last
    all_goals first
      | assumption
      | cases last

theorem step_point_flag {s s' : NumberState} {c : Nat} (next : s.step (some c) = .next s') :
    s'.point = (s.point || c == '.'.toNat) := by
  have other : ∀ {c : Nat}, c ≠ 46 → (c == '.'.toNat) = false :=
    fun no => beq_eq_false_iff_ne.mpr no
  obtain rfl | digit | rfl | ⟨mark, -, -, no⟩ | ⟨sign, -, -, no⟩ | ⟨no, -⟩ := char_cases c
  · rw [step_zero] at next
    rw [other (by decide), Bool.or_false]
    repeat' split at next
    all_goals first
      | cases next; rfl
      | cases next
  · rw [step_digit s digit] at next
    rw [other (by omega), Bool.or_false]
    split at next
    · cases next
    · cases next
      rfl
  · rw [step_point] at next
    split at next
    · cases next
    · cases next
      exact (Bool.or_true _).symm
  · rw [step_exponent s mark] at next
    rw [other no, Bool.or_false]
    split at next
    · cases next
    · cases next
      rfl
  · rw [step_sign s sign] at next
    rw [other no, Bool.or_false]
    split at next
    · cases next
    · cases next
      rfl
  · exact absurd next (stuck_other s no s')

/-- Where a number is read, the automaton accepts its text. -/
theorem run_of_numberLoop {start fuel pos end_ : Nat} {s s' : NumberState}
    (read : numberLoop p str start fuel pos s = .returned (s', end_)) :
    ∃ t rest, str.drop pos = t ++ rest ∧ s.run t = some s' ∧ s'.digit = true ∧
      s'.point = (s.point || t.contains '.'.toNat) ∧ end_ = pos + t.length := by
  induction fuel generalizing pos s with
  | zero => cases read
  | succ fuel ih =>
    rw [numberLoop] at read
    cases step : s.step (p.fastCodeAt str pos) with
    | next s'' =>
      rw [step] at read
      obtain ⟨t, rest, behind, run, digit, point, rfl⟩ := ih read
      cases found : p.fastCodeAt str pos with
      | none =>
        rw [found] at step
        unfold NumberState.step at step
        simp only [] at step
        split at step <;> cases step
      | some c =>
        rw [found] at step
        have char : NumberChar c := by
          by_contra other
          exact stuck_other s other s'' step
        have nonzero : c ≠ 0 := by
          rintro rfl
          unfold NumberChar Digit at char
          omega
        obtain ⟨tail, here⟩ := drop_of_fastCodeAt found (fun _ => nonzero)
        refine ⟨c :: t, rest, ?_, ?_, digit, ?_, ?_⟩
        · rw [here, ← drop_cons here, behind]
          rfl
        · rw [NumberState.run, step]
          exact run
        · rw [point, step_point_flag step, List.contains_cons, Bool.or_assoc, BEq.comm]
        · rw [List.length_cons]
          omega
    | invalid =>
      rw [step] at read
      cases read
    | last =>
      rw [step] at read
      obtain ⟨rfl, rfl⟩ := Prod.mk.inj (Outcome.returned.inj read)
      exact ⟨[], str.drop pos, rfl, rfl, step_last step, (Bool.or_false _).symm, rfl⟩

theorem readsValue_number {fuel pos c end_ : Nat} {rest : List Nat} {v : Value F}
    (here : str.drop pos = c :: rest) (start : isNumberStart c = true)
    (read : parseNumber p str fuel (pos + 1) c = .returned (v, end_)) :
    ReadsValue p str pos v end_ := by
  obtain ⟨⟨s, behind⟩, loop, done⟩ := bind_returned read
  obtain ⟨rfl, rfl⟩ := Prod.mk.inj (Outcome.returned.inj done)
  obtain ⟨t, rest', tail, run, digit, point, rfl⟩ := run_of_numberLoop loop
  have number : LenientNumber (c :: t) := (accepts_iff c t).mp ⟨start, s, run, digit⟩
  have whole : str.drop pos = (c :: t) ++ rest' := by
    rw [here, ← drop_cons here, tail]
    rfl
  have flag : s.point = (c :: t).contains '.'.toNat := by
    have other : c ≠ '.'.toNat := (isNumberStart_other start).2 _ (by decide)
    rw [point, List.contains_cons, beq_eq_false_iff_ne.mpr (Ne.symm other)]
    rfl
  refine ⟨[], c :: t, .number (c :: t), rest', List.forall_mem_nil _, rfl, number, ?_, whole, ?_⟩
  · have part : substr str (pos + 1 - 1) (pos + 1 + t.length - (pos + 1 - 1)) = c :: t := by
      have length : pos + 1 + t.length - (pos + 1 - 1) = (c :: t).length := by
        rw [List.length_cons]
        omega
      rw [length, Nat.add_sub_cancel]
      exact substr_of_drop whole
    show numberValue p _ s.point = _
    rw [part, flag]
  · rw [List.length_nil, List.length_cons]
    omega

theorem readsValue_word {pos end_ c : Nat} {rest word : List Nat} {v v' : Value F}
    (here : str.drop pos = c :: rest) (known : c :: word ∈ words)
    (denotes : Denotes p (.literal (c :: word)) v)
    (read : parseWord p str (pos + 1) word v = .returned (v', end_)) :
    ReadsValue p str pos v' end_ := by
  unfold parseWord at read
  split at read
  case isTrue same =>
    obtain ⟨rfl, rfl⟩ := Prod.mk.inj (Outcome.returned.inj read)
    unfold substr at same
    have split := List.take_append_drop word.length (str.drop (pos + 1))
    rw [same, drop_cons here] at split
    refine ⟨[], c :: word, .literal (c :: word), rest.drop word.length, List.forall_mem_nil _, rfl,
      known, denotes, ?_, ?_⟩
    · rw [here, List.nil_append, List.cons_append, split]
    · rw [List.length_nil, List.length_cons]
      omega
  case isFalse => exact absurd read not_invalidChar

theorem readsValue_string {fuel pos end_ : Nat} {rest : List Nat} {v : Value F}
    (here : str.drop pos = 34 :: rest)
    (read : (parseString p str fuel (pos + 1)).bind
      (fun r => .returned (Value.string r.1, r.2)) = .returned (v, end_)) :
    ReadsValue p str pos v end_ := by
  obtain ⟨⟨text, behind⟩, loop, done⟩ := bind_returned read
  obtain ⟨rfl, rfl⟩ := Prod.mk.inj (Outcome.returned.inj done)
  obtain ⟨t, rest', lenient, tail, rfl⟩ := lenient_of_stringLoop loop
  refine ⟨[], 34 :: t ++ [34], .string t, rest', List.forall_mem_nil _, rfl, lenient, ⟨text, rfl⟩,
    ?_, ?_⟩
  · rw [here, ← drop_cons here, tail]
    simp
  · rw [List.length_nil, List.length_append, List.length_cons, List.length_singleton]
    omega

theorem ReadsValue.space {pos c end_ : Nat} {rest : List Nat} {v : Value F}
    (here : str.drop pos = c :: rest) (space : isSpace c = true)
    (reads : ReadsValue p str (pos + 1) v end_) : ReadsValue p str pos v end_ := by
  obtain ⟨ws, t, tree, rest', spaces, spells, all, denotes, tail, rfl⟩ := reads
  refine ⟨c :: ws, t, tree, rest', spaces_cons ((isSpace_iff c).mp space) spaces, spells, all,
    denotes, ?_, ?_⟩
  · rw [here, ← drop_cons here, tail]
    rfl
  · rw [List.length_cons]
    omega

theorem ReadsItems.value {pos end_ : Nat} {rest : List Nat} {v : Value F}
    (here : str.drop pos = 91 :: rest) (reads : ReadsItems p str (pos + 1) [] none v end_) :
    ReadsValue p str pos v end_ := by
  obtain ⟨items, s, vs, rest', remains, all, denote, rfl, tail, rfl⟩ := reads
  refine ⟨[], 91 :: s ++ [93], .array items, rest', List.forall_mem_nil _, ⟨s, remains, rfl⟩, all,
    ⟨vs, denote, rfl⟩, ?_, ?_⟩
  · rw [here, ← drop_cons here, tail]
    simp
  · rw [List.length_nil, List.length_append, List.length_cons, List.length_singleton]
    omega

theorem ReadsMembers.value {pos end_ : Nat} {rest : List Nat} {v : Value F}
    (here : str.drop pos = 123 :: rest) (reads : ReadsMembers p str (pos + 1) [] none v end_) :
    ReadsValue p str pos v end_ := by
  obtain ⟨members, s, fields, rest', remains, all, denote, rfl, tail, rfl⟩ := reads
  refine ⟨[], 123 :: s ++ [125], .object members, rest', List.forall_mem_nil _, ⟨s, remains, rfl⟩,
    all, ⟨fields, denote, rfl⟩, ?_, ?_⟩
  · rw [here, ← drop_cons here, tail]
    simp
  · rw [List.length_nil, List.length_append, List.length_cons, List.length_singleton]
    omega

theorem space_nonzero {c : Nat} (space : isSpace c = true) : c ≠ 0 := by
  rintro rfl
  exact absurd space (by decide)

theorem readsValue_of_parseRec {fuel pos end_ : Nat} {v : Value F} (sound : Sound p str fuel)
    (read : parseRec p str (fuel + 1) pos = .returned (v, end_)) : ReadsValue p str pos v end_ := by
  rw [parseRec] at read
  cases found : p.fastCodeAt str pos with
  | none =>
    rw [found] at read
    exact absurd read not_invalidChar
  | some c =>
    rw [found] at read
    simp only [] at read
    have here : c ≠ 0 → ∃ rest, str.drop pos = c :: rest :=
      fun nonzero => drop_of_fastCodeAt found (fun _ => nonzero)
    by_cases space : isSpace c = true
    · rw [if_pos space] at read
      obtain ⟨rest, here⟩ := here (space_nonzero space)
      exact (sound.value read).space here space
    rw [if_neg space] at read
    by_cases brace : c = '{'.toNat
    · rw [if_pos brace] at read
      subst brace
      obtain ⟨rest, here⟩ := here (by decide)
      exact (sound.members read).value here
    rw [if_neg brace] at read
    by_cases bracket : c = '['.toNat
    · rw [if_pos bracket] at read
      subst bracket
      obtain ⟨rest, here⟩ := here (by decide)
      exact (sound.items read).value here
    rw [if_neg bracket] at read
    by_cases t : c = 't'.toNat
    · rw [if_pos t] at read
      subst t
      obtain ⟨rest, here⟩ := here (by decide)
      exact readsValue_word here (by decide) (Or.inl ⟨rfl, rfl⟩) read
    rw [if_neg t] at read
    by_cases f : c = 'f'.toNat
    · rw [if_pos f] at read
      subst f
      obtain ⟨rest, here⟩ := here (by decide)
      exact readsValue_word here (by decide) (Or.inr (Or.inl ⟨rfl, rfl⟩)) read
    rw [if_neg f] at read
    by_cases n : c = 'n'.toNat
    · rw [if_pos n] at read
      subst n
      obtain ⟨rest, here⟩ := here (by decide)
      exact readsValue_word here (by decide) (Or.inr (Or.inr ⟨rfl, rfl⟩)) read
    rw [if_neg n] at read
    by_cases quote : c = '"'.toNat
    · rw [if_pos quote] at read
      subst quote
      obtain ⟨rest, here⟩ := here (by decide)
      exact readsValue_string here read
    rw [if_neg quote] at read
    by_cases number : isNumberStart c = true
    · rw [if_pos number] at read
      obtain ⟨rest, here⟩ := here ((isNumberStart_other number).2 _ (by decide))
      exact readsValue_number here number read
    rw [if_neg number] at read
    exact absurd read not_invalidChar

theorem ReadsItems.space {pos c end_ : Nat} {rest : List Nat} {arr : List (Value F)}
    {comma : Option Bool} {v : Value F} (here : str.drop pos = c :: rest)
    (space : isSpace c = true) (reads : ReadsItems p str (pos + 1) arr comma v end_) :
    ReadsItems p str pos arr comma v end_ := by
  obtain ⟨items, s, vs, rest', remains, all, denote, rfl, tail, rfl⟩ := reads
  refine ⟨items, c :: s, vs, rest', remains.space spaced_items ((isSpace_iff c).mp space), all,
    denote, rfl, ?_, ?_⟩
  · rw [here, ← drop_cons here, tail]
    rfl
  · rw [List.length_cons]
    omega

/-- An element, and what follows it. -/
theorem ReadsItems.cons {pos behind end_ : Nat} {arr : List (Value F)} {comma : Option Bool}
    {x v : Value F} (first : ReadsValue p str pos x behind) (expected : comma ≠ some true)
    (others : ReadsItems p str behind (arr ++ [x]) (some true) v end_) :
    ReadsItems p str pos arr comma v end_ := by
  obtain ⟨ws, t, tree, rest, spaces, spells, all, denotes, here, rfl⟩ := first
  obtain ⟨items, s, vs, rest', ⟨gap, more, spaces', closes, rfl⟩, alls, denote, rfl, tail, rfl⟩ :=
    others
  have after : str.drop (pos + ws.length + t.length) = rest := drop_append (drop_append here)
  refine ⟨tree :: items, ws ++ (t ++ (gap ++ more)), x :: vs, rest', ?_, ⟨all, alls⟩,
    ⟨x, vs, denotes, denote, rfl⟩, ?_, ?_, ?_⟩
  · exact remains_of_spells ⟨ws, t, gap, more, spaces, spells, spaces', closes, rfl⟩
      (List.cons_ne_nil _ _) expected
  · rw [List.append_assoc]
    rfl
  · rw [here, ← after, tail]
    simp only [List.append_assoc]
  · simp only [List.length_append]
    omega

theorem readsItems_of_parseArray {fuel pos end_ : Nat} {arr : List (Value F)}
    {comma : Option Bool} {v : Value F} (sound : Sound p str fuel)
    (read : parseArray p str (fuel + 1) pos arr comma = .returned (v, end_)) :
    ReadsItems p str pos arr comma v end_ := by
  rw [parseArray] at read
  cases found : p.fastCodeAt str pos with
  | none =>
    rw [found] at read
    simp only [] at read
    by_cases given : comma = some true
    · rw [if_pos given] at read
      exact absurd read not_invalidChar
    rw [if_neg given] at read
    obtain ⟨⟨x, behind⟩, first, others⟩ := bind_returned read
    exact ReadsItems.cons (sound.value first) given (sound.items others)
  | some c =>
    rw [found] at read
    simp only [] at read
    have here : c ≠ 0 → ∃ rest, str.drop pos = c :: rest :=
      fun nonzero => drop_of_fastCodeAt found (fun _ => nonzero)
    by_cases space : isSpace c = true
    · rw [if_pos space] at read
      obtain ⟨rest, here⟩ := here (space_nonzero space)
      exact (sound.items read).space here space
    rw [if_neg space] at read
    by_cases close : c = ']'.toNat
    · rw [if_pos close] at read
      subst close
      obtain ⟨rest, here⟩ := here (by decide)
      by_cases missing : comma = some false
      · rw [if_pos missing] at read
        exact absurd read not_invalidChar
      rw [if_neg missing] at read
      obtain ⟨rfl, rfl⟩ := Prod.mk.inj (Outcome.returned.inj read)
      exact ⟨[], [], [], rest, remains_close (List.forall_mem_nil _) missing, trivial, rfl,
        by rw [List.append_nil], here, rfl⟩
    rw [if_neg close] at read
    by_cases mark : c = ','.toNat
    · rw [if_pos mark] at read
      subst mark
      obtain ⟨rest, here⟩ := here (by decide)
      by_cases given : comma = some true
      · rw [if_pos given] at read
        subst given
        obtain ⟨items, s, vs, rest', remains, all, denote, rfl, tail, rfl⟩ := sound.items read
        refine ⟨items, 44 :: s, vs, rest', remains_comma remains, all, denote, rfl, ?_, ?_⟩
        · rw [here, ← drop_cons here, tail]
          rfl
        · rw [List.length_cons]
          omega
      rw [if_neg given] at read
      exact absurd read not_invalidChar
    rw [if_neg mark] at read
    by_cases given : comma = some true
    · rw [if_pos given] at read
      exact absurd read not_invalidChar
    rw [if_neg given] at read
    obtain ⟨⟨x, behind⟩, first, others⟩ := bind_returned read
    exact ReadsItems.cons (sound.value first) given (sound.items others)

theorem ReadsMembers.space {pos c end_ : Nat} {rest : List Nat} {obj : List (List Nat × Value F)}
    {comma : Option Bool} {v : Value F} (here : str.drop pos = c :: rest)
    (space : isSpace c = true) (reads : ReadsMembers p str (pos + 1) obj comma v end_) :
    ReadsMembers p str pos obj comma v end_ := by
  obtain ⟨members, s, fields, rest', remains, all, denote, rfl, tail, rfl⟩ := reads
  refine ⟨members, c :: s, fields, rest',
    remains.space spaced_members ((isSpace_iff c).mp space), all, denote, rfl, ?_, ?_⟩
  · rw [here, ← drop_cons here, tail]
    rfl
  · rw [List.length_cons]
    omega

theorem ReadsNamed.space {pos c end_ : Nat} {rest : List Nat} {obj : List (List Nat × Value F)}
    {name : List Nat} {v : Value F} (here : str.drop pos = c :: rest)
    (space : isSpace c = true) (reads : ReadsNamed p str (pos + 1) obj name v end_) :
    ReadsNamed p str pos obj name v end_ := by
  obtain ⟨tree, x, members, s, fields, rest', ⟨gap, pad, t, after, spaces, spaces', spells, follows,
    rfl⟩, all, denotes, alls, denote, rfl, tail, rfl⟩ := reads
  refine ⟨tree, x, members, c :: (gap ++ (58 :: (pad ++ (t ++ after)))), fields, rest',
    ⟨c :: gap, pad, t, after, spaces_cons ((isSpace_iff c).mp space) spaces, spaces', spells,
      follows, rfl⟩, all, denotes, alls, denote, rfl, ?_, ?_⟩
  · rw [here, ← drop_cons here, tail]
    rfl
  · rw [List.length_cons]
    omega

/-- A colon, a value, and what follows it. -/
theorem ReadsMembers.named {pos behind end_ : Nat} {rest : List Nat}
    {obj : List (List Nat × Value F)} {name : List Nat} {x v : Value F}
    (here : str.drop pos = 58 :: rest) (first : ReadsValue p str (pos + 1) x behind)
    (others : ReadsMembers p str behind (setField obj name x) (some true) v end_) :
    ReadsNamed p str pos obj name v end_ := by
  obtain ⟨ws, t, tree, rest', spaces, spells, all, denotes, tail, rfl⟩ := first
  obtain ⟨members, s, fields, rest'', follows, alls, denote, rfl, tail', rfl⟩ := others
  have after : str.drop (pos + 1 + ws.length + t.length) = rest' := drop_append (drop_append tail)
  refine ⟨tree, x, members, 58 :: (ws ++ (t ++ s)), fields, rest'',
    ⟨[], ws, t, s, List.forall_mem_nil _, spaces, spells, follows, rfl⟩, all, denotes, alls, denote,
    rfl, ?_, ?_⟩
  · rw [here, ← drop_cons here, tail, ← after, tail']
    simp only [List.append_assoc, List.cons_append]
  · simp only [List.length_cons, List.length_append]
    omega

/-- A name, and what follows it. -/
theorem ReadsNamed.members {pos behind end_ : Nat} {text rest : List Nat}
    {obj : List (List Nat × Value F)} {name : List Nat} {comma : Option Bool} {v : Value F}
    (here : str.drop pos = 34 :: (text ++ 34 :: rest)) (lenient : LenientString p text)
    (expected : comma ≠ some true) (position : behind = pos + 1 + text.length + 1)
    (others : ReadsNamed p str behind obj name v end_) : ReadsMembers p str pos obj comma v end_ := by
  obtain ⟨tree, x, members, s, fields, rest', ⟨gap, pad, t, after, spaces, spaces', spells,
    ⟨behind', more, spaces'', closes, rfl⟩, rfl⟩, all, denotes, alls, denote, rfl, tail, rfl⟩ :=
    others
  have follows : str.drop behind = rest := by
    rw [position]
    exact drop_cons (drop_append (drop_cons here))
  refine ⟨(text, tree) :: members,
    34 :: (text ++ (34 :: (gap ++ (58 :: (pad ++ (t ++ (behind' ++ more))))))),
    (name, x) :: fields, rest', ?_, ⟨⟨lenient, all⟩, alls⟩, ⟨name, x, fields, denotes, denote, rfl⟩,
    rfl, ?_, ?_⟩
  · exact remains_of_spells ⟨[], gap, pad, t, behind', more, List.forall_mem_nil _, spaces, spaces',
      spells, spaces'', closes, rfl⟩ (List.cons_ne_nil _ _) expected
  · rw [here, ← follows, tail]
    simp only [List.append_assoc, List.cons_append]
  · simp only [List.length_cons, List.length_append]
    omega

theorem readsMembers_of_parseObject {fuel pos end_ : Nat} {obj : List (List Nat × Value F)}
    {comma : Option Bool} {v : Value F} (sound : Sound p str fuel)
    (read : parseObject p str (fuel + 1) pos obj none comma = .returned (v, end_)) :
    ReadsMembers p str pos obj comma v end_ := by
  rw [parseObject] at read
  cases found : p.fastCodeAt str pos with
  | none =>
    rw [found] at read
    exact absurd read not_invalidChar
  | some c =>
    rw [found] at read
    simp only [] at read
    have here : c ≠ 0 → ∃ rest, str.drop pos = c :: rest :=
      fun nonzero => drop_of_fastCodeAt found (fun _ => nonzero)
    by_cases space : isSpace c = true
    · rw [if_pos space] at read
      obtain ⟨rest, here⟩ := here (space_nonzero space)
      exact (sound.members read).space here space
    rw [if_neg space] at read
    by_cases close : c = '}'.toNat
    · rw [if_pos close] at read
      subst close
      obtain ⟨rest, here⟩ := here (by decide)
      by_cases missing : comma = some false
      · rw [if_pos (Or.inr missing)] at read
        exact absurd read not_invalidChar
      rw [if_neg (not_or.mpr ⟨by decide, missing⟩)] at read
      obtain ⟨rfl, rfl⟩ := Prod.mk.inj (Outcome.returned.inj read)
      exact ⟨[], [], [], rest, remains_close (List.forall_mem_nil _) missing, trivial, rfl, rfl,
        here, rfl⟩
    rw [if_neg close] at read
    by_cases colon : c = ':'.toNat
    · rw [if_pos colon] at read
      exact absurd read not_invalidChar
    rw [if_neg colon] at read
    by_cases mark : c = ','.toNat
    · rw [if_pos mark] at read
      subst mark
      obtain ⟨rest, here⟩ := here (by decide)
      by_cases given : comma = some true
      · rw [if_pos given] at read
        subst given
        obtain ⟨members, s, fields, rest', remains, all, denote, rfl, tail, rfl⟩ :=
          sound.members read
        refine ⟨members, 44 :: s, fields, rest', remains_comma remains, all, denote, rfl, ?_, ?_⟩
        · rw [here, ← drop_cons here, tail]
          rfl
        · rw [List.length_cons]
          omega
      rw [if_neg given] at read
      exact absurd read not_invalidChar
    rw [if_neg mark] at read
    by_cases quote : c = '"'.toNat
    · rw [if_pos quote] at read
      subst quote
      obtain ⟨rest, here⟩ := here (by decide)
      by_cases given : comma = some true
      · rw [if_pos (Or.inr given)] at read
        exact absurd read not_invalidChar
      rw [if_neg (not_or.mpr ⟨by decide, given⟩)] at read
      obtain ⟨⟨name, behind⟩, first, others⟩ := bind_returned read
      obtain ⟨text, rest', lenient, tail, position⟩ := lenient_of_stringLoop first
      have whole : str.drop pos = 34 :: (text ++ 34 :: rest') := by
        rw [here, ← drop_cons here, tail]
        rfl
      exact ReadsNamed.members whole lenient given position (sound.named given others)
    rw [if_neg quote] at read
    exact absurd read not_invalidChar

theorem readsNamed_of_parseObject {fuel pos end_ : Nat} {obj : List (List Nat × Value F)}
    {name : List Nat} {comma : Option Bool} {v : Value F} (sound : Sound p str fuel)
    (expected : comma ≠ some true)
    (read : parseObject p str (fuel + 1) pos obj (some name) comma = .returned (v, end_)) :
    ReadsNamed p str pos obj name v end_ := by
  have taken : (some name).isSome = true := rfl
  rw [parseObject] at read
  cases found : p.fastCodeAt str pos with
  | none =>
    rw [found] at read
    exact absurd read not_invalidChar
  | some c =>
    rw [found] at read
    simp only [] at read
    have here : c ≠ 0 → ∃ rest, str.drop pos = c :: rest :=
      fun nonzero => drop_of_fastCodeAt found (fun _ => nonzero)
    by_cases space : isSpace c = true
    · rw [if_pos space] at read
      obtain ⟨rest, here⟩ := here (space_nonzero space)
      exact (sound.named expected read).space here space
    rw [if_neg space] at read
    by_cases close : c = '}'.toNat
    · rw [if_pos close, if_pos (Or.inl taken)] at read
      exact absurd read not_invalidChar
    rw [if_neg close] at read
    by_cases colon : c = ':'.toNat
    · rw [if_pos colon] at read
      subst colon
      obtain ⟨rest, here⟩ := here (by decide)
      obtain ⟨⟨x, behind⟩, first, others⟩ := bind_returned read
      exact ReadsMembers.named here (sound.value first) (sound.members others)
    rw [if_neg colon] at read
    by_cases mark : c = ','.toNat
    · rw [if_pos mark, if_neg expected] at read
      exact absurd read not_invalidChar
    rw [if_neg mark] at read
    by_cases quote : c = '"'.toNat
    · rw [if_pos quote, if_pos (Or.inl taken)] at read
      exact absurd read not_invalidChar
    rw [if_neg quote] at read
    exact absurd read not_invalidChar

theorem sound (p : Platform F) (str : List Nat) (fuel : Nat) : Sound p str fuel := by
  induction fuel with
  | zero =>
    constructor
    · intro pos v end_ read
      rw [parseRec] at read
      cases read
    · intro pos arr comma v end_ read
      rw [parseArray] at read
      cases read
    · intro pos obj comma v end_ read
      rw [parseObject] at read
      cases read
    · intro pos obj name comma v end_ _ read
      rw [parseObject] at read
      cases read
  | succ fuel ih =>
    exact ⟨readsValue_of_parseRec ih, readsItems_of_parseArray ih, readsMembers_of_parseObject ih,
      readsNamed_of_parseObject ih⟩

end Sound

end Haxe.Source.Json
