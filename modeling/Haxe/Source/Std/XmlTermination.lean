import Haxe.Source.Std.XmlParser

/-!
# Parsing XML ends

A turn of the loop that stays at its character goes on to a state of a smaller rank. A rank is at
most 3, so four turns for each character are enough.
-/

namespace Haxe.Source.Xml

open Theory.InterruptedRuns

/-- How many turns may follow at one character. -/
@[grind =] def S.rank : S → Nat
  | .begin | .beginNode | .body => 1
  | .close | .childs | .escape => 2
  | _ => 0

/-- A state that does not depend on where a name began. -/
def S.Direct (s : S) : Prop := s ≠ .ignoreSpaces ∧ s ≠ .tagName ∧ s ≠ .attribName

/-- A name of no character is an error. -/
@[grind =] def Locals.rank (l : Locals) (pos : Nat) : Nat :=
  match l.state with
  | .ignoreSpaces => l.next.rank + 1
  | .tagName | .attribName => if l.start = pos then 0 else 3
  | s => s.rank

/-- The states to go on with behind spaces and behind an entity. -/
structure Locals.Resumable (l : Locals) : Prop where
  next : l.next.Direct
  escapeNext : l.escapeNext.Direct
  low : l.escapeNext.rank ≤ 1

theorem S.rank_le (s : S) : s.rank ≤ 2 := by
  cases s <;> decide

theorem Locals.rank_direct {l : Locals} (direct : l.state.Direct) (pos : Nat) :
    l.rank pos = l.state.rank := by
  obtain ⟨spaces, tag, attrib⟩ := direct
  unfold Locals.rank
  cases h : l.state with
  | ignoreSpaces => exact absurd h spaces
  | tagName => exact absurd h tag
  | attribName => exact absurd h attrib
  | _ => rfl

theorem Locals.rank_le (l : Locals) (pos : Nat) : l.rank pos ≤ 3 := by
  have next := l.next.rank_le
  unfold Locals.rank
  split
  · omega
  · split <;> omega
  · split <;> omega
  · have := S.rank_le l.state
    omega

theorem Locals.initial_resumable : Locals.initial.Resumable where
  next := ⟨nofun, nofun, nofun⟩
  escapeNext := ⟨nofun, nofun, nofun⟩
  low := Nat.le_refl 1

variable {p : Platform} {strict : Bool} {str : List Nat} {pos c : Nat} {l : Locals}

/-- The loop goes on behind the character, or at it with a smaller rank. -/
def Turn.Progresses (pos : Nat) (l : Locals) : Turn → Prop
  | .on l' pos' => l'.Resumable ∧ (pos < pos' ∨ pos' = pos ∧ l'.rank pos < l.rank pos)
  | .childs => l.state = .childs
  | .back _ => True
  | .fail _ => True

theorem Turn.Progresses.ahead {l' : Locals} {pos' : Nat} (resumable : l'.Resumable)
    (ahead : pos < pos') : (Turn.on l' pos').Progresses pos l :=
  ⟨resumable, .inl ahead⟩

/-- The next state is of the first states at its character. -/
theorem Turn.Progresses.name {l' : Locals} (resumable : l'.Resumable)
    (named : l'.state = .tagName ∨ l'.state = .attribName) (start : l'.start = pos)
    (positive : 0 < l.rank pos) : (Turn.on l' pos).Progresses pos l := by
  have rank : l'.rank pos = 0 := by
    unfold Locals.rank
    rcases named with h | h <;> rw [h] <;> exact if_pos start
  refine ⟨resumable, .inr ⟨rfl, ?_⟩⟩
  rw [rank]
  exact positive

/-- Spaces are skipped before the next state. -/
theorem Turn.Progresses.spaces {l' : Locals} (resumable : l'.Resumable)
    (state : l'.state = .ignoreSpaces) (lower : l'.next.rank + 1 < l.rank pos) :
    (Turn.on l' pos).Progresses pos l := by
  refine ⟨resumable, .inr ⟨rfl, ?_⟩⟩
  unfold Locals.rank at lower ⊢
  rw [state]
  exact lower

theorem Turn.Progresses.direct {l' : Locals} (resumable : l'.Resumable)
    (direct : l'.state.Direct) (lower : l'.state.rank < l.rank pos) :
    (Turn.on l' pos).Progresses pos l := by
  refine ⟨resumable, .inr ⟨rfl, ?_⟩⟩
  rw [Locals.rank_direct direct]
  exact lower

theorem beginNode_progresses (resumable : l.Resumable) (state : l.state = .beginNode) :
    (beginNode str pos c l).Progresses pos l := by
  have kept : ∀ (s : S) (start : Nat), { l with state := s, start := start }.Resumable :=
    fun _ _ => ⟨resumable.next, resumable.escapeNext, resumable.low⟩
  have positive : 0 < l.rank pos := by
    rw [Locals.rank_direct (by rw [state]; exact ⟨nofun, nofun, nofun⟩), state]
    exact Nat.zero_lt_one
  unfold beginNode
  split
  · split
    · split
      · trivial
      · exact .ahead (kept _ _) (by omega)
    · split
      · split
        · trivial
        · exact .ahead (kept _ _) (by omega)
      · split
        · trivial
        · exact .ahead (kept _ _) (by omega)
  · split
    · exact .ahead (kept _ _) (Nat.lt_succ_self pos)
    · split
      · refine .ahead ⟨⟨nofun, nofun, nofun⟩, resumable.escapeNext, resumable.low⟩ ?_
        exact Nat.lt_succ_self pos
      · exact .name (kept _ _) (.inl rfl) rfl positive

theorem attribVal_progresses (resumable : l.Resumable) :
    (attribVal strict str pos c l).Progresses pos l := by
  unfold attribVal
  split
  · refine .ahead ⟨resumable.next, ⟨nofun, nofun, nofun⟩, Nat.zero_le 1⟩ ?_
    exact Nat.lt_succ_self pos
  · split
    · trivial
    · split
      · refine .ahead ⟨⟨nofun, nofun, nofun⟩, resumable.escapeNext, resumable.low⟩ ?_
        exact Nat.lt_succ_self pos
      · exact .ahead resumable (Nat.lt_succ_self pos)

theorem close_progresses {parent : Option (List Nat)} (resumable : l.Resumable)
    (state : l.state = .close) : (close str parent pos c l).Progresses pos l := by
  unfold close
  split
  · exact .ahead resumable (Nat.lt_succ_self pos)
  · split
    · trivial
    · cases parent with
      | none => trivial
      | some name =>
        dsimp only
        split
        · trivial
        · refine .spaces ⟨⟨nofun, nofun, nofun⟩, resumable.escapeNext, resumable.low⟩ rfl ?_
          rw [Locals.rank_direct (by rw [state]; exact ⟨nofun, nofun, nofun⟩), state]
          exact Nat.lt_succ_self 1

/-- The position that is decremented is that of the character which ends the entity. -/
theorem escape_progresses (resumable : l.Resumable) (state : l.state = .escape) :
    (escape p strict str pos c l).Progresses pos l := by
  unfold escape
  split
  · split
    · refine .ahead ⟨resumable.next, resumable.escapeNext, resumable.low⟩ ?_
      exact Nat.lt_succ_self pos
    · trivial
  · split
    · split
      · trivial
      · refine .direct ⟨resumable.next, resumable.escapeNext, resumable.low⟩
          resumable.escapeNext ?_
        rw [Locals.rank_direct (by rw [state]; exact ⟨nofun, nofun, nofun⟩), state]
        exact Nat.lt_succ_of_le resumable.low
    · exact .ahead resumable (Nat.lt_succ_self pos)

theorem Locals.Resumable.moved (resumable : l.Resumable) {l' : Locals} (next : l'.next = l.next)
    (escapeNext : l'.escapeNext = l.escapeNext) : l'.Resumable := by
  refine ⟨?_, ?_, ?_⟩
  · rw [next]
    exact resumable.next
  · rw [escapeNext]
    exact resumable.escapeNext
  · rw [escapeNext]
    exact resumable.low

theorem turn_progresses {parent : Option (List Nat)} (resumable : l.Resumable) :
    (turn p strict str parent pos c l).Progresses pos l := by
  have direct : ∀ {s : S}, l.state = s → s.Direct → l.rank pos = s.rank := by
    rintro s rfl
    exact fun direct => Locals.rank_direct direct pos
  have kept : ∀ {l' : Locals}, l'.next = l.next → l'.escapeNext = l.escapeNext → l'.Resumable :=
    resumable.moved
  have next : pos < pos + 1 := Nat.lt_succ_self pos
  unfold turn
  cases state : l.state with
  | ignoreSpaces =>
    dsimp only
    split
    · exact .ahead resumable next
    · refine .direct (kept rfl rfl) resumable.next ?_
      unfold Locals.rank
      rw [state]
      exact Nat.lt_succ_self _
  | begin =>
    dsimp only
    split
    · exact .ahead ⟨⟨nofun, nofun, nofun⟩, resumable.escapeNext, resumable.low⟩ next
    · refine .direct (kept rfl rfl) ⟨nofun, nofun, nofun⟩ ?_
      rw [direct state ⟨nofun, nofun, nofun⟩]
      exact Nat.zero_lt_one
  | pcdata =>
    dsimp only
    split
    · exact .ahead ⟨⟨nofun, nofun, nofun⟩, resumable.escapeNext, resumable.low⟩ next
    · split
      · exact .ahead ⟨resumable.next, ⟨nofun, nofun, nofun⟩, Nat.zero_le 1⟩ next
      · exact .ahead resumable next
  | cdata =>
    dsimp only
    split
    · exact .ahead (kept rfl rfl) (by omega)
    · exact .ahead resumable next
  | beginNode => exact beginNode_progresses resumable state
  | tagName =>
    dsimp only
    split
    · exact .ahead resumable next
    · split
      · trivial
      case isFalse moved =>
        refine .spaces ⟨⟨nofun, nofun, nofun⟩, resumable.escapeNext, resumable.low⟩ rfl ?_
        unfold Locals.rank
        rw [state]
        dsimp only
        rw [if_neg (Ne.symm moved)]
        exact Nat.lt_succ_self 2
  | body =>
    dsimp only
    split
    · exact .ahead (kept rfl rfl) next
    · split
      · exact .ahead (kept rfl rfl) next
      · refine .name (kept rfl rfl) (.inr rfl) rfl ?_
        rw [direct state ⟨nofun, nofun, nofun⟩]
        exact Nat.zero_lt_one
  | attribName =>
    dsimp only
    split
    · exact .ahead resumable next
    · split
      · trivial
      case isFalse moved =>
        split
        · trivial
        · refine .spaces ⟨⟨nofun, nofun, nofun⟩, resumable.escapeNext, resumable.low⟩ rfl ?_
          unfold Locals.rank
          rw [state]
          dsimp only
          rw [if_neg moved]
          exact Nat.lt_of_succ_lt (Nat.lt_succ_self 2)
  | equals =>
    dsimp only
    split
    · exact .ahead ⟨⟨nofun, nofun, nofun⟩, resumable.escapeNext, resumable.low⟩ next
    · trivial
  | attvalBegin =>
    dsimp only
    split
    · exact .ahead (kept rfl rfl) next
    · trivial
  | attribVal => exact attribVal_progresses resumable
  | childs => exact state
  | waitEnd =>
    dsimp only
    split
    · exact .ahead (kept rfl rfl) next
    · trivial
  | waitEndRet =>
    dsimp only
    split <;> trivial
  | close => exact close_progresses resumable state
  | comment =>
    dsimp only
    split
    · exact .ahead (kept rfl rfl) (by omega)
    · exact .ahead resumable next
  | doctype =>
    dsimp only
    split
    · exact .ahead (kept rfl rfl) next
    · split
      · exact .ahead (kept rfl rfl) next
      · split
        · exact .ahead (kept rfl rfl) next
        · exact .ahead resumable next
  | header =>
    dsimp only
    split
    · exact .ahead (kept rfl rfl) (by omega)
    · exact .ahead resumable next
  | escape => exact escape_progresses resumable state

/-- How many turns may be left. -/
def weight (str : List Nat) (pos : Nat) (l : Locals) : Nat := 4 * (str.length - pos) + l.rank pos

theorem Turn.Progresses.weight_lt {l' : Locals} {pos' : Nat}
    (progresses : (Turn.on l' pos').Progresses pos l) (inside : pos < str.length) :
    weight str pos' l' < weight str pos l := by
  unfold weight
  have rank := l'.rank_le pos'
  rcases progresses.2 with ahead | ⟨rfl, lower⟩
  · omega
  · omega

/-- The loop ends, and not before the character where it began. -/
def Finishes (pos : Nat) : Reading (Nat × List Xml) → Prop
  | .returned r => pos ≤ r.1
  | .thrown _ => True
  | .exhausted => False

theorem Finishes.mono {pos' : Nat} {r : Reading (Nat × List Xml)} (finishes : Finishes pos' r)
    (le : pos ≤ pos') : Finishes pos r := by
  cases r with
  | returned r => exact Nat.le_trans le finishes
  | thrown e => trivial
  | exhausted => exact finishes

theorem finish_finishes (parent : Option (List Nat)) :
    Finishes pos (finish strict str parent pos l) := by
  unfold finish
  dsimp only
  generalize (if l.state = .begin then { l with start := pos, state := .pcdata } else l) = l
  split
  · cases parent with
    | some name => trivial
    | none =>
      dsimp only
      split
      · exact Nat.le_refl pos
      · exact Nat.le_refl pos
  · split
    · exact Nat.le_refl pos
    · trivial

theorem doParse_finishes (p : Platform) (strict : Bool) (str : List Nat) {fuel : Nat}
    {parent : Option (List Nat)} {pos : Nat} {l : Locals} (resumable : l.Resumable)
    (enough : weight str pos l < fuel) :
    Finishes pos (doParse p strict str fuel parent pos l) := by
  induction fuel generalizing parent pos l with
  | zero => exact absurd enough (Nat.not_lt_zero _)
  | succ fuel ih =>
    rw [doParse]
    cases char : str[pos]? with
    | none => exact finish_finishes parent
    | some c =>
      have inside : pos < str.length := (List.getElem?_eq_some_iff.mp char).1
      have progresses := @turn_progresses p strict str pos c l parent resumable
      dsimp only
      cases turned : turn p strict str parent pos c l with
      | on l' pos' =>
        rw [turned] at progresses
        have forward : pos ≤ pos' := by
          rcases progresses.2 with ahead | ⟨rfl, -⟩
          · exact Nat.le_of_lt ahead
          · exact Nat.le_refl pos'
        have lower := progresses.weight_lt inside
        exact (ih progresses.1 (by omega)).mono forward
      | childs =>
        rw [turned] at progresses
        have rank : l.rank pos = 2 := by
          rw [Locals.rank_direct (by rw [progresses]; exact ⟨nofun, nofun, nofun⟩), progresses]
          rfl
        have began : weight str pos .initial = 4 * (str.length - pos) + 1 := rfl
        unfold weight at enough
        have first := @ih (some l.xmlName) pos .initial Locals.initial_resumable (by omega)
        dsimp only
        cases inner : doParse p strict str fuel (some l.xmlName) pos .initial with
        | exhausted =>
          rw [inner] at first
          exact first
        | thrown e => trivial
        | returned r =>
          rw [inner] at first
          have back : pos ≤ r.1 := first
          let l' : Locals :=
            { l with
              children := changeLast (addChildren r.2) l.children, start := r.1, state := .begin }
          have low : weight str (r.1 + 1) l' = 4 * (str.length - (r.1 + 1)) + 1 := rfl
          have rest := @ih parent (r.1 + 1) l' (resumable.moved rfl rfl) (by omega)
          exact rest.mono (Nat.le_succ_of_le back)
      | back l' => exact Nat.le_refl pos
      | fail e => trivial

end Haxe.Source.Xml
