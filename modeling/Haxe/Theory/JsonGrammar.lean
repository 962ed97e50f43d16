import Mathlib.Data.List.Basic
import Mathlib.Logic.Basic

/-!
# The grammar of JSON

The texts of RFC 8259 over code units, apart from what the numbers and the strings are: a tree of
its tokens and how a text spells it. A text spells one tree at most, where no string is a part of
another one in front of a quotation mark.
-/

namespace Haxe.Theory.JsonGrammar

/-- A text by its tokens. -/
inductive Tree where
  | literal (word : List Nat)
  | number (text : List Nat)
  | string (text : List Nat)
  | array (items : List Tree)
  | object (members : List (List Nat × Tree))

/-- Which texts are numbers, and which ones may stand between quotation marks. -/
structure Tokens where
  number : List Nat → Prop
  string : List Nat → Prop

/-- "true", "false" and "null" -/
def words : List (List Nat) :=
  [[116, 114, 117, 101], [102, 97, 108, 115, 101], [110, 117, 108, 108]]

def Space (c : Nat) : Prop := c = 32 ∨ c = 9 ∨ c = 10 ∨ c = 13

def Spaces (ws : List Nat) : Prop := ∀ c ∈ ws, Space c

def Digit (c : Nat) : Prop := 48 ≤ c ∧ c ≤ 57

/-- The characters of numbers. -/
def NumberChar (c : Nat) : Prop :=
  Digit c ∨ c = 43 ∨ c = 45 ∨ c = 46 ∨ c = 69 ∨ c = 101

mutual

/-- Each token of a tree is one. -/
def All (T : Tokens) : Tree → Prop
  | .literal word => word ∈ words
  | .number text => T.number text
  | .string text => T.string text
  | .array items => AllItems T items
  | .object members => AllMembers T members

def AllItems (T : Tokens) : List Tree → Prop
  | [] => True
  | v :: rest => All T v ∧ AllItems T rest

def AllMembers (T : Tokens) : List (List Nat × Tree) → Prop
  | [] => True
  | (name, v) :: rest => (T.string name ∧ All T v) ∧ AllMembers T rest

end

mutual

/-- How a value is written. -/
def Spells : Tree → List Nat → Prop
  | .literal word, s => s = word
  | .number text, s => s = text
  | .string text, s => s = 34 :: text ++ [34]
  | .array items, s => ∃ inner, SpellsItems items inner ∧ s = 91 :: inner ++ [93]
  | .object members, s => ∃ inner, SpellsMembers members inner ∧ s = 123 :: inner ++ [125]

/-- Between brackets: values with commas between them. -/
def SpellsItems : List Tree → List Nat → Prop
  | [], s => Spaces s
  | v :: rest, s =>
    ∃ before t behind more, Spaces before ∧ Spells v t ∧ Spaces behind ∧
      ((rest = [] ∧ more = []) ∨
        (rest ≠ [] ∧ ∃ others, SpellsItems rest others ∧ more = 44 :: others)) ∧
      s = before ++ (t ++ (behind ++ more))

/-- Between braces: names and values with commas between them. -/
def SpellsMembers : List (List Nat × Tree) → List Nat → Prop
  | [], s => Spaces s
  | (name, v) :: rest, s =>
    ∃ before gap pad t behind more, Spaces before ∧ Spaces gap ∧ Spaces pad ∧ Spells v t ∧
      Spaces behind ∧
      ((rest = [] ∧ more = []) ∨
        (rest ≠ [] ∧ ∃ others, SpellsMembers rest others ∧ more = 44 :: others)) ∧
      s = before ++ (34 :: (name ++ (34 :: (gap ++ (58 :: (pad ++ (t ++ (behind ++ more))))))))

end

/-- A tree in front of a tail, with spaces around it. -/
def Reads (T : Tokens) (tree : Tree) (tail s : List Nat) : Prop :=
  ∃ before t behind, Spaces before ∧ Spells tree t ∧ Spaces behind ∧ All T tree ∧
    s = before ++ (t ++ (behind ++ tail))

/-- The texts of JSON. -/
def Text (T : Tokens) (s : List Nat) : Prop := ∃ tree, Reads T tree [] s

section Standard

/-- Digits, one at least. -/
def Digits (ds : List Nat) : Prop := ds ≠ [] ∧ ∀ d ∈ ds, Digit d

/-- The digits in front of a point: one zero, or no zero first. -/
def Integer (ds : List Nat) : Prop :=
  ds = [48] ∨ ∃ d more, ds = d :: more ∧ (49 ≤ d ∧ d ≤ 57) ∧ ∀ c ∈ more, Digit c

def ExponentMark (c : Nat) : Prop := c = 101 ∨ c = 69

def Sign (c : Nat) : Prop := c = 43 ∨ c = 45

def Exponent (t : List Nat) : Prop :=
  ∃ x u, t = x :: u ∧ ExponentMark x ∧ (Digits u ∨ ∃ c ds, u = c :: ds ∧ Sign c ∧ Digits ds)

/-- The numbers of RFC 8259. -/
def Number (t : List Nat) : Prop :=
  ∃ minus int frac exp, (minus = [] ∨ minus = [45]) ∧ Integer int ∧
    (frac = [] ∨ ∃ ds, frac = 46 :: ds ∧ Digits ds) ∧ (exp = [] ∨ Exponent exp) ∧
    t = minus ++ (int ++ (frac ++ exp))

def HexDigit (c : Nat) : Prop := Digit c ∨ (65 ≤ c ∧ c ≤ 70) ∨ (97 ≤ c ∧ c ≤ 102)

/-- What stands between quotation marks in RFC 8259, by what an unescaped character is. -/
inductive StringText (unescaped : List Nat → Prop) : List Nat → Prop where
  | nil : StringText unescaped []
  | plain {us t : List Nat} (known : unescaped us) (rest : StringText unescaped t) :
      StringText unescaped (us ++ t)
  | escape {x : Nat} {t : List Nat} (known : x ∈ [34, 92, 47, 98, 102, 110, 114, 116])
      (rest : StringText unescaped t) : StringText unescaped (92 :: x :: t)
  | unicode {us t : List Nat} (four : us.length = 4) (hex : ∀ c ∈ us, HexDigit c)
      (rest : StringText unescaped t) : StringText unescaped (92 :: 117 :: (us ++ t))

/-- The tokens of RFC 8259. -/
def standard (unescaped : List Nat → Prop) : Tokens := ⟨Number, StringText unescaped⟩

end Standard

section Weaker

variable {T T' : Tokens}

mutual

theorem all_mono (numbers : ∀ t, T.number t → T'.number t)
    (strings : ∀ t, T.string t → T'.string t) (tree : Tree) (all : All T tree) : All T' tree := by
  cases tree with
  | literal word => exact all
  | number text => exact numbers text all
  | string text => exact strings text all
  | array items => exact allItems_mono numbers strings items all
  | object members => exact allMembers_mono numbers strings members all

theorem allItems_mono (numbers : ∀ t, T.number t → T'.number t)
    (strings : ∀ t, T.string t → T'.string t) (items : List Tree) (all : AllItems T items) :
    AllItems T' items := by
  cases items with
  | nil => trivial
  | cons v rest =>
    exact ⟨all_mono numbers strings v all.1, allItems_mono numbers strings rest all.2⟩

theorem allMembers_mono (numbers : ∀ t, T.number t → T'.number t)
    (strings : ∀ t, T.string t → T'.string t) (members : List (List Nat × Tree))
    (all : AllMembers T members) : AllMembers T' members := by
  cases members with
  | nil => trivial
  | cons member rest =>
    obtain ⟨name, v⟩ := member
    exact ⟨⟨strings name all.1.1, all_mono numbers strings v all.1.2⟩,
      allMembers_mono numbers strings rest all.2⟩

end

end Weaker

section Unique

/-- Numbers end in front of any other character, and strings in front of a quotation mark. -/
structure Tokens.Separate (T : Tokens) : Prop where
  first : ∀ t, T.number t → ∃ c more, t = c :: more ∧ (Digit c ∨ c = 45)
  chars : ∀ t, T.number t → ∀ c ∈ t, NumberChar c
  strings : ∀ t t' r r', T.string t → T.string t' → t ++ 34 :: r = t' ++ 34 :: r' → t = t'

/-- What follows a number. -/
def Stops (rest : List Nat) : Prop := ∀ c ∈ rest.head?, ¬NumberChar c

/-- The longest parts in front of a text of which each character is of one kind. -/
theorem prefix_unique (kind : Nat → Prop) {a a' r r' : List Nat} (all : ∀ c ∈ a, kind c)
    (all' : ∀ c ∈ a', kind c) (ends : ∀ c ∈ r.head?, ¬kind c) (ends' : ∀ c ∈ r'.head?, ¬kind c)
    (same : a ++ r = a' ++ r') : a = a' ∧ r = r' := by
  induction a generalizing a' with
  | nil =>
    cases a' with
    | nil => exact ⟨rfl, same⟩
    | cons c a' =>
      obtain rfl : r = c :: (a' ++ r') := same
      exact absurd (all' c (List.mem_cons_self ..)) (ends c rfl)
  | cons c a ih =>
    cases a' with
    | nil =>
      obtain rfl : c :: (a ++ r) = r' := same
      exact absurd (all c (List.mem_cons_self ..)) (ends' c rfl)
    | cons c' a' =>
      injection same with head tail
      obtain ⟨rfl, rest⟩ := ih (fun c member => all c (List.mem_cons_of_mem _ member))
        (fun c member => all' c (List.mem_cons_of_mem _ member)) tail
      exact ⟨by rw [head], rest⟩

theorem head_ends {kind : Nat → Prop} {c : Nat} {r : List Nat} (other : ¬kind c) :
    ∀ x ∈ (c :: r).head?, ¬kind x := by
  intro x member
  obtain rfl := Option.some.inj member
  exact other

theorem spaces_unique {a a' r r' : List Nat} {c c' : Nat} (spaces : Spaces a)
    (spaces' : Spaces a') (other : ¬Space c) (other' : ¬Space c')
    (same : a ++ c :: r = a' ++ c' :: r') : a = a' ∧ c = c' ∧ r = r' := by
  have parts :=
    prefix_unique Space spaces spaces' (head_ends other) (head_ends other') same
  exact ⟨parts.1, List.cons.inj parts.2⟩

/-- The kind of a tree, by the first character of its text. -/
def kindOf (c : Nat) : Nat :=
  if c = 34 then 2 else if c = 91 then 3 else if c = 123 then 4
  else if (48 ≤ c ∧ c ≤ 57) ∨ c = 45 then 1 else 0

def Tree.kind : Tree → Nat
  | .literal _ => 0
  | .number _ => 1
  | .string _ => 2
  | .array _ => 3
  | .object _ => 4

variable {T : Tokens}

theorem spells_first (separate : T.Separate) {tree : Tree} {t : List Nat} (all : All T tree)
    (spells : Spells tree t) :
    ∃ c more, t = c :: more ∧ kindOf c = tree.kind ∧ ¬Space c ∧ c ≠ 93 ∧ c ≠ 125 ∧ c ≠ 44 := by
  cases tree with
  | literal word =>
    obtain rfl : t = word := spells
    unfold All words at all
    simp only [List.mem_cons, List.not_mem_nil, or_false] at all
    obtain rfl | rfl | rfl := all
    all_goals exact ⟨_, _, rfl, rfl, by unfold Space; decide, by decide, by decide, by decide⟩
  | number text =>
    obtain rfl : t = text := spells
    obtain ⟨c, more, rfl, first⟩ := separate.first t all
    unfold Digit at first
    refine ⟨c, more, rfl, ?_, ?_, by omega, by omega, by omega⟩
    · unfold kindOf
      rw [if_neg (by omega), if_neg (by omega), if_neg (by omega), if_pos first]
      rfl
    · unfold Space
      omega
  | string text =>
    exact ⟨34, _, spells, rfl, by unfold Space; decide, by decide, by decide, by decide⟩
  | array items =>
    obtain ⟨inner, -, rfl⟩ := spells
    exact ⟨91, _, rfl, rfl, by unfold Space; decide, by decide, by decide, by decide⟩
  | object members =>
    obtain ⟨inner, -, rfl⟩ := spells
    exact ⟨123, _, rfl, rfl, by unfold Space; decide, by decide, by decide, by decide⟩

/-- What stands behind an element and the spaces that follow it. -/
def Closes {α : Type} (spells : List α → List Nat → Prop) (rest : List α) (more : List Nat) :
    Prop :=
  (rest = [] ∧ more = []) ∨ (rest ≠ [] ∧ ∃ others, spells rest others ∧ more = 44 :: others)

theorem stops_spaces {behind rest : List Nat} {c : Nat} (spaces : Spaces behind)
    (other : ¬NumberChar c) : Stops (behind ++ c :: rest) := by
  intro x member
  cases behind with
  | nil =>
    obtain rfl := Option.some.inj member
    exact other
  | cons b behind =>
    obtain rfl := Option.some.inj member
    have space := spaces b (List.mem_cons_self ..)
    unfold Space at space
    unfold NumberChar Digit
    omega

theorem closes_cases {α : Type} {spells : List α → List Nat → Prop} {rest : List α}
    {more : List Nat} (closes : Closes spells rest more) (close : Nat) (r : List Nat) :
    (rest = [] ∧ more = [] ∧ more ++ close :: r = close :: r) ∨
      (rest ≠ [] ∧ ∃ others, spells rest others ∧ more = 44 :: others ∧
        more ++ close :: r = 44 :: (others ++ close :: r)) := by
  obtain ⟨last, rfl⟩ | ⟨other, others, spelled, rfl⟩ := closes
  · exact Or.inl ⟨last, rfl, rfl⟩
  · exact Or.inr ⟨other, others, spelled, rfl, rfl⟩

/-- What stands behind an element in front of the closing character: both texts close there, or
both go on. -/
theorem closes_unique {α : Type} {spells : List α → List Nat → Prop} {rest rest' : List α}
    {behind behind' more more' r r' : List Nat} {close : Nat} (spaces : Spaces behind)
    (spaces' : Spaces behind') (closes : Closes spells rest more)
    (closes' : Closes spells rest' more') (closer : ¬Space close ∧ close ≠ 44)
    (same : behind ++ (more ++ close :: r) = behind' ++ (more' ++ close :: r'))
    (others_unique : ∀ s s', spells rest s → spells rest' s' → s ++ close :: r = s' ++ close :: r' →
      rest = rest' ∧ s = s') : rest = rest' ∧ behind = behind' ∧ more = more' := by
  have comma : ¬Space 44 := by
    unfold Space
    decide
  obtain ⟨last, empty, eq⟩ | ⟨-, others, spelled, rfl, eq⟩ := closes_cases closes close r
  · obtain ⟨last', empty', eq'⟩ | ⟨-, others', -, -, eq'⟩ := closes_cases closes' close r'
    · rw [eq, eq'] at same
      exact ⟨last.trans last'.symm, (spaces_unique spaces spaces' closer.1 closer.1 same).1,
        empty.trans empty'.symm⟩
    · rw [eq, eq'] at same
      exact absurd (spaces_unique spaces spaces' closer.1 comma same).2.1 closer.2
  · obtain ⟨-, -, eq'⟩ | ⟨-, others', spelled', rfl, eq'⟩ := closes_cases closes' close r'
    · rw [eq, eq'] at same
      exact absurd (spaces_unique spaces spaces' comma closer.1 same).2.1.symm closer.2
    · rw [eq, eq'] at same
      obtain ⟨behinds, -, rests⟩ := spaces_unique spaces spaces' comma comma same
      obtain ⟨trees, texts⟩ := others_unique others others' spelled spelled' rests
      exact ⟨trees, behinds, by rw [texts]⟩

theorem stops_closes {α : Type} {spells : List α → List Nat → Prop} {rest : List α}
    {behind more r : List Nat} {close : Nat} (spaces : Spaces behind)
    (closes : Closes spells rest more) (closer : ¬NumberChar close) :
    Stops (behind ++ (more ++ close :: r)) := by
  have comma : ¬NumberChar 44 := by
    unfold NumberChar Digit
    decide
  obtain ⟨-, -, eq⟩ | ⟨-, others, -, -, eq⟩ := closes_cases closes close r
  · rw [eq]
    exact stops_spaces spaces closer
  · rw [eq]
    exact stops_spaces spaces comma

theorem closers : (¬Space 93 ∧ 93 ≠ 44 ∧ ¬NumberChar 93) ∧ ¬Space 125 ∧ 125 ≠ 44 ∧
    ¬NumberChar 125 := by
  unfold Space NumberChar Digit
  decide

theorem marks : ¬Space 34 ∧ ¬Space 58 := by
  unfold Space
  decide

theorem words_unique {word word' r r' : List Nat} (known : word ∈ words) (known' : word' ∈ words)
    (same : word ++ r = word' ++ r') : word = word' := by
  unfold words at known known'
  simp only [List.mem_cons, List.not_mem_nil, or_false] at known known'
  obtain rfl | rfl | rfl := known
  all_goals
    obtain rfl | rfl | rfl := known'
    all_goals first
      | rfl
      | exact absurd (List.cons.inj same).1 (by decide)

variable (separate : T.Separate)

include separate

mutual

/-- A text that goes on in any way spells one tree at most. -/
theorem spells_unique (tree tree' : Tree) {t t' r r' : List Nat} (all : All T tree)
    (all' : All T tree') (spells : Spells tree t) (spells' : Spells tree' t')
    (stops : Stops r) (stops' : Stops r') (same : t ++ r = t' ++ r') : tree = tree' ∧ t = t' := by
  have kinds : tree.kind = tree'.kind := by
    obtain ⟨c, more, first, kind, -⟩ := spells_first separate all spells
    obtain ⟨c', more', first', kind', -⟩ := spells_first separate all' spells'
    rw [first, first'] at same
    rw [← kind, ← kind', (List.cons.inj same).1]
  cases tree with
  | literal word =>
    cases tree' with
    | literal word' =>
      obtain rfl : t = word := spells
      obtain rfl : t' = word' := spells'
      obtain rfl := words_unique all all' same
      exact ⟨rfl, rfl⟩
    | _ => exact nomatch kinds
  | number text =>
    cases tree' with
    | number text' =>
      obtain rfl : t = text := spells
      obtain rfl : t' = text' := spells'
      obtain ⟨rfl, -⟩ := prefix_unique NumberChar (separate.chars t all) (separate.chars t' all')
        stops stops'
        same
      exact ⟨rfl, rfl⟩
    | _ => exact nomatch kinds
  | string text =>
    cases tree' with
    | string text' =>
      obtain rfl : t = 34 :: text ++ [34] := spells
      obtain rfl : t' = 34 :: text' ++ [34] := spells'
      rw [List.append_assoc, List.append_assoc] at same
      obtain rfl := separate.strings text text' r r' all all' (List.cons.inj same).2
      exact ⟨rfl, rfl⟩
    | _ => exact nomatch kinds
  | array items =>
    cases tree' with
    | array items' =>
      obtain ⟨inner, spelled, rfl⟩ := spells
      obtain ⟨inner', spelled', rfl⟩ := spells'
      rw [List.append_assoc, List.append_assoc] at same
      obtain ⟨rfl, rfl⟩ := items_unique items items' all all' spelled spelled'
        (List.cons.inj same).2
      exact ⟨rfl, rfl⟩
    | _ => exact nomatch kinds
  | object members =>
    cases tree' with
    | object members' =>
      obtain ⟨inner, spelled, rfl⟩ := spells
      obtain ⟨inner', spelled', rfl⟩ := spells'
      rw [List.append_assoc, List.append_assoc] at same
      obtain ⟨rfl, rfl⟩ := members_unique members members' all all' spelled spelled'
        (List.cons.inj same).2
      exact ⟨rfl, rfl⟩
    | _ => exact nomatch kinds

theorem items_unique (items items' : List Tree) {s s' r r' : List Nat} (all : AllItems T items)
    (all' : AllItems T items') (spells : SpellsItems items s) (spells' : SpellsItems items' s')
    (same : s ++ 93 :: r = s' ++ 93 :: r') : items = items' ∧ s = s' := by
  cases items with
  | nil =>
    cases items' with
    | nil => exact ⟨rfl, (spaces_unique spells spells' closers.1.1 closers.1.1 same).1⟩
    | cons v' rest' =>
      obtain ⟨before', t', behind', more', spaces', spelled', -, -, rfl⟩ := spells'
      obtain ⟨c', u', rfl, -, other', bracket', -⟩ := spells_first separate all'.1 spelled'
      simp only [List.append_assoc, List.cons_append] at same
      exact absurd (spaces_unique spells spaces' closers.1.1 other' same).2.1.symm bracket'
  | cons v rest =>
    obtain ⟨before, t, behind, more, spaces, spelled, spacesBehind, closes, rfl⟩ := spells
    obtain ⟨c, u, first, -, other, bracket, -⟩ := spells_first separate all.1 spelled
    cases items' with
    | nil =>
      rw [first] at same
      simp only [List.append_assoc, List.cons_append] at same
      exact absurd (spaces_unique spaces spells' other closers.1.1 same).2.1 bracket
    | cons v' rest' =>
      obtain ⟨before', t', behind', more', spaces', spelled', spacesBehind', closes', rfl⟩ :=
        spells'
      obtain ⟨c', u', first', -, other', -⟩ := spells_first separate all'.1 spelled'
      have same' := same
      rw [first, first'] at same'
      simp only [List.append_assoc, List.cons_append] at same same'
      obtain ⟨rfl, -⟩ := spaces_unique spaces spaces' other other' same'
      have values := List.append_cancel_left same
      obtain ⟨rfl, rfl⟩ := spells_unique v v' all.1 all'.1 spelled spelled'
        (stops_closes spacesBehind closes closers.1.2.2)
        (stops_closes spacesBehind' closes' closers.1.2.2) values
      obtain ⟨rfl, rfl, rfl⟩ := closes_unique spacesBehind spacesBehind' closes closes'
        ⟨closers.1.1, closers.1.2.1⟩ (List.append_cancel_left values)
        (fun _ _ => items_unique rest rest' all.2 all'.2)
      exact ⟨rfl, rfl⟩

theorem members_unique (members members' : List (List Nat × Tree)) {s s' r r' : List Nat}
    (all : AllMembers T members) (all' : AllMembers T members') (spells : SpellsMembers members s)
    (spells' : SpellsMembers members' s') (same : s ++ 125 :: r = s' ++ 125 :: r') :
    members = members' ∧ s = s' := by
  cases members with
  | nil =>
    cases members' with
    | nil => exact ⟨rfl, (spaces_unique spells spells' closers.2.1 closers.2.1 same).1⟩
    | cons member' rest' =>
      obtain ⟨name', v'⟩ := member'
      obtain ⟨before', gap', pad', t', behind', more', spaces', -, -, -, -, -, rfl⟩ := spells'
      simp only [List.append_assoc, List.cons_append] at same
      exact absurd (spaces_unique spells spaces' closers.2.1 marks.1 same).2.1 (by decide)
  | cons member rest =>
    obtain ⟨name, v⟩ := member
    obtain ⟨before, gap, pad, t, behind, more, spaces, spacesGap, spacesPad, spelled,
      spacesBehind, closes, rfl⟩ := spells
    obtain ⟨c, u, first, -, other, -⟩ := spells_first separate all.1.2 spelled
    cases members' with
    | nil =>
      simp only [List.append_assoc, List.cons_append] at same
      exact absurd (spaces_unique spaces spells' marks.1 closers.2.1 same).2.1 (by decide)
    | cons member' rest' =>
      obtain ⟨name', v'⟩ := member'
      obtain ⟨before', gap', pad', t', behind', more', spaces', spacesGap', spacesPad', spelled',
        spacesBehind', closes', rfl⟩ := spells'
      obtain ⟨c', u', first', -, other', -⟩ := spells_first separate all'.1.2 spelled'
      simp only [List.append_assoc, List.cons_append] at same
      obtain ⟨rfl, -, names⟩ := spaces_unique spaces spaces' marks.1 marks.1 same
      obtain rfl := separate.strings name name' _ _ all.1.1 all'.1.1 names
      obtain ⟨rfl, -, pads⟩ := spaces_unique spacesGap spacesGap' marks.2 marks.2
        (List.cons.inj (List.append_cancel_left names)).2
      have pads' := pads
      rw [first, first'] at pads'
      simp only [List.cons_append] at pads'
      obtain ⟨rfl, -⟩ := spaces_unique spacesPad spacesPad' other other' pads'
      have values := List.append_cancel_left pads
      obtain ⟨rfl, rfl⟩ := spells_unique v v' all.1.2 all'.1.2 spelled spelled'
        (stops_closes spacesBehind closes closers.2.2.2)
        (stops_closes spacesBehind' closes' closers.2.2.2) values
      obtain ⟨rfl, rfl, rfl⟩ := closes_unique spacesBehind spacesBehind' closes closes'
        ⟨closers.2.1, closers.2.2.1⟩ (List.append_cancel_left values)
        (fun _ _ => members_unique rest rest' all.2 all'.2)
      exact ⟨rfl, rfl⟩

end

/-- What stands behind a text: nothing, or a character that is in no number and is no space. -/
def Tail (tail : List Nat) : Prop := ∀ c ∈ tail.head?, ¬NumberChar c ∧ ¬Space c

/-- There is one way at most to read a text. -/
theorem reads_unique {tree tree' : Tree} {tail tail' s : List Nat} (reads : Reads T tree tail s)
    (reads' : Reads T tree' tail' s) (ends : Tail tail) (ends' : Tail tail') :
    tree = tree' ∧ tail = tail' := by
  obtain ⟨before, t, behind, spaces, spells, spacesBehind, all, eq⟩ := reads
  obtain ⟨before', t', behind', spaces', spells', spacesBehind', all', eq'⟩ := reads'
  obtain ⟨c, u, first, -, other, -⟩ := spells_first separate all spells
  obtain ⟨c', u', first', -, other', -⟩ := spells_first separate all' spells'
  have same := eq.symm.trans eq'
  have heads := same
  rw [first, first'] at heads
  simp only [List.cons_append] at heads
  obtain ⟨rfl, -⟩ := spaces_unique spaces spaces' other other' heads
  have values := List.append_cancel_left same
  have stops : ∀ {behind tail : List Nat}, Spaces behind → Tail tail → Stops (behind ++ tail) := by
    intro behind tail spaces ends
    cases tail with
    | nil =>
      cases behind with
      | nil => exact fun c member => nomatch member
      | cons b behind =>
        rw [List.append_nil]
        intro x member
        obtain rfl := Option.some.inj member
        have space := spaces b (List.mem_cons_self ..)
        unfold Space at space
        unfold NumberChar Digit
        omega
    | cons c tail => exact stops_spaces spaces (ends c rfl).1
  obtain ⟨rfl, rfl⟩ := spells_unique separate tree tree' all all' spells spells'
    (stops spacesBehind ends) (stops spacesBehind' ends') values
  exact ⟨rfl, (prefix_unique Space spacesBehind spacesBehind'
    (fun c member => (ends c member).2) (fun c member => (ends' c member).2)
    (List.append_cancel_left values)).2⟩

end Unique

end Haxe.Theory.JsonGrammar
