import Haxe.Source.Core.Path

/-!
# Normalizing a path

`normalize` of `haxe.io.Path`: a stack of components, on which empty ones are kept, and a second
pass that drops the repeated slashes.
-/

namespace Haxe.Source.IoPath

open Theory PathSteps
open Source.Path (splitOnSlash concatSlash isAbsolute steps step)

/-- `path.split("\\").join(slash)` -/
def slashed (path : List Char) : List Char := path.map (fun c => if c = '\\' then '/' else c)

/-- One turn of the loop over the components. -/
def pushToken (absolute : Bool) (target : List (List Char)) (token : List Char) :
    List (List Char) :=
  if token = ['.', '.'] ∧ target ≠ [] ∧ target.getLast? ≠ some ['.', '.'] then target.dropLast
  else if token = [] then (if target ≠ [] ∨ absolute then target ++ [token] else target)
  else if token ≠ ['.'] then target ++ [token]
  else target

/-- `target` behind the loop; the path has slashes only. -/
def target (path : List Char) : List (List Char) :=
  (splitOnSlash path).foldl (pushToken (isAbsolute path)) []

/-- The variables of the second pass. -/
structure Collapsing where
  acc : List Char
  colon : Bool
  slashes : Bool
  deriving DecidableEq

/-- One turn of the second pass. -/
def collapseStep (s : Collapsing) (c : Char) : Collapsing :=
  if c = ':' then { s with acc := s.acc ++ [':'], colon := true }
  else if c = '/' ∧ s.colon = false then { s with slashes := true }
  else ⟨(if s.slashes then s.acc ++ ['/'] else s.acc) ++ [c], false, false⟩

def collapse (tmp : List Char) : Collapsing := tmp.foldl collapseStep ⟨[], false, false⟩

def normalize (path : List Char) : List Char :=
  let path := slashed path
  if path = ['/'] then ['/'] else (collapse (concatSlash (target path))).acc

section Collapse

/-- The components that are not empty. -/
def named (parts : List (List Char)) : List (List Char) := parts.filter (fun part => !part.isEmpty)

/-- What is written for components, behind a slash that is pending or not. -/
def glued (slashes : Bool) (names : List (List Char)) : List Char :=
  if names = [] then [] else (if slashes then ['/'] else []) ++ concatSlash names

/-- Neither a colon nor a slash occurs. -/
def Plain (part : List Char) : Prop := ∀ c ∈ part, c ≠ ':' ∧ c ≠ '/'

theorem foldl_plain {part : List Char} (plain : Plain part) (acc : List Char) (slashes : Bool) :
    part.foldl collapseStep ⟨acc, false, slashes⟩ =
      if part = [] then ⟨acc, false, slashes⟩
      else ⟨acc ++ (if slashes then ['/'] else []) ++ part, false, false⟩ := by
  have written : ∀ (part : List Char), Plain part → ∀ acc,
      part.foldl collapseStep ⟨acc, false, false⟩ = ⟨acc ++ part, false, false⟩ := by
    intro part plain
    induction part with
    | nil => exact fun acc => congrArg (Collapsing.mk · false false) (List.append_nil acc).symm
    | cons c part ih =>
      intro acc
      have here := plain c (List.mem_cons_self ..)
      have later := ih (fun d member => plain d (List.mem_cons_of_mem _ member)) (acc ++ [c])
      rw [List.foldl_cons, collapseStep, if_neg here.1, if_neg (fun both => here.2 both.1)]
      rw [List.append_assoc] at later
      exact later
  cases part with
  | nil => rfl
  | cons c part =>
    have here := plain c (List.mem_cons_self ..)
    rw [List.foldl_cons, collapseStep, if_neg here.1, if_neg (fun both => here.2 both.1),
      written part (fun d member => plain d (List.mem_cons_of_mem _ member)),
      if_neg (List.cons_ne_nil c part)]
    cases slashes with
    | true => simp
    | false => simp

theorem glued_cons (part : List Char) (slashes : Bool) (names : List (List Char)) :
    glued slashes (part :: names) =
      (if slashes then ['/'] else []) ++ part ++ glued true names := by
  unfold glued
  rw [if_neg (List.cons_ne_nil part names)]
  cases names with
  | nil => simp [concatSlash]
  | cons next names => simp [concatSlash]

theorem named_cons (part : List Char) (parts : List (List Char)) :
    named (part :: parts) = if part = [] then named parts else part :: named parts := by
  unfold named
  cases part with
  | nil => rfl
  | cons c part => rfl

/-- The first component is empty. -/
def rooted (parts : List (List Char)) : Bool := parts.head? == some []

theorem foldl_concatSlash {parts : List (List Char)} (plain : ∀ part ∈ parts, Plain part)
    (acc : List Char) (slashes : Bool) :
    ((concatSlash parts).foldl collapseStep ⟨acc, false, slashes⟩).acc =
      acc ++ glued (slashes || rooted parts) (named parts) := by
  induction parts generalizing acc slashes with
  | nil => exact (List.append_nil acc).symm
  | cons part parts ih =>
    have here := foldl_plain (plain part (List.mem_cons_self ..)) acc slashes
    have ih := ih (fun other member => plain other (List.mem_cons_of_mem _ member))
    have slash : ∀ acc slashes, collapseStep ⟨acc, false, slashes⟩ '/' = ⟨acc, false, true⟩ :=
      fun acc slashes => rfl
    have root : rooted (part :: parts) = decide (part = []) := by
      cases part with
      | nil => rfl
      | cons c part => rfl
    rw [root, named_cons part]
    by_cases empty : part = []
    · rw [if_pos empty, decide_eq_true empty, Bool.or_true]
      rw [if_pos empty, empty] at here
      cases parts with
      | nil =>
        rw [empty]
        exact (List.append_nil acc).symm
      | cons next parts =>
        rw [Path.concatSlash_cons part (List.cons_ne_nil next parts), List.foldl_append,
          List.foldl_cons, empty, here, slash, ih, Bool.true_or]
    · rw [if_neg empty, decide_eq_false empty, Bool.or_false, glued_cons]
      rw [if_neg empty] at here
      cases parts with
      | nil =>
        show (part.foldl collapseStep _).acc = _
        rw [here]
        simp [named, glued]
      | cons next parts =>
        rw [Path.concatSlash_cons part (List.cons_ne_nil next parts), List.foldl_append,
          List.foldl_cons, here, slash, ih, Bool.true_or]
        simp

theorem collapse_eq {parts : List (List Char)} (plain : ∀ part ∈ parts, Plain part) :
    (collapse (concatSlash parts)).acc = glued (rooted parts) (named parts) :=
  foldl_concatSlash plain [] false

end Collapse

section Components

theorem mem_concatSlash {c : Char} {part : List Char} {parts : List (List Char)}
    (member : part ∈ parts) (inside : c ∈ part) : c ∈ concatSlash parts := by
  induction parts with
  | nil => exact nomatch member
  | cons first parts ih =>
    cases parts with
    | nil =>
      rw [← List.mem_singleton.mp member]
      exact inside
    | cons next parts =>
      rw [Path.concatSlash_cons first (List.cons_ne_nil next parts)]
      rcases List.mem_cons.mp member with rfl | behind
      · exact List.mem_append_left _ inside
      · exact List.mem_append_right _ (List.mem_cons_of_mem _ (ih behind))

theorem mem_of_part {c : Char} {part f : List Char} (member : part ∈ splitOnSlash f)
    (inside : c ∈ part) : c ∈ f := by
  rw [← Path.concatSlash_split f]
  exact mem_concatSlash member inside

theorem pushToken_like (absolute : Bool) : StackLike (pushToken absolute) := by
  intro stack token
  unfold pushToken
  split
  · exact .inr (.inl rfl)
  · split
    · split
      · exact .inl rfl
      · exact .inr (.inr rfl)
    · split
      · exact .inl rfl
      · exact .inr (.inr rfl)

theorem foldl_sublist (absolute : Bool) (tokens : List (List Char)) :
    (tokens.foldl (pushToken absolute) []).Sublist tokens := by
  induction tokens using List.reverseRecOn with
  | nil => exact List.Sublist.refl _
  | append_singleton tokens token ih =>
    rw [List.foldl_append, List.foldl_cons, List.foldl_nil]
    rcases pushToken_like absolute (tokens.foldl (pushToken absolute) []) token with
      pushed | popped | left_
    · rw [pushed]
      exact ih.append (List.Sublist.refl _)
    · rw [popped]
      exact ((List.dropLast_sublist _).trans ih).trans (List.sublist_append_left _ _)
    · rw [left_]
      exact ih.trans (List.sublist_append_left _ _)

theorem noDot_foldl (absolute : Bool) (tokens : List (List Char)) :
    ['.'] ∉ tokens.foldl (pushToken absolute) [] := by
  induction tokens using List.reverseRecOn with
  | nil => exact List.not_mem_nil
  | append_singleton tokens token ih =>
    rw [List.foldl_append, List.foldl_cons, List.foldl_nil]
    unfold pushToken
    split
    · exact fun member => ih (List.dropLast_subset _ member)
    · split
      · next empty =>
        split
        · intro member
          rcases List.mem_append.mp member with before | last
          · exact ih before
          · rw [empty] at last
            exact absurd last (by decide)
        · exact ih
      · split
        · next other =>
          intro member
          rcases List.mem_append.mp member with before | last
          · exact ih before
          · exact other (List.mem_singleton.mp last).symm
        · exact ih

theorem target_part {path part : List Char} (member : part ∈ target path) :
    part ∈ splitOnSlash path := (foldl_sublist _ _).subset member

theorem slashed_noBackslash (path : List Char) : '\\' ∉ slashed path := by
  intro member
  obtain ⟨c, -, same⟩ := List.mem_map.mp member
  by_cases back : c = '\\'
  · rw [if_pos back] at same
    exact absurd same (by decide)
  · rw [if_neg back] at same
    exact back same

theorem slashed_eq {path : List Char} (none : '\\' ∉ path) : slashed path = path := by
  induction path with
  | nil => rfl
  | cons c path ih =>
    have other : c ≠ '\\' := fun eq => none (eq ▸ List.mem_cons_self)
    unfold slashed at ih ⊢
    rw [List.map_cons, if_neg other, ih (fun member => none (List.mem_cons_of_mem _ member))]

theorem slashed_noColon {path : List Char} (none : ':' ∉ path) : ':' ∉ slashed path := by
  intro member
  obtain ⟨c, there, same⟩ := List.mem_map.mp member
  by_cases back : c = '\\'
  · rw [if_pos back] at same
    exact absurd same (by decide)
  · rw [if_neg back] at same
    exact none (same ▸ there)

theorem target_plain {path : List Char} (noColon : ':' ∉ path) :
    ∀ part ∈ target path, Plain part := by
  intro part member c inside
  have there := target_part member
  refine ⟨fun colon => ?_, fun slash => ?_⟩
  · exact noColon (mem_of_part there (colon ▸ inside))
  · exact Path.noSlash_of_mem part there (slash ▸ inside)

/-- What the second pass makes of a path without colons. -/
theorem normalize_eq {path : List Char} (noColon : ':' ∉ path) (other : slashed path ≠ ['/']) :
    normalize path =
      glued (rooted (target (slashed path))) (named (target (slashed path))) := by
  unfold normalize
  rw [if_neg other]
  exact collapse_eq (target_plain (slashed_noColon noColon))

end Components

section Runs

/-- No `..` meets an empty component on the stack. -/
def spares (absolute : Bool) : List (List Char) → List (List Char) → Bool
  | _, [] => true
  | stack, token :: rest =>
    !(token == ['.', '.'] && stack.getLast? == some []) &&
      spares absolute (pushToken absolute stack token) rest

/-- The stack has the names that are reached, behind as many `..` as lead up, and empty components
between them. -/
def Agrees (stack : List (List Char)) (reached : Reached (List Char)) : Prop :=
  named stack = List.replicate reached.ups ['.', '.'] ++ reached.names ∧
    ∀ name ∈ reached.names, name ≠ ['.', '.']

theorem named_concat (stack : List (List Char)) (part : List Char) :
    named (stack ++ [part]) = named stack ++ if part = [] then [] else [part] := by
  unfold named
  rw [List.filter_append]
  cases part with
  | nil => rfl
  | cons c part => rfl

theorem pushToken_empty_cases (absolute : Bool) (stack : List (List Char)) :
    pushToken absolute stack [] = stack ++ [[]] ∨ pushToken absolute stack [] = stack := by
  unfold pushToken
  rw [if_neg (fun both => absurd both.1 (by decide)), if_pos rfl]
  split
  · exact .inl rfl
  · exact .inr rfl

theorem pushToken_empty (absolute : Bool) (stack : List (List Char)) :
    named (pushToken absolute stack []) = named stack := by
  rcases pushToken_empty_cases absolute stack with eq | eq
  · rw [eq, named_concat]
    exact List.append_nil _
  · rw [eq]

theorem pushToken_dot (absolute : Bool) (stack : List (List Char)) :
    pushToken absolute stack ['.'] = stack := by
  unfold pushToken
  rw [if_neg (fun both => absurd both.1 (by decide)), if_neg (by decide), if_neg (by decide)]

theorem pushToken_name (absolute : Bool) (stack : List (List Char)) {token : List Char}
    (notDots : token ≠ ['.', '.']) (notDot : token ≠ ['.']) (some_ : token ≠ []) :
    pushToken absolute stack token = stack ++ [token] := by
  unfold pushToken
  rw [if_neg (fun both => notDots both.1), if_neg some_, if_pos notDot]

theorem pushToken_dots (absolute : Bool) (stack : List (List Char)) :
    pushToken absolute stack ['.', '.'] =
      if stack ≠ [] ∧ stack.getLast? ≠ some ['.', '.'] then stack.dropLast
      else stack ++ [['.', '.']] := by
  unfold pushToken
  by_cases pops : stack ≠ [] ∧ stack.getLast? ≠ some ['.', '.']
  · rw [if_pos ⟨rfl, pops⟩, if_pos pops]
  · rw [if_neg (fun both => pops both.2), if_neg pops, if_neg (by decide), if_pos (by decide)]

theorem step_dots : step ['.', '.'] = .up := rfl

theorem step_stay {token : List Char} (stay : token = [] ∨ token = ['.']) : step token = .stay := by
  rcases stay with rfl | rfl
  · rfl
  · rfl

theorem step_name {token : List Char} (notDots : token ≠ ['.', '.']) (notDot : token ≠ ['.'])
    (some_ : token ≠ []) : step token = .down token := by
  unfold Path.step
  rw [if_neg notDots, if_neg (fun either => either.elim notDot some_)]

/-- The kinds of components. -/
theorem token_cases (token : List Char) :
    token = ['.', '.'] ∨ token = [] ∨ token = ['.'] ∨
      (token ≠ ['.', '.'] ∧ token ≠ ['.'] ∧ token ≠ []) := by
  by_cases dots : token = ['.', '.']
  · exact .inl dots
  · by_cases empty : token = []
    · exact .inr (.inl empty)
    · by_cases dot : token = ['.']
      · exact .inr (.inr (.inl dot))
      · exact .inr (.inr (.inr ⟨dots, dot, empty⟩))

theorem replicate_concat_dots {n : Nat} {front : List (List Char)} {last : List Char}
    (eq : List.replicate n ['.', '.'] = front ++ [last]) : last = ['.', '.'] := by
  have member : last ∈ List.replicate n ['.', '.'] := by
    rw [eq]
    exact List.mem_append_right _ (List.mem_singleton.mpr rfl)
  exact List.eq_of_mem_replicate member

theorem Agrees.step {absolute : Bool} {stack : List (List Char)} {reached : Reached (List Char)}
    (agrees : Agrees stack reached) (token : List Char)
    (spared : (token == ['.', '.'] && stack.getLast? == some []) = false) :
    Agrees (pushToken absolute stack token) (advance reached (step token)) := by
  obtain ⟨same, valid⟩ := agrees
  rcases token_cases token with rfl | rfl | rfl | ⟨notDots, notDot, some_⟩
  · have full : stack.getLast? ≠ some [] := by
      intro empty
      rw [empty] at spared
      exact absurd spared (by decide)
    rw [pushToken_dots, step_dots]
    rcases List.eq_nil_or_concat' stack with rfl | ⟨front, last, rfl⟩
    · -- nothing is left to take back
      have none : List.replicate reached.ups ['.', '.'] ++ reached.names = [] := same.symm
      obtain ⟨ups, names⟩ := List.append_eq_nil_iff.mp none
      rw [if_neg (fun both => both.1 rfl), advance, if_pos names]
      refine ⟨?_, valid⟩
      rw [names, List.append_nil, List.replicate_succ', ups]
      rfl
    · have filled : last ≠ [] := by
        rintro rfl
        exact full List.getLast?_concat
      rw [named_concat, if_neg filled] at same
      by_cases dots : last = ['.', '.']
      · have none : reached.names = [] := by
          rcases List.eq_nil_or_concat' reached.names with none | ⟨names, name, eq⟩
          · exact none
          · rw [eq, ← List.append_assoc] at same
            obtain ⟨-, last_⟩ := List.append_inj' same rfl
            have member : name ∈ reached.names := by
              rw [eq]
              exact List.mem_append_right _ (List.mem_singleton.mpr rfl)
            exact absurd ((List.singleton_inj.mp last_).symm.trans dots) (valid name member)
        have kept : ¬ (front ++ [last] ≠ [] ∧ (front ++ [last]).getLast? ≠ some ['.', '.']) :=
          fun both => both.2 (by rw [dots, List.getLast?_concat])
        rw [if_neg kept, advance, if_pos none]
        refine ⟨?_, valid⟩
        rw [named_concat, named_concat, if_neg filled, same, none, List.append_nil, List.append_nil,
          List.replicate_succ']
        rfl
      · have pops : front ++ [last] ≠ [] ∧ (front ++ [last]).getLast? ≠ some ['.', '.'] := by
          refine ⟨List.append_ne_nil_of_right_ne_nil _ (List.cons_ne_nil _ _), ?_⟩
          rw [List.getLast?_concat]
          exact fun eq => dots (Option.some.inj eq)
        rw [if_pos pops, List.dropLast_concat]
        rcases List.eq_nil_or_concat' reached.names with none | ⟨names, name, eq⟩
        · rw [none, List.append_nil] at same
          exact absurd (replicate_concat_dots same.symm) dots
        · have more : reached.names ≠ [] := by
            rw [eq]
            exact List.append_ne_nil_of_right_ne_nil _ (List.cons_ne_nil _ _)
          rw [advance, if_neg more]
          refine ⟨?_, fun other member => valid other (List.dropLast_subset _ member)⟩
          rw [eq, ← List.append_assoc] at same
          rw [eq, List.dropLast_concat]
          exact (List.append_inj' same rfl).1
  · rw [step_stay (.inl rfl)]
    exact ⟨(pushToken_empty absolute stack).trans same, valid⟩
  · rw [step_stay (.inr rfl), pushToken_dot]
    exact ⟨same, valid⟩
  · rw [step_name notDots notDot some_, pushToken_name absolute stack notDots notDot some_]
    refine ⟨?_, fun name member => ?_⟩
    · rw [named_concat, if_neg some_, same, List.append_assoc]
      rfl
    · rcases List.mem_append.mp member with before | last
      · exact valid name before
      · rw [List.mem_singleton.mp last]
        exact notDots

theorem Agrees.run {absolute : Bool} {stack : List (List Char)} {reached : Reached (List Char)}
    (agrees : Agrees stack reached) (tokens : List (List Char))
    (spared : spares absolute stack tokens = true) :
    Agrees (tokens.foldl (pushToken absolute) stack)
      ((tokens.map Path.step).foldl advance reached) := by
  induction tokens generalizing stack reached with
  | nil => exact agrees
  | cons token tokens ih =>
    obtain ⟨here, later⟩ := Bool.and_eq_true_iff.mp spared
    exact ih (agrees.step token (Bool.not_eq_true' _ |>.mp here)) later

end Runs

section Levels

/-- How many levels a component leads down. -/
def level (token : List Char) : Int :=
  if token = ['.', '.'] then -1 else if token = [] ∨ token = ['.'] then 0 else 1

@[grind =] def levels : List (List Char) → Int
  | [] => 0
  | token :: tokens => level token + levels tokens

theorem levels_append (first last : List (List Char)) :
    levels (first ++ last) = levels first + levels last := by
  induction first with
  | nil => exact (Int.zero_add _).symm
  | cons token first ih =>
    rw [List.cons_append, levels, levels, ih, Int.add_assoc]

theorem levels_concat (first : List (List Char)) (last : List Char) :
    levels (first ++ [last]) = levels first + level last := by
  rw [levels_append]
  exact congrArg (levels first + ·) (Int.add_zero _)

theorem level_le (token : List Char) : level token ≤ 1 := by
  unfold level
  split
  · decide
  · split
    · decide
    · decide

theorem levels_named (parts : List (List Char)) : levels (named parts) = levels parts := by
  induction parts with
  | nil => rfl
  | cons part parts ih =>
    rw [named_cons]
    by_cases empty : part = []
    · rw [if_pos empty, ih, empty, levels]
      exact (Int.zero_add _).symm
    · rw [if_neg empty, levels, levels, ih]

/-- A walk down from deep enough below the root. -/
theorem walk_levels (tokens names : List (List Char)) (deep : tokens.length ≤ names.length) :
    ((walk names (tokens.map step)).length : Int) = names.length + levels tokens := by
  induction tokens generalizing names with
  | nil => exact (Int.add_zero _).symm
  | cons token tokens ih =>
    rw [List.length_cons] at deep
    show ((walk (move names (step token)) (tokens.map step)).length : Int) = _
    rcases token_cases token with rfl | rfl | rfl | ⟨notDots, notDot, some_⟩
    · have shorter : (move names (step ['.', '.'])).length = names.length - 1 :=
        List.length_dropLast
      have up : level ['.', '.'] = -1 := by decide
      rw [ih _ (by omega), levels, shorter, up]
      omega
    · have stay : level [] = 0 := by decide
      rw [step_stay (.inl rfl), move, ih _ (by omega), levels, stay]
      omega
    · have stay : level ['.'] = 0 := by decide
      rw [step_stay (.inr rfl), move, ih _ (by omega), levels, stay]
      omega
    · have down : level token = 1 := by
        unfold level
        rw [if_neg notDots, if_neg (fun either => either.elim some_ notDot)]
      rw [step_name notDots notDot some_, move, ih _ (by rw [List.length_append]; omega), levels,
        down, List.length_append, List.length_singleton]
      omega

/-- A `..` that takes an empty component back is missing among the levels. -/
theorem levels_pushToken (absolute : Bool) (stack : List (List Char)) (token : List Char) :
    levels stack + level token ≤ levels (pushToken absolute stack token) ∧
      (levels (pushToken absolute stack token) = levels stack + level token →
        (token == ['.', '.'] && stack.getLast? == some []) = false) := by
  rcases token_cases token with rfl | rfl | rfl | ⟨notDots, notDot, some_⟩
  · have up : level ['.', '.'] = -1 := by decide
    rw [pushToken_dots]
    rcases List.eq_nil_or_concat' stack with rfl | ⟨front, last, rfl⟩
    · exact ⟨by decide, fun _ => rfl⟩
    · by_cases pops : front ++ [last] ≠ [] ∧ (front ++ [last]).getLast? ≠ some ['.', '.']
      · have most := level_le last
        rw [if_pos pops, List.dropLast_concat, levels_concat, up, List.getLast?_concat]
        refine ⟨by omega, fun same => ?_⟩
        have one : level last = 1 := by omega
        have filled : last ≠ [] := by
          rintro rfl
          exact absurd one (by decide)
        rw [beq_false_of_ne (fun eq => filled (Option.some.inj eq)), Bool.and_false]
      · rw [if_neg pops, levels_concat _ ['.', '.'], List.getLast?_concat]
        refine ⟨Int.le_refl _, fun _ => ?_⟩
        have dots : last = ['.', '.'] := by
          by_contra other
          refine pops ⟨List.append_ne_nil_of_right_ne_nil _ (List.cons_ne_nil _ _), ?_⟩
          rw [List.getLast?_concat]
          exact fun eq => other (Option.some.inj eq)
        rw [dots]
        rfl
  · have same := pushToken_empty absolute stack
    have equal : levels (pushToken absolute stack []) = levels stack := by
      rw [← levels_named, same, levels_named]
    have stay : level [] = 0 := by decide
    rw [equal, stay]
    exact ⟨by omega, fun _ => rfl⟩
  · have stay : level ['.'] = 0 := by decide
    rw [pushToken_dot, stay]
    exact ⟨by omega, fun _ => rfl⟩
  · rw [pushToken_name absolute stack notDots notDot some_, levels_concat]
    exact ⟨Int.le_refl _, fun _ => by rw [beq_false_of_ne notDots]; rfl⟩

theorem levels_foldl (absolute : Bool) (tokens stack : List (List Char)) :
    levels stack + levels tokens ≤ levels (tokens.foldl (pushToken absolute) stack) ∧
      (levels (tokens.foldl (pushToken absolute) stack) = levels stack + levels tokens →
        spares absolute stack tokens = true) := by
  induction tokens generalizing stack with
  | nil => exact ⟨Int.le_of_eq (Int.add_zero _), fun _ => rfl⟩
  | cons token tokens ih =>
    obtain ⟨least, spared⟩ := ih (pushToken absolute stack token)
    obtain ⟨here, spared'⟩ := levels_pushToken absolute stack token
    rw [List.foldl_cons, levels]
    refine ⟨by omega, fun same => ?_⟩
    unfold spares
    rw [spared' (by omega), spared (by omega)]
    rfl

end Levels

section Root

theorem dropLast_sublist_concat {names front : List (List Char)} {last : List Char}
    (sub : names.Sublist (front ++ [last])) : names.dropLast.Sublist front := by
  rcases List.eq_nil_or_concat' names with rfl | ⟨names, name, rfl⟩
  · exact List.nil_sublist front
  · rw [List.dropLast_concat]
    have reversed := List.reverse_sublist.mpr sub
    rw [List.reverse_append, List.reverse_append] at reversed
    exact List.reverse_sublist.mp (List.Sublist.tail reversed)

theorem pushToken_dots_cases (absolute : Bool) (stack : List (List Char)) :
    (∃ front last, stack = front ++ [last] ∧ last ≠ ['.', '.'] ∧
      pushToken absolute stack ['.', '.'] = front) ∨
    ((stack = [] ∨ ['.', '.'] ∈ stack) ∧
      pushToken absolute stack ['.', '.'] = stack ++ [['.', '.']]) := by
  rw [pushToken_dots]
  rcases List.eq_nil_or_concat' stack with rfl | ⟨front, last, rfl⟩
  · exact .inr ⟨.inl rfl, rfl⟩
  · by_cases dots : last = ['.', '.']
    · refine .inr ⟨.inr ?_, if_neg (fun both => both.2 (by rw [dots, List.getLast?_concat]))⟩
      rw [dots]
      exact List.mem_append_right _ (List.mem_singleton.mpr rfl)
    · refine .inl ⟨front, last, rfl, dots, ?_⟩
      rw [if_pos, List.dropLast_concat]
      refine ⟨List.append_ne_nil_of_right_ne_nil _ (List.cons_ne_nil _ _), ?_⟩
      rw [List.getLast?_concat]
      exact fun eq => dots (Option.some.inj eq)

/-- The names that are reached from the root are on the stack. -/
theorem walk_sublist (absolute : Bool) (tokens : List (List Char)) :
    (walk [] (tokens.map step)).Sublist (named (tokens.foldl (pushToken absolute) [])) := by
  induction tokens using List.reverseRecOn with
  | nil => exact List.Sublist.refl _
  | append_singleton tokens token ih =>
    rw [List.foldl_append, List.foldl_cons, List.foldl_nil, List.map_append, walk_append]
    show (move _ (step token)).Sublist _
    rcases token_cases token with rfl | rfl | rfl | ⟨notDots, notDot, some_⟩
    · rcases pushToken_dots_cases absolute (tokens.foldl (pushToken absolute) []) with
        ⟨front, last, eq, -, popped⟩ | ⟨-, pushed⟩
      · rw [popped]
        rw [eq, named_concat] at ih
        by_cases empty : last = []
        · rw [if_pos empty, List.append_nil] at ih
          exact (List.dropLast_sublist _).trans ih
        · rw [if_neg empty] at ih
          exact dropLast_sublist_concat ih
      · rw [pushed, named_concat]
        exact ((List.dropLast_sublist _).trans ih).trans (List.sublist_append_left _ _)
    · rw [pushToken_empty, step_stay (.inl rfl)]
      exact ih
    · rw [pushToken_dot, step_stay (.inr rfl)]
      exact ih
    · rw [pushToken_name absolute _ notDots notDot some_, named_concat, if_neg some_,
        step_name notDots notDot some_]
      exact ih.append (List.Sublist.refl _)

/-- A `..` stays on the stack above nothing but other ones, or at the bottom. -/
theorem dots_first (absolute : Bool) (tokens : List (List Char))
    (member : ['.', '.'] ∈ tokens.foldl (pushToken absolute) []) :
    (tokens.foldl (pushToken absolute) []).head? = some ['.', '.'] := by
  induction tokens using List.reverseRecOn with
  | nil => exact nomatch member
  | append_singleton tokens token ih =>
    rw [List.foldl_append, List.foldl_cons, List.foldl_nil] at member ⊢
    have longer : ∀ last, ['.', '.'] ∈ tokens.foldl (pushToken absolute) [] →
        (tokens.foldl (pushToken absolute) [] ++ [last]).head? = some ['.', '.'] := by
      intro last there
      rw [List.head?_append_of_ne_nil _ (List.ne_nil_of_mem there)]
      exact ih there
    rcases token_cases token with rfl | rfl | rfl | ⟨notDots, notDot, some_⟩
    · rcases pushToken_dots_cases absolute (tokens.foldl (pushToken absolute) []) with
        ⟨front, last, eq, -, popped⟩ | ⟨either, pushed⟩
      · rw [popped] at member ⊢
        have first := ih (by rw [eq]; exact List.mem_append_left _ member)
        rw [eq, List.head?_append_of_ne_nil _ (List.ne_nil_of_mem member)] at first
        exact first
      · rw [pushed]
        rcases either with empty | there
        · rw [empty]
          rfl
        · exact longer _ there
    · rcases pushToken_empty_cases absolute (tokens.foldl (pushToken absolute) []) with
        pushed | left_
      · rw [pushed] at member ⊢
        rcases List.mem_append.mp member with there | last
        · exact longer _ there
        · exact absurd last (by decide)
      · rw [left_] at member ⊢
        exact ih member
    · rw [pushToken_dot] at member ⊢
      exact ih member
    · rw [pushToken_name absolute _ notDots notDot some_] at member ⊢
      rcases List.mem_append.mp member with there | last
      · exact longer _ there
      · exact absurd (List.mem_singleton.mp last).symm notDots

/-- The stack has at least as many names as are reached from the root, and more from the time on
that an empty component is taken back. -/
theorem step_length {absolute : Bool} {names stack : List (List Char)}
    (order : names.length ≤ (named stack).length) (token : List Char) :
    (move names (step token)).length ≤ (named (pushToken absolute stack token)).length ∧
    (names.length < (named stack).length → named (pushToken absolute stack token) ≠ [] →
      (move names (step token)).length < (named (pushToken absolute stack token)).length) ∧
    ((token == ['.', '.'] && stack.getLast? == some []) = true → named stack ≠ [] →
      (move names (step token)).length < (named (pushToken absolute stack token)).length) := by
  rcases token_cases token with rfl | rfl | rfl | ⟨notDots, notDot, some_⟩
  · have shorter : (move names (step ['.', '.'])).length = names.length - 1 := List.length_dropLast
    rcases pushToken_dots_cases absolute stack with ⟨front, last, rfl, -, popped⟩ | ⟨either, pushed⟩
    · rw [popped, named_concat, shorter]
      rw [named_concat] at order
      by_cases empty : last = []
      · rw [if_pos empty, List.append_nil] at order ⊢
        refine ⟨by omega, fun less _ => by omega, fun _ more => ?_⟩
        have := List.length_pos_iff.mpr more
        omega
      · rw [if_neg empty, List.length_append, List.length_singleton] at order ⊢
        refine ⟨by omega, fun less more => ?_, fun unspared _ => ?_⟩
        · have := List.length_pos_iff.mpr more
          omega
        · rw [List.getLast?_concat, beq_false_of_ne (fun eq => empty (Option.some.inj eq)),
            Bool.and_false] at unspared
          exact nomatch unspared
    · rw [pushed, named_concat, shorter, if_neg (by decide), List.length_append,
        List.length_singleton]
      exact ⟨by omega, fun less _ => by omega, fun _ _ => by omega⟩
  · rw [pushToken_empty, step_stay (.inl rfl)]
    exact ⟨order, fun less _ => less, fun unspared _ => nomatch unspared⟩
  · rw [pushToken_dot, step_stay (.inr rfl)]
    exact ⟨order, fun less _ => less, fun unspared _ => nomatch unspared⟩
  · have longer : (move names (.down token)).length = names.length + 1 := List.length_append
    rw [pushToken_name absolute _ notDots notDot some_, named_concat, if_neg some_,
      step_name notDots notDot some_, longer, List.length_append, List.length_singleton]
    refine ⟨by omega, fun less _ => by omega, fun unspared _ => ?_⟩
    rw [beq_false_of_ne notDots] at unspared
    exact nomatch unspared

theorem spares_of_length {absolute : Bool} {tokens names stack : List (List Char)}
    (order : names.length ≤ (named stack).length)
    (stays : ∀ pre post, tokens = pre ++ post → named (pre.foldl (pushToken absolute) stack) ≠ [])
    (same : (walk names (tokens.map step)).length =
      (named (tokens.foldl (pushToken absolute) stack)).length) :
    spares absolute stack tokens = true ∧ names.length = (named stack).length := by
  induction tokens generalizing names stack with
  | nil => exact ⟨rfl, same⟩
  | cons token tokens ih =>
    obtain ⟨order', strict, unspared⟩ := @step_length absolute names stack order token
    obtain ⟨later, equal⟩ := ih order'
      (fun pre post parts => stays (token :: pre) post (by rw [parts]; rfl)) same
    have here : (token == ['.', '.'] && stack.getLast? == some []) = false := by
      by_contra wasted
      have less := unspared ((Bool.not_eq_false _).mp wasted) (stays [] _ rfl)
      omega
    refine ⟨?_, ?_⟩
    · unfold spares
      rw [here, later]
      rfl
    · by_contra differ
      have less := strict (by omega) (stays [token] tokens rfl)
      omega

/-- What is pushed above empty components, none of which is taken back. -/
theorem run_rooted {tokens stack : List (List Char)} {reached : Reached (List Char)}
    (agrees : Agrees stack reached) (root : stack.head? = some []) (zero : reached.ups = 0)
    (spared : spares true stack tokens = true) :
    (tokens.foldl (pushToken true) stack).head? = some [] ∧
      ((tokens.map step).foldl advance reached).ups = 0 := by
  induction tokens generalizing stack reached with
  | nil => exact ⟨root, zero⟩
  | cons token tokens ih =>
    obtain ⟨here, later⟩ := Bool.and_eq_true_iff.mp spared
    have here := (Bool.not_eq_true' _).mp here
    have longer : ∀ last, (stack ++ [last]).head? = some [] := by
      intro last
      rw [List.head?_append_of_ne_nil _ (fun empty => by rw [empty] at root; exact nomatch root)]
      exact root
    refine ih (agrees.step token here) ?_ ?_ later
    · rcases token_cases token with rfl | rfl | rfl | ⟨notDots, notDot, some_⟩
      · rcases pushToken_dots_cases true stack with ⟨front, last, rfl, -, popped⟩ | ⟨either, pushed⟩
        · rw [popped]
          cases front with
          | nil =>
            rw [List.getLast?_concat, Option.some.inj root] at here
            exact absurd here (by decide)
          | cons first front => exact root
        · rw [pushed]
          exact longer _
      · rcases pushToken_empty_cases true stack with pushed | left_
        · rw [pushed]
          exact longer _
        · rw [left_]
          exact root
      · rw [pushToken_dot]
        exact root
      · rw [pushToken_name true stack notDots notDot some_]
        exact longer _
    · rcases token_cases token with rfl | rfl | rfl | ⟨notDots, notDot, some_⟩
      · rw [step_dots, advance]
        obtain ⟨same, valid⟩ := agrees
        rw [zero, List.replicate_zero, List.nil_append] at same
        rcases pushToken_dots_cases true stack with ⟨front, last, rfl, -, popped⟩ | ⟨either, pushed⟩
        · have filled : last ≠ [] := by
            rintro rfl
            rw [List.getLast?_concat] at here
            exact absurd here (by decide)
          rw [named_concat, if_neg filled] at same
          have more : reached.names ≠ [] := by
            rw [← same]
            exact List.append_ne_nil_of_right_ne_nil _ (List.cons_ne_nil _ _)
          rw [if_neg more]
          exact zero
        · rcases either with rfl | there
          · exact nomatch root
          · have member : ['.', '.'] ∈ named stack := List.mem_filter.mpr ⟨there, by decide⟩
            rw [same] at member
            exact absurd rfl (valid _ member)
      · rw [step_stay (.inl rfl)]
        exact zero
      · rw [step_stay (.inr rfl)]
        exact zero
      · rw [step_name notDots notDot some_]
        exact zero

end Root

section Canonical

/-- The parts of a normalized path. -/
structure Canonical (absolute : Bool) (ups : Nat) (names : List (List Char)) : Prop where
  valid : ∀ name ∈ names, Path.IsName name
  plain : ∀ name ∈ names, ':' ∉ name ∧ '\\' ∉ name
  root : absolute = true → ups = 0 ∧ names ≠ []

/-- As many `..`, and then the names. -/
def body (ups : Nat) (names : List (List Char)) : List (List Char) :=
  List.replicate ups ['.', '.'] ++ names

variable {absolute : Bool} {ups : Nat} {names : List (List Char)}

theorem Canonical.part (canonical : Canonical absolute ups names) {part : List Char}
    (member : part ∈ body ups names) :
    part ≠ [] ∧ part ≠ ['.'] ∧ ∀ c ∈ part, c ≠ ':' ∧ c ≠ '\\' ∧ c ≠ '/' := by
  rcases List.mem_append.mp member with dots | name
  · rw [List.eq_of_mem_replicate dots]
    refine ⟨List.cons_ne_nil _ _, by decide, fun c inside => ?_⟩
    have dot : c = '.' := List.eq_of_mem_replicate (n := 2) inside
    rw [dot]
    decide
  · have valid := canonical.valid part name
    have plain := canonical.plain part name
    refine ⟨valid.nonempty, valid.notDot, fun c inside => ⟨?_, ?_, ?_⟩⟩
    · rintro rfl
      exact plain.1 inside
    · rintro rfl
      exact plain.2 inside
    · rintro rfl
      exact valid.noSlash inside

theorem Canonical.relative (canonical : Canonical absolute ups names)
    (empty : body ups names = []) : absolute = false := by
  by_contra root
  have more := (canonical.root ((Bool.not_eq_false _).mp root)).2
  exact more (List.append_eq_nil_iff.mp empty).2

theorem head_concatSlash {first : List Char} {parts : List (List Char)} (some_ : first ≠ []) :
    (concatSlash (first :: parts)).head? = first.head? := by
  cases parts with
  | nil => rfl
  | cons next parts => exact List.head?_append_of_ne_nil _ some_

theorem Canonical.isAbsolute (canonical : Canonical absolute ups names) :
    isAbsolute (glued absolute (body ups names)) = absolute := by
  unfold glued
  cases absolute with
  | true =>
    have more : body ups names ≠ [] :=
      List.append_ne_nil_of_right_ne_nil _ (canonical.root rfl).2
    rw [if_neg more]
    rfl
  | false =>
    cases eq : body ups names with
    | nil => rfl
    | cons first parts =>
      obtain ⟨some_, -, plain⟩ := canonical.part (by rw [eq]; exact List.mem_cons_self)
      rw [if_neg (List.cons_ne_nil _ _), if_neg Bool.false_ne_true, List.nil_append]
      unfold Path.isAbsolute
      rw [head_concatSlash some_]
      obtain ⟨c, rest, rfl⟩ := List.exists_cons_of_ne_nil some_
      exact decide_eq_false (fun slash => (plain c List.mem_cons_self).2.2 (Option.some.inj slash))

/-- Without the leading slash, if there is one, the components of a normalized path. -/
theorem Canonical.split (canonical : Canonical absolute ups names) :
    splitOnSlash (glued absolute (body ups names)) =
      (if absolute then [[]] else []) ++
        if body ups names = [] then [[]] else body ups names := by
  have noSlash : ∀ part ∈ body ups names, '/' ∉ part :=
    fun part member slash => ((canonical.part member).2.2 _ slash).2.2 rfl
  unfold glued
  by_cases empty : body ups names = []
  · rw [if_pos empty, if_pos empty, canonical.relative empty]
    rfl
  · rw [if_neg empty, if_neg empty]
    have split := Path.splitOnSlash_concat empty noSlash
    cases absolute with
    | true =>
      have rooted := Path.splitOnSlash_append [] (concatSlash (body ups names))
      rw [split] at rooted
      exact rooted
    | false => exact split

theorem steps_body (canonical : Canonical absolute ups names) :
    (body ups names).map step = List.replicate ups .up ++ names.map .down := by
  unfold body
  rw [List.map_append, List.map_replicate, step_dots]
  exact congrArg (List.replicate ups .up ++ ·)
    (List.map_congr_left fun name member => (canonical.valid name member).step)

theorem Canonical.reach (canonical : Canonical absolute ups names) :
    reach (steps (glued absolute (body ups names))) = ⟨ups, names⟩ := by
  have body_ := (congrArg PathSteps.reach (steps_body canonical)).trans (reach_ups_names ups names)
  unfold steps
  rw [canonical.split]
  by_cases empty : body ups names = []
  · rw [if_pos empty]
    rw [empty] at body_
    rw [← body_]
    cases absolute with
    | true => rfl
    | false => rfl
  · rw [if_neg empty]
    cases absolute with
    | true => exact body_
    | false => exact body_

/-- The components of a normalized path are pushed one by one. -/
theorem foldl_body (canonical : Canonical absolute ups names) (flag : Bool)
    (base : List (List Char)) (bottom : base = [] ∨ ups = 0) :
    (body ups names).foldl (pushToken flag) base = base ++ body ups names := by
  have dots : ∀ n, (List.replicate n ['.', '.']).foldl (pushToken flag) [] =
      List.replicate n ['.', '.'] := by
    intro n
    induction n with
    | zero => rfl
    | succ n ih =>
      rw [List.replicate_succ', List.foldl_append, ih, List.foldl_cons, List.foldl_nil,
        pushToken_dots, if_neg]
      rintro ⟨some_, other⟩
      cases n with
      | zero => exact some_ rfl
      | succ n =>
        rw [List.replicate_succ', List.getLast?_concat] at other
        exact other rfl
  have down : ∀ names : List (List Char), (∀ name ∈ names, Path.IsName name) → ∀ stack,
      names.foldl (pushToken flag) stack = stack ++ names := by
    intro names valid
    induction names with
    | nil => exact fun stack => (List.append_nil stack).symm
    | cons name names ih =>
      intro stack
      have first := valid name List.mem_cons_self
      rw [List.foldl_cons, pushToken_name flag stack first.notDots first.notDot first.nonempty,
        ih (fun other member => valid other (List.mem_cons_of_mem _ member)), List.append_assoc]
      rfl
  unfold body
  rw [List.foldl_append]
  rcases bottom with rfl | rfl
  · rw [dots, down names canonical.valid]
    rfl
  · exact down names canonical.valid base

theorem of_mem_concatSlash {c : Char} {parts : List (List Char)} (member : c ∈ concatSlash parts) :
    c = '/' ∨ ∃ part ∈ parts, c ∈ part := by
  induction parts with
  | nil => exact nomatch member
  | cons first parts ih =>
    cases parts with
    | nil => exact .inr ⟨first, List.mem_cons_self, member⟩
    | cons next parts =>
      rw [Path.concatSlash_cons first (List.cons_ne_nil next parts)] at member
      rcases List.mem_append.mp member with inside | behind
      · exact .inr ⟨first, List.mem_cons_self, inside⟩
      · rcases List.mem_cons.mp behind with slash | later
        · exact .inl slash
        · rcases ih later with slash | ⟨part, there, inside⟩
          · exact .inl slash
          · exact .inr ⟨part, List.mem_cons_of_mem _ there, inside⟩

theorem Canonical.char (canonical : Canonical absolute ups names) {c : Char}
    (member : c ∈ glued absolute (body ups names)) : c ≠ ':' ∧ c ≠ '\\' := by
  have parts : c = '/' ∨ c ∈ concatSlash (body ups names) := by
    unfold glued at member
    split at member
    · exact nomatch member
    · rcases List.mem_append.mp member with slash | inside
      · cases absolute with
        | true => exact .inl (List.mem_singleton.mp slash)
        | false => exact nomatch slash
      · exact .inr inside
  have slash : c = '/' → c ≠ ':' ∧ c ≠ '\\' := by
    rintro rfl
    decide
  rcases parts with eq | inside
  · exact slash eq
  · rcases of_mem_concatSlash inside with eq | ⟨part, there, inside⟩
    · exact slash eq
    · have plain := (canonical.part there).2.2 c inside
      exact ⟨plain.1, plain.2.1⟩

theorem named_body (canonical : Canonical absolute ups names) :
    named (body ups names) = body ups names := by
  refine List.filter_eq_self.mpr fun part member => ?_
  obtain ⟨c, rest, rfl⟩ := List.exists_cons_of_ne_nil (canonical.part member).1
  rfl

theorem Canonical.normalize (canonical : Canonical absolute ups names) :
    normalize (glued absolute (body ups names)) = glued absolute (body ups names) := by
  have same : slashed (glued absolute (body ups names)) = glued absolute (body ups names) :=
    slashed_eq fun back => (canonical.char back).2 rfl
  have other : glued absolute (body ups names) ≠ ['/'] := by
    intro slash
    have split := canonical.split
    have parts : splitOnSlash ['/'] = [[], []] := rfl
    rw [slash, parts] at split
    have none : [] ∉ body ups names := fun member => (canonical.part member).1 rfl
    by_cases empty : body ups names = []
    · rw [if_pos empty, canonical.relative empty] at split
      exact absurd split (by decide)
    · rw [if_neg empty] at split
      cases absolute with
      | true =>
        have same : [[]] = body ups names := (List.cons.inj split).2
        exact none (same ▸ List.mem_cons_self)
      | false =>
        have same : [[], []] = body ups names := split
        exact none (same ▸ List.mem_cons_self)
  have pushed : target (glued absolute (body ups names)) =
      (if absolute then [[]] else []) ++ body ups names := by
    unfold target
    rw [canonical.split, canonical.isAbsolute, List.foldl_append]
    by_cases empty : body ups names = []
    · rw [if_pos empty, empty, canonical.relative empty]
      rfl
    · rw [if_neg empty]
      cases absolute with
      | true => exact foldl_body canonical true [[]] (.inr (canonical.root rfl).1)
      | false => exact foldl_body canonical false [] (.inl rfl)
  have noColon : ':' ∉ glued absolute (body ups names) := fun colon => (canonical.char colon).1 rfl
  have normal := normalize_eq noColon (by rw [same]; exact other)
  rw [same, pushed] at normal
  rw [normal]
  cases absolute with
  | true =>
    have root : named ([[]] ++ body ups names) = body ups names := named_body canonical
    exact congrArg (glued true) root
  | false =>
    have open_ : rooted (body ups names) = false := by
      cases eq : body ups names with
      | nil => rfl
      | cons first parts =>
        have some_ := (canonical.part (by rw [eq]; exact List.mem_cons_self)).1
        exact beq_false_of_ne (fun same => some_ (Option.some.inj same))
    show glued (rooted (body ups names)) (named (body ups names)) = _
    rw [open_, named_body canonical]

end Canonical

section Colons

theorem collapse_concat (pre : List Char) (c : Char) :
    collapse (pre ++ [c]) = collapseStep (collapse pre) c := by
  unfold collapse
  rw [List.foldl_append]
  rfl

theorem collapse_colon (pre : List Char) :
    (collapse pre).colon = true ↔ pre.getLast? = some ':' := by
  induction pre using List.reverseRecOn with
  | nil => exact iff_of_false Bool.false_ne_true (fun last => nomatch last)
  | append_singleton pre c ih =>
    rw [collapse_concat, List.getLast?_concat]
    unfold collapseStep
    by_cases colon : c = ':'
    · rw [if_pos colon, colon]
      exact ⟨fun _ => rfl, fun _ => rfl⟩
    · rw [if_neg colon]
      have other : ¬ some c = some ':' := fun eq => colon (Option.some.inj eq)
      by_cases slash : c = '/' ∧ (collapse pre).colon = false
      · rw [if_pos slash, slash.2]
        exact iff_of_false Bool.false_ne_true other
      · rw [if_neg slash]
        exact iff_of_false Bool.false_ne_true other

/-- A slash is pending behind a slash that does not follow a colon, and colons. -/
theorem pending_slash {pre : List Char} (pending : (collapse pre).slashes = true) :
    ∃ q j, pre = q ++ '/' :: List.replicate j ':' ∧ q.getLast? ≠ some ':' := by
  induction pre using List.reverseRecOn with
  | nil => exact nomatch pending
  | append_singleton pre c ih =>
    rw [collapse_concat] at pending
    unfold collapseStep at pending
    by_cases colon : c = ':'
    · rw [if_pos colon] at pending
      obtain ⟨q, j, rfl, other⟩ := ih pending
      refine ⟨q, j + 1, ?_, other⟩
      rw [colon, List.replicate_succ', List.append_assoc]
      rfl
    · rw [if_neg colon] at pending
      by_cases slash : c = '/' ∧ (collapse pre).colon = false
      · refine ⟨pre, 0, by rw [slash.1]; rfl, fun last => ?_⟩
        have colon := (collapse_colon pre).mpr last
        rw [slash.2] at colon
        exact nomatch colon
      · rw [if_neg slash] at pending
        exact nomatch pending

theorem collapse_slash {q : List Char} (other : q.getLast? ≠ some ':') :
    (collapse (q ++ ['/'])).slashes = true := by
  have noColon : (collapse q).colon = false := by
    by_contra colon
    exact other ((collapse_colon q).mp ((Bool.not_eq_false _).mp colon))
  rw [collapse_concat, collapseStep, if_neg (by decide), if_pos ⟨rfl, noColon⟩]

/-- Colons are written at once, whatever is pending. -/
theorem foldl_colons {rest : List Char} (colons : ∀ c ∈ rest, c = ':') (s : Collapsing) :
    (rest.foldl collapseStep s).acc = s.acc ++ rest ∧
      (rest.foldl collapseStep s).slashes = s.slashes := by
  induction rest generalizing s with
  | nil => exact ⟨(List.append_nil _).symm, rfl⟩
  | cons c rest ih =>
    have colon := colons c List.mem_cons_self
    obtain ⟨acc, slashes⟩ := ih (fun d member => colons d (List.mem_cons_of_mem _ member))
      (collapseStep s c)
    rw [List.foldl_cons, acc, slashes, collapseStep, if_pos colon, colon, List.append_assoc]
    exact ⟨rfl, rfl⟩

/-- A slash is pending while a colon is written, and is written itself at a later character. -/
def Overtakes (tmp : List Char) : Prop :=
  ∃ pre mid c post, tmp = pre ++ ':' :: (mid ++ c :: post) ∧ (collapse pre).slashes = true ∧
    (collapse (pre ++ ':' :: mid)).slashes = true ∧
    (collapse (pre ++ ':' :: (mid ++ [c]))).slashes = false

/-- A component begins with a colon only behind one that ends with a colon, or if nothing but
colons follows. -/
def ColonsLast (tmp : List Char) : Prop :=
  ∀ q rest, tmp = q ++ '/' :: ':' :: rest → q.getLast? = some ':' ∨ ∀ c ∈ rest, c = ':'

theorem replicate_colon (j : Nat) (rest : List Char) :
    List.replicate j ':' ++ ':' :: rest = ':' :: (List.replicate j ':' ++ rest) := by
  induction j with
  | zero => rfl
  | succ j ih => rw [List.replicate_succ, List.cons_append, ih, List.cons_append]

theorem ColonsLast.behind {tmp pre rest : List Char} (last : ColonsLast tmp)
    (split : tmp = pre ++ ':' :: rest) (pending : (collapse pre).slashes = true) :
    ∀ c ∈ rest, c = ':' := by
  obtain ⟨q, j, rfl, other⟩ := pending_slash pending
  rw [List.append_assoc, List.cons_append, replicate_colon] at split
  have all := (last q _ split).resolve_left other
  exact fun c member => all c (List.mem_append_right _ member)

theorem first_other {rest : List Char} (more : ¬ ∀ c ∈ rest, c = ':') :
    ∃ j c post, rest = List.replicate j ':' ++ c :: post ∧ c ≠ ':' := by
  induction rest with
  | nil => exact absurd (fun c member => nomatch member) more
  | cons c rest ih =>
    by_cases colon : c = ':'
    · have later : ¬ ∀ c ∈ rest, c = ':' := by
        intro all
        refine more fun d member => ?_
        rcases List.mem_cons.mp member with rfl | inside
        · exact colon
        · exact all d inside
      obtain ⟨j, d, post, rfl, other⟩ := ih later
      exact ⟨j + 1, d, post, by rw [colon]; rfl, other⟩
    · exact ⟨0, c, rest, rfl, colon⟩

theorem overtakes_iff (tmp : List Char) : ¬ Overtakes tmp ↔ ColonsLast tmp := by
  constructor
  · intro stays q rest split
    by_contra neither
    rw [not_or] at neither
    obtain ⟨other, more⟩ := neither
    obtain ⟨j, c, post, rfl, noColon⟩ := first_other more
    have colons : ∀ d ∈ ':' :: List.replicate j ':', d = ':' := by
      intro d member
      rcases List.mem_cons.mp member with eq | inside
      · exact eq
      · exact List.eq_of_mem_replicate inside
    have pending := collapse_slash other
    have later : (collapse (q ++ ['/'] ++ ':' :: List.replicate j ':')).slashes = true := by
      unfold collapse at pending ⊢
      rw [List.foldl_append, (foldl_colons colons _).2]
      exact pending
    have colon : (collapse (q ++ ['/'] ++ ':' :: List.replicate j ':')).colon = true := by
      refine (collapse_colon _).mpr ?_
      rw [← List.replicate_succ, List.replicate_succ', ← List.append_assoc, List.getLast?_concat]
    refine stays ⟨q ++ ['/'], List.replicate j ':', c, post, ?_, pending, later, ?_⟩
    · rw [split, List.append_assoc]
      rfl
    · rw [← List.cons_append, ← List.append_assoc, collapse_concat, collapseStep, if_neg noColon,
        if_neg (fun both => by rw [colon] at both; exact nomatch both.2)]
  · rintro last ⟨pre, mid, c, post, split, pending, still, written⟩
    have colon : c = ':' :=
      last.behind split pending c (List.mem_append_right mid List.mem_cons_self)
    rw [← List.cons_append, ← List.append_assoc, collapse_concat, collapseStep, if_pos colon,
      still] at written
    exact nomatch written

theorem collapse_sublist {tmp : List Char} (last : ColonsLast tmp) :
    (collapse tmp).acc.Sublist tmp := by
  -- what is written and the slash that is pending come from the text so far
  have from_ : ∀ rest pre, tmp = pre ++ rest →
      ((collapse pre).acc ++ if (collapse pre).slashes then ['/'] else []).Sublist pre →
        (rest.foldl collapseStep (collapse pre)).acc.Sublist tmp := by
    intro rest
    induction rest with
    | nil =>
      intro pre split kept
      rw [split, List.append_nil]
      exact (List.sublist_append_left _ _).trans kept
    | cons c rest ih =>
      intro pre split kept
      have acc := (List.sublist_append_left (collapse pre).acc _).trans kept
      have next := ih (pre ++ [c]) (by rw [split, List.append_assoc]; rfl)
      rw [collapse_concat] at next
      rw [List.foldl_cons]
      by_cases colon : c = ':'
      · by_cases pending : (collapse pre).slashes = true
        · have colons : ∀ d ∈ c :: rest, d = ':' := by
            intro d member
            rcases List.mem_cons.mp member with eq | behind
            · exact eq.trans colon
            · rw [colon] at split
              exact last.behind split pending d behind
          rw [← List.foldl_cons, (foldl_colons colons _).1, split]
          exact acc.append (List.Sublist.refl _)
        · refine next ?_
          rw [collapseStep, if_pos colon, if_neg pending, List.append_nil, colon]
          exact acc.append (List.Sublist.refl _)
      · refine next ?_
        rw [collapseStep, if_neg colon]
        by_cases slash : c = '/' ∧ (collapse pre).colon = false
        · rw [if_pos slash, slash.1]
          exact acc.append (List.Sublist.refl _)
        · have written : (if (collapse pre).slashes then (collapse pre).acc ++ ['/']
              else (collapse pre).acc).Sublist pre := by
            cases pending : (collapse pre).slashes with
            | true =>
              rw [pending] at kept
              exact kept
            | false => exact acc
          rw [if_neg slash, if_neg Bool.false_ne_true, List.append_nil]
          exact written.append (List.Sublist.refl _)
  exact from_ tmp [] rfl (List.Sublist.refl _)

theorem concatSlash_sublist {parts parts' : List (List Char)} (sub : parts.Sublist parts') :
    (concatSlash parts).Sublist (concatSlash parts') := by
  induction sub with
  | slnil => exact List.Sublist.refl _
  | @cons parts parts' part sub ih =>
    cases parts' with
    | nil =>
      rw [List.sublist_nil.mp sub]
      exact List.nil_sublist _
    | cons next parts' =>
      rw [Path.concatSlash_cons part (List.cons_ne_nil next parts')]
      exact (ih.cons '/').trans (List.sublist_append_right _ _)
  | @cons_cons parts parts' part sub ih =>
    cases parts with
    | nil =>
      cases parts' with
      | nil => exact List.Sublist.refl _
      | cons next parts' =>
        rw [Path.concatSlash_cons part (List.cons_ne_nil next parts')]
        exact List.sublist_append_left _ _
    | cons first parts =>
      have more : parts' ≠ [] := by
        rintro rfl
        exact nomatch sub
      rw [Path.concatSlash_cons part more,
        Path.concatSlash_cons part (List.cons_ne_nil first parts)]
      exact (List.Sublist.refl _).append (ih.cons_cons '/')

/-- The loop over the components takes characters out. -/
theorem target_sublist (path : List Char) : (concatSlash (target path)).Sublist path := by
  have kept := concatSlash_sublist (foldl_sublist (isAbsolute path) (splitOnSlash path))
  rw [Path.concatSlash_split] at kept
  exact kept

end Colons

end Haxe.Source.IoPath
