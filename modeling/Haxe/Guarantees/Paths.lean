import Haxe.Source.Core.Path
import Haxe.Source.Std.IoPath

/-!
# Canonical file keys

Splitting a path always resolves it. What the scan lets pass is made absolute without a look at
the current directory, and there the root is missed.
-/

namespace Haxe.Source.Path

open Theory PathSteps

/-- The paths that `get_full_path` resolves: below the root every one, and at the root those
that are not a current directory followed by a slash and names. -/
def Resolvable (l : Location) (f : List Char) : Prop :=
  l.names ≠ [] ∨ f = [] ∨ isAbsolute f = true ∨ isNormal f = false

instance (l : Location) (f : List Char) : Decidable (Resolvable l f) :=
  inferInstanceAs (Decidable (_ ∨ _ ∨ _ ∨ _))

/-- What the keys of two paths promise. -/
structure KeysAgree (l : Location) (f f' : List Char) : Prop where
  resolved : getFullPath l.path f = (l.resolve f).path
  resolved' : getFullPath l.path f' = (l.resolve f').path
  same : l.resolve f = l.resolve f' → UniqueKey.create l.path f = UniqueKey.create l.path f'

theorem isNormal_iff {f : List Char} :
    isNormal f = true ↔ hasTrailingSlash f = false ∧ hasDotsOrDoubleSlash f 0 = false := by
  simp [isNormal]

/-- Past a leading slash the scan goes on. -/
theorem clean_behind_slash {rest : List Char}
    (clean : hasDotsOrDoubleSlash ('/' :: rest) 0 = false) :
    hasDotsOrDoubleSlash ('/' :: rest) 1 = false := by
  have skip : skipPastSlash ('/' :: rest) 0 = 1 := by
    rw [skipPastSlash]
    rfl
  rw [hasDotsOrDoubleSlash, dif_neg (by simp), skip] at clean
  split at clean
  · cases clean
  · exact clean

theorem resolve_absolute (l : Location) {rest : List Char}
    (names : ∀ part ∈ splitOnSlash rest, IsName part) :
    (l.resolve ('/' :: rest)).names = splitOnSlash rest := by
  have absolute : isAbsolute ('/' :: rest) = true := rfl
  have walked := walk_steps_slash [] rest
  rw [Location.resolve]
  dsimp only
  rw [if_pos absolute, walked, steps, walk_names [] names, List.nil_append]

theorem resolve_relative (l : Location) {f : List Char} (relative : isAbsolute f = false)
    (names : ∀ part ∈ splitOnSlash f, IsName part) :
    (l.resolve f).names = l.names ++ splitOnSlash f := by
  rw [Location.resolve]
  dsimp only
  rw [if_neg (Bool.eq_false_iff.mp relative), steps, walk_names _ names]

/-- The components of a relative path that the scan lets pass are names. -/
theorem names_of_relative {f : List Char} (nonempty : f ≠ []) (relative : isAbsolute f = false)
    (normal : isNormal f = true) : ∀ part ∈ splitOnSlash f, IsName part := by
  obtain ⟨open_, clean⟩ := isNormal_iff.mp normal
  have other : f[0]? ≠ some '/' := by
    rw [← List.head?_eq_getElem?]
    exact fun slash => Bool.eq_false_iff.mp relative (decide_eq_true slash)
  exact isName_of_scan (List.length_pos_iff.mpr nonempty) (.inr other) open_ clean

theorem getFullPath_empty (l : Location) : getFullPath l.path [] = (l.resolve []).path := by
  have normal : isNormal [] = true := by
    rw [isNormal_iff, hasDotsOrDoubleSlash]
    exact ⟨rfl, rfl⟩
  rw [getFullPath, if_pos normal]
  rfl

theorem getFullPath_absolute (l : Location) {rest : List Char}
    (normal : isNormal ('/' :: rest) = true) :
    getFullPath l.path ('/' :: rest) = (l.resolve ('/' :: rest)).path := by
  obtain ⟨open_, clean⟩ := isNormal_iff.mp normal
  have more : 1 < ('/' :: rest).length := by
    cases rest with
    | nil => cases open_
    | cons c rest => simp
  have names : ∀ part ∈ splitOnSlash rest, IsName part :=
    isName_of_scan more (.inl Nat.one_pos) open_ (clean_behind_slash clean)
  have resolved : (l.resolve ('/' :: rest)).path = '/' :: rest := by
    rw [Location.path, resolve_absolute l names, concatSlash_split]
  rw [getFullPath, if_pos normal, resolved]
  rfl

theorem absolutePath_relative {getcwd f : List Char} (nonempty : f ≠ [])
    (relative : isAbsolute f = false) : absolutePath getcwd f = getcwd ++ '/' :: f := by
  rw [absolutePath, if_neg (Bool.eq_false_iff.mp relative), if_neg nonempty]

theorem getFullPath_relative {l : Location} {f : List Char} (below : l.names ≠ [])
    (nonempty : f ≠ []) (relative : isAbsolute f = false) (normal : isNormal f = true) :
    getFullPath l.path f = (l.resolve f).path := by
  have resolved := resolve_relative l relative (names_of_relative nonempty relative normal)
  rw [getFullPath, if_pos normal, absolutePath_relative nonempty relative, Location.path,
    Location.path, resolved, concatSlash_append below (splitOnSlash_ne_nil f), concatSlash_split,
    List.cons_append]

/-- At the root the path gets two slashes. -/
theorem getFullPath_root {l : Location} {f : List Char} (root : l.names = [])
    (nonempty : f ≠ []) (relative : isAbsolute f = false) (normal : isNormal f = true) :
    getFullPath l.path f = '/' :: '/' :: f ∧ (l.resolve f).path = '/' :: f := by
  have resolved := resolve_relative l relative (names_of_relative nonempty relative normal)
  constructor
  · rw [getFullPath, if_pos normal, absolutePath_relative nonempty relative, Location.path, root]
    rfl
  · rw [Location.path, resolved, root, List.nil_append, concatSlash_split]

theorem getFullPath_iff (l : Location) (f : List Char) :
    getFullPath l.path f = (l.resolve f).path ↔ Resolvable l f := by
  by_cases normal : isNormal f = true
  · by_cases nonempty : f = []
    · subst nonempty
      exact iff_of_true (getFullPath_empty l) (.inr (.inl rfl))
    · by_cases absolute : isAbsolute f = true
      · refine iff_of_true ?_ (.inr (.inr (.inl absolute)))
        cases f with
        | nil => exact getFullPath_empty l
        | cons c rest =>
          have slash : c = '/' := Option.some.inj (of_decide_eq_true absolute)
          subst slash
          exact getFullPath_absolute l normal
      · have relative := Bool.eq_false_iff.mpr absolute
        by_cases root : l.names = []
        · obtain ⟨got, wanted⟩ := getFullPath_root root nonempty relative normal
          have differ : getFullPath l.path f ≠ (l.resolve f).path := by
            rw [got, wanted]
            exact fun same => List.cons_ne_self '/' f (List.cons.inj same).2
          have missed : ¬Resolvable l f := by
            simp [Resolvable, root, nonempty, absolute, normal]
          exact iff_of_false differ missed
        · exact iff_of_true (getFullPath_relative root nonempty relative normal) (.inl root)
  · have split := Bool.eq_false_iff.mpr normal
    exact iff_of_true (getFullPath_split l split) (.inr (.inr (.inr split)))

/-- Keys are canonical exactly where both paths are resolved. -/
theorem keysAgree_iff (l : Location) (f f' : List Char) :
    KeysAgree l f f' ↔ Resolvable l f ∧ Resolvable l f' := by
  constructor
  · intro agree
    exact ⟨(getFullPath_iff l f).mp agree.resolved, (getFullPath_iff l f').mp agree.resolved'⟩
  · rintro ⟨first, second⟩
    have resolved := (getFullPath_iff l f).mpr first
    have resolved' := (getFullPath_iff l f').mpr second
    refine ⟨resolved, resolved', fun same => ?_⟩
    rw [UniqueKey.create, UniqueKey.create, resolved, resolved', same]

def Location.root : Location := ⟨[], fun _ member => absurd member List.not_mem_nil⟩

/-- At the root `a` and `./a` are one file under two keys. -/
theorem keys_differ_at_root :
    ¬∀ (l : Location) (f f' : List Char), KeysAgree l f f' := by
  intro always
  have resolved := (always .root ['a'] ['.', '/', 'a']).resolved
  have normal : isNormal ['a'] = true := by
    simp [isNormal, hasTrailingSlash, hasDotsOrDoubleSlash, startsDotsOrSlash, skipPastSlash]
  obtain ⟨got, wanted⟩ := getFullPath_root (l := .root) rfl (List.cons_ne_nil 'a' []) rfl normal
  rw [got, wanted] at resolved
  cases resolved

end Haxe.Source.Path

/-!
# Normalized paths

`normalize` leaves a path what it is where no `..` takes an empty component back, and a colon
where it is where none begins a component.
-/

namespace Haxe.Source.IoPath

open Theory PathSteps
open Source.Path (splitOnSlash concatSlash isAbsolute steps step Location IsName)

/-- The components of a path; the empty path and the root have none. -/
def components (f : List Char) : List (List Char) :=
  let parts := if isAbsolute f then (splitOnSlash f).drop 1 else splitOnSlash f
  if parts = [[]] then [] else parts

/-- What the normalized path of a path without colons is to be. -/
structure Denotes (path : List Char) : Prop where
  located : ∀ l : Location, l.resolve (normalize path) = l.resolve (slashed path)
  absolute : isAbsolute (normalize path) = isAbsolute (slashed path)
  clean : ∀ part ∈ components (normalize path), part ≠ [] ∧ part ≠ ['.']
  dotsFirst : ∀ front back, components (normalize path) = front ++ ['.', '.'] :: back →
    ∀ part ∈ front, part = ['.', '.']
  idempotent : normalize (normalize path) = normalize path

/-- Empty components are on the stack, and nothing else. -/
def OnlyEmpty (stack : List (List Char)) : Prop := stack ≠ [] ∧ ∀ part ∈ stack, part = []

/-- No `..` meets an empty component; on an absolute path, which does not lead to the root, from a
time on when there are only empty ones. -/
def Spared (path : List Char) : Prop :=
  slashed path = ['/'] ∨
  (isAbsolute (slashed path) = false ∧ spares false [] (splitOnSlash (slashed path)) = true) ∨
  (isAbsolute (slashed path) = true ∧ walk [] (steps (slashed path)) ≠ [] ∧
    ∃ before after, splitOnSlash (slashed path) = before ++ after ∧
      OnlyEmpty (before.foldl (pushToken true) []) ∧
      spares true (before.foldl (pushToken true) []) after = true)

section Written

variable {absolute : Bool} {ups : Nat} {names : List (List Char)} {path : List Char}

theorem components_canonical (canonical : Canonical absolute ups names) :
    components (glued absolute (body ups names)) = body ups names := by
  have parts : (if absolute then (splitOnSlash (glued absolute (body ups names))).drop 1
      else splitOnSlash (glued absolute (body ups names))) =
        if body ups names = [] then [[]] else body ups names := by
    rw [canonical.split]
    cases absolute with
    | true => rfl
    | false => rfl
  unfold components
  dsimp only
  rw [canonical.isAbsolute, parts]
  by_cases empty : body ups names = []
  · rw [if_pos empty, empty]
    rfl
  · have other : body ups names ≠ [[]] := fun same =>
      (canonical.part (by rw [same]; exact List.mem_cons_self)).1 rfl
    rw [if_neg empty, if_neg other]

theorem dots_in_front (valid : ∀ name ∈ names, IsName name) {front back : List (List Char)}
    (split : body ups names = front ++ ['.', '.'] :: back) :
    ∀ part ∈ front, part = ['.', '.'] := by
  intro part member
  rcases List.append_eq_append_iff.mp split with ⟨more, -, eq⟩ | ⟨more, eq, -⟩
  · have dots : ['.', '.'] ∈ names := by
      rw [eq]
      exact List.mem_append_right _ List.mem_cons_self
    exact absurd rfl (valid _ dots).notDots
  · refine List.eq_of_mem_replicate (n := ups) ?_
    rw [eq]
    exact List.mem_append_left _ member

theorem denotes_of_canonical (canonical : Canonical absolute ups names)
    (written : normalize path = glued absolute (body ups names))
    (same : isAbsolute (slashed path) = absolute)
    (leads : ∀ start, (absolute = true → start = []) →
      walk start (steps (slashed path)) = above start ups ++ names) : Denotes path where
  located := by
    intro l
    have start : absolute = true → (if absolute then [] else l.names) = [] :=
      fun root => if_pos root
    refine Location.ext ?_
    show walk (if isAbsolute (normalize path) then [] else l.names) (steps (normalize path)) =
      walk (if isAbsolute (slashed path) then [] else l.names) (steps (slashed path))
    rw [same, leads _ start, written, canonical.isAbsolute, walk_reach, canonical.reach]
  absolute := by rw [written, canonical.isAbsolute, same]
  clean := by
    rw [written, components_canonical canonical]
    exact fun part member => ⟨(canonical.part member).1, (canonical.part member).2.1⟩
  dotsFirst := by
    rw [written, components_canonical canonical]
    exact fun front back => dots_in_front canonical.valid
  idempotent := by rw [written, canonical.normalize]

end Written

section Kept

variable {path : List Char}

/-- The names that a path leads to from the root are among its components. -/
theorem walk_valid (noColon : ':' ∉ path) :
    ∀ name ∈ walk [] (steps (slashed path)), IsName name ∧ ':' ∉ name ∧ '\\' ∉ name := by
  refine walk_all (fun name member => nomatch member) fun name down => ?_
  obtain ⟨part, inside, leads⟩ := List.mem_map.mp down
  have same : part = name := by
    unfold Path.step at leads
    split at leads
    · cases leads
    · split at leads
      · cases leads
      · exact Step.down.inj leads
  obtain rfl := same
  exact ⟨Path.isName_of_down (Path.noSlash_of_mem part inside) leads,
    fun colon => slashed_noColon noColon (mem_of_part inside colon),
    fun back => slashed_noBackslash path (mem_of_part inside back)⟩

/-- On a relative path no empty component is pushed at the bottom. -/
theorem rooted_relative (tokens : List (List Char)) :
    rooted (tokens.foldl (pushToken false) []) = false := by
  have first : (tokens.foldl (pushToken false) []).head? ≠ some [] := by
    induction tokens using List.reverseRecOn with
    | nil => exact fun none => nomatch none
    | append_singleton tokens token ih =>
      rw [List.foldl_append, List.foldl_cons, List.foldl_nil]
      generalize tokens.foldl (pushToken false) [] = stack at ih ⊢
      cases stack with
      | nil =>
        by_cases empty : token = []
        · rw [empty]
          exact fun none => nomatch none
        · intro head
          rcases pushToken_like false [] token with pushed | popped | left_
          · rw [pushed] at head
            exact empty (Option.some.inj head)
          · rw [popped] at head
            exact nomatch head
          · rw [left_] at head
            exact nomatch head
      | cons part stack =>
        rcases pushToken_like false (part :: stack) token with pushed | popped | left_
        · rw [pushed]
          exact ih
        · rw [popped]
          cases stack with
          | nil => exact fun none => nomatch none
          | cons next stack => exact ih
        · rw [left_]
          exact ih
  exact beq_false_of_ne first

theorem denotes_relative (noColon : ':' ∉ path) (other : slashed path ≠ ['/'])
    (relative : isAbsolute (slashed path) = false)
    (spared : spares false [] (splitOnSlash (slashed path)) = true) : Denotes path := by
  have start : Agrees [] ⟨0, []⟩ := ⟨rfl, fun name member => nomatch member⟩
  obtain ⟨same, -⟩ := start.run _ spared
  have names : walk [] (steps (slashed path)) = (reach (steps (slashed path))).names := by
    rw [walk_reach, above_nil, List.nil_append]
  have valid := walk_valid noColon
  rw [names] at valid
  have canonical : Canonical false (reach (steps (slashed path))).ups
      (reach (steps (slashed path))).names :=
    ⟨fun name member => (valid name member).1, fun name member => (valid name member).2,
      fun no => nomatch no⟩
  refine denotes_of_canonical canonical ?_ relative fun start _ => walk_reach start _
  rw [normalize_eq noColon other, target, relative, rooted_relative]
  exact congrArg (glued false) same

theorem named_empty {stack : List (List Char)} (empty : ∀ part ∈ stack, part = []) :
    named stack = [] := by
  refine List.filter_eq_nil_iff.mpr fun part member => ?_
  rw [empty part member]
  decide

/-- Below empty components the walk is at the root. -/
theorem walk_empty {absolute : Bool} {tokens : List (List Char)}
    (empty : ∀ part ∈ tokens.foldl (pushToken absolute) [], part = []) :
    walk [] (tokens.map step) = [] := by
  have sub := walk_sublist absolute tokens
  rw [named_empty empty] at sub
  exact List.sublist_nil.mp sub

theorem denotes_absolute (noColon : ':' ∉ path) (other : slashed path ≠ ['/'])
    (absolute : isAbsolute (slashed path) = true) (below : walk [] (steps (slashed path)) ≠ [])
    {before after : List (List Char)} (split : splitOnSlash (slashed path) = before ++ after)
    (empty : OnlyEmpty (before.foldl (pushToken true) []))
    (spared : spares true (before.foldl (pushToken true) []) after = true) : Denotes path := by
  have start : Agrees (before.foldl (pushToken true) []) ⟨0, []⟩ :=
    ⟨named_empty empty.2, fun name member => nomatch member⟩
  have bottom : (before.foldl (pushToken true) []).head? = some [] := by
    obtain ⟨part, stack, eq⟩ := List.exists_cons_of_ne_nil empty.1
    rw [eq, empty.2 part (by rw [eq]; exact List.mem_cons_self)]
    rfl
  obtain ⟨same, -⟩ := start.run after spared
  obtain ⟨root, zero⟩ := run_rooted start bottom rfl spared
  have zero : (reach (after.map step)).ups = 0 := zero
  have names : walk [] (steps (slashed path)) = (reach (after.map step)).names := by
    rw [steps, split, List.map_append, walk_append, walk_empty empty.2, walk_reach, above_nil,
      List.nil_append]
  have pushed : target (slashed path) =
      after.foldl (pushToken true) (before.foldl (pushToken true) []) := by
    rw [target, absolute, split, List.foldl_append]
  have valid := walk_valid noColon
  have canonical : Canonical true 0 (walk [] (steps (slashed path))) :=
    ⟨fun name member => (valid name member).1, fun name member => (valid name member).2,
      fun _ => ⟨rfl, below⟩⟩
  refine denotes_of_canonical canonical ?_ absolute fun start root => ?_
  · rw [normalize_eq noColon other, pushed, rooted, root, same, names]
    show glued true (List.replicate (reach (after.map step)).ups _ ++ _) = _
    rw [zero]
    rfl
  · rw [root rfl, above_nil, List.nil_append]

theorem denotes_of_spared (noColon : ':' ∉ path) (spared : Spared path) : Denotes path := by
  by_cases other : slashed path = ['/']
  · have root : normalize path = ['/'] := by
      unfold normalize
      rw [if_pos other]
    have none : components ['/'] = [] := rfl
    refine ⟨fun l => by rw [root, other], by rw [root, other], ?_, ?_, by rw [root]; rfl⟩
    · rw [root, none]
      exact fun part member => nomatch member
    · rw [root, none]
      exact fun front back split =>
        absurd split.symm (List.append_ne_nil_of_right_ne_nil front (List.cons_ne_nil _ back))
  · rcases spared.resolve_left other with ⟨relative, spared⟩ |
      ⟨absolute, below, before, after, split, empty, spared⟩
    · exact denotes_relative noColon other relative spared
    · exact denotes_absolute noColon other absolute below split empty spared

end Kept

section Needed

variable {path : List Char}

theorem isAbsolute_cons {f : List Char} (absolute : isAbsolute f = true) :
    ∃ rest, f = '/' :: rest ∧ splitOnSlash f = [] :: splitOnSlash rest := by
  cases f with
  | nil => exact nomatch absolute
  | cons c rest =>
    obtain rfl := Option.some.inj (of_decide_eq_true absolute)
    exact ⟨rest, rfl, rfl⟩

/-- What is pushed has no slash. -/
theorem named_noSlash : ∀ part ∈ named (target (slashed path)), '/' ∉ part :=
  fun part member => Path.noSlash_of_mem part (target_part (List.mem_filter.mp member).1)

theorem named_nonempty {stack : List (List Char)} : ∀ part ∈ named stack, part ≠ [] := by
  intro part member
  have filled := (List.mem_filter.mp member).2
  rintro rfl
  exact nomatch filled

/-- The components of what is written, without the leading slash. -/
theorem split_named (some_ : named (target (slashed path)) ≠ []) :
    splitOnSlash (concatSlash (named (target (slashed path)))) = named (target (slashed path)) :=
  Path.splitOnSlash_concat some_ named_noSlash

/-- There are locations any number of levels below the root. -/
theorem exists_deep (depth : Nat) : ∃ l : Location, l.names.length = depth := by
  refine ⟨⟨List.replicate depth ['a'], fun name member => ?_⟩, List.length_replicate⟩
  rw [List.eq_of_mem_replicate member]
  exact ⟨by decide, by decide, by decide, by decide⟩

/-- Deep below the root the levels tell how often an empty component was taken back. -/
theorem spared_of_relative (noColon : ':' ∉ path) (other : slashed path ≠ ['/'])
    (relative : isAbsolute (slashed path) = false) (denotes : Denotes path) :
    spares false [] (splitOnSlash (slashed path)) = true := by
  have pushed : target (slashed path) =
      (splitOnSlash (slashed path)).foldl (pushToken false) [] := by rw [target, relative]
  have written : normalize path = glued false (named (target (slashed path))) := by
    rw [normalize_eq noColon other, pushed, rooted_relative]
  have same : levels (splitOnSlash (normalize path)) = levels (target (slashed path)) := by
    rw [written, ← levels_named (target (slashed path)), glued]
    by_cases none : named (target (slashed path)) = []
    · rw [if_pos none, none]
      rfl
    · rw [if_neg none, if_neg Bool.false_ne_true, List.nil_append, split_named none]
  obtain ⟨l, deep⟩ := exists_deep
    ((splitOnSlash (normalize path)).length + (splitOnSlash (slashed path)).length)
  have reached : walk (if isAbsolute (normalize path) then [] else l.names)
      (steps (normalize path)) =
        walk (if isAbsolute (slashed path) then [] else l.names) (steps (slashed path)) :=
    congrArg Location.names (denotes.located l)
  rw [denotes.absolute, relative] at reached
  have walked : walk l.names ((splitOnSlash (normalize path)).map step) =
      walk l.names ((splitOnSlash (slashed path)).map step) := reached
  have length := walk_levels (splitOnSlash (normalize path)) l.names (by omega)
  have length' := walk_levels (splitOnSlash (slashed path)) l.names (by omega)
  rw [walked, length', same, pushed] at length
  have none : levels [] = 0 := rfl
  exact (levels_foldl false _ []).2 (by omega)

theorem first_named {stack : List (List Char)} (some_ : named stack ≠ []) :
    ∃ base x rest, stack = base ++ x :: rest ∧ (∀ part ∈ base, part = []) ∧ x ≠ [] := by
  induction stack with
  | nil => exact absurd rfl some_
  | cons part stack ih =>
    by_cases empty : part = []
    · rw [named_cons, if_pos empty] at some_
      obtain ⟨base, x, rest, rfl, all, filled⟩ := ih some_
      refine ⟨part :: base, x, rest, rfl, fun other member => ?_, filled⟩
      rcases List.mem_cons.mp member with rfl | behind
      · exact empty
      · exact all other behind
    · exact ⟨[], part, stack, rfl, (fun other member => nomatch member), empty⟩

/-- An absolute path is written behind a slash that was pushed, and not for nothing. -/
theorem rooted_of_absolute (noColon : ':' ∉ path) (other : slashed path ≠ ['/'])
    (absolute : isAbsolute (normalize path) = true) :
    rooted (target (slashed path)) = true ∧ named (target (slashed path)) ≠ [] := by
  have some_ : named (target (slashed path)) ≠ [] := by
    intro none
    rw [normalize_eq noColon other, none] at absolute
    exact nomatch absolute
  refine ⟨?_, some_⟩
  by_contra open_
  rw [normalize_eq noColon other, (Bool.not_eq_true _).mp open_, glued, if_neg some_,
    if_neg Bool.false_ne_true, List.nil_append] at absolute
  obtain ⟨rest, -, split⟩ := isAbsolute_cons absolute
  rw [split_named some_] at split
  exact named_nonempty [] (by rw [split]; exact List.mem_cons_self) rfl

theorem spared_of_absolute (noColon : ':' ∉ path) (other : slashed path ≠ ['/'])
    (absolute : isAbsolute (slashed path) = true) (denotes : Denotes path) :
    walk [] (steps (slashed path)) ≠ [] ∧
    ∃ before after, splitOnSlash (slashed path) = before ++ after ∧
      OnlyEmpty (before.foldl (pushToken true) []) ∧
      spares true (before.foldl (pushToken true) []) after = true := by
  have kept := denotes.absolute.trans absolute
  obtain ⟨root, some_⟩ := rooted_of_absolute noColon other kept
  have pushed : target (slashed path) =
      (splitOnSlash (slashed path)).foldl (pushToken true) [] := by rw [target, absolute]
  have head := eq_of_beq root
  have written := normalize_eq noColon other
  rw [root] at written
  have noDots : ['.', '.'] ∉ target (slashed path) := by
    intro member
    rw [pushed] at member head
    rw [dots_first true _ member] at head
    exact absurd head (by decide)
  -- what is on the stack is where the path leads to
  have names : ∀ name ∈ named (target (slashed path)), IsName name := by
    intro name member
    have there := (List.mem_filter.mp member).1
    refine ⟨named_nonempty name member, ?_, ?_, named_noSlash name member⟩
    · rintro rfl
      exact noDot_foldl _ _ there
    · rintro rfl
      exact noDots there
  have leads : walk [] (steps (slashed path)) = named (target (slashed path)) := by
    have reached : walk (if isAbsolute (normalize path) then [] else Location.root.names)
        (steps (normalize path)) =
          walk (if isAbsolute (slashed path) then [] else Location.root.names)
            (steps (slashed path)) := congrArg Location.names (denotes.located Location.root)
    rw [kept, absolute] at reached
    have slash : glued true (named (target (slashed path))) =
        '/' :: concatSlash (named (target (slashed path))) := if_neg some_
    have split : steps (concatSlash (named (target (slashed path)))) =
        (named (target (slashed path))).map step := congrArg (List.map step) (split_named some_)
    rw [written, slash, Path.walk_steps_slash, split] at reached
    exact reached.symm.trans (Path.walk_names [] names)
  refine ⟨leads ▸ some_, ?_⟩
  -- the first name is pushed above empty components, and stays
  obtain ⟨base, x, rest, final, empty, filled⟩ := first_named some_
  have bottom : base ≠ [] := by
    rintro rfl
    rw [final] at head
    exact filled (Option.some.inj head)
  have valid : IsName x := names x (by
    refine List.mem_filter.mpr ⟨?_, ?_⟩
    · rw [final]
      exact List.mem_append_right _ List.mem_cons_self
    · obtain ⟨c, x, rfl⟩ := List.exists_cons_of_ne_nil filled
      rfl)
  obtain ⟨before, after, split, rfl, pushes, stays⟩ :=
    pushed_at (pushToken_like true) (pushed.symm.trans final)
  have base_ : named (before.foldl (pushToken true) [] ++ [x]) = [x] := by
    rw [named_concat, if_neg filled, named_empty empty]
    rfl
  have nonempty : ∀ pre post, after = pre ++ post →
      named (pre.foldl (pushToken true) (before.foldl (pushToken true) [] ++ [x])) ≠ [] := by
    intro pre post parts none
    obtain ⟨more, eq⟩ := stays pre post parts
    rw [← eq, named, List.filter_append] at none
    exact List.cons_ne_nil x [] (base_.symm.trans (List.append_eq_nil_iff.mp none).1)
  have length : (walk [x] (after.map step)).length =
      (named (after.foldl (pushToken true) (before.foldl (pushToken true) [] ++ [x]))).length := by
    have through : walk [] (steps (slashed path)) = walk [x] (after.map step) := by
      rw [steps, split, List.map_append, walk_append, walk_empty empty, List.map_cons, valid.step]
      rfl
    have stack : target (slashed path) =
        after.foldl (pushToken true) (before.foldl (pushToken true) [] ++ [x]) := by
      rw [pushed, split, List.foldl_append, List.foldl_cons, pushes]
    rw [← through, leads, stack]
  have order : [x].length ≤ (named (before.foldl (pushToken true) [] ++ [x])).length :=
    Nat.le_of_eq (congrArg List.length base_.symm)
  have spared := (spares_of_length order nonempty length).1
  refine ⟨before, x :: after, split, ⟨bottom, empty⟩, Bool.and_eq_true_iff.mpr ⟨?_, ?_⟩⟩
  · rw [beq_false_of_ne valid.notDots, Bool.false_and, Bool.not_false]
  · rw [pushes]
    exact spared

theorem spared_of_denotes (noColon : ':' ∉ path) (denotes : Denotes path) : Spared path := by
  by_cases other : slashed path = ['/']
  · exact .inl other
  · cases absolute : isAbsolute (slashed path) with
    | false => exact .inr (.inl ⟨absolute, spared_of_relative noColon other absolute denotes⟩)
    | true => exact .inr (.inr ⟨absolute, spared_of_absolute noColon other absolute denotes⟩)

end Needed

/-- What `normalize` promises of every path. -/
structure Faithful (path : List Char) : Prop where
  denotes : ':' ∉ path → Denotes path
  unmoved : ¬ Overtakes (concatSlash (target (slashed path)))
  taken : (normalize path).Sublist (slashed path)

/-- No `..` takes an empty component back, and no component begins with a colon unless there is
another one before its slash, or nothing else behind it. -/
structure Kept (path : List Char) : Prop where
  spared : ':' ∉ path → Spared path
  colons : ColonsLast (concatSlash (target (slashed path)))

theorem normalize_sublist {path : List Char}
    (colons : ColonsLast (concatSlash (target (slashed path)))) :
    (normalize path).Sublist (slashed path) := by
  unfold normalize
  dsimp only
  split
  · next same => rw [same]
  · exact (collapse_sublist colons).trans (target_sublist _)

theorem normalize_faithful_iff (path : List Char) : Faithful path ↔ Kept path := by
  constructor
  · intro faithful
    exact ⟨fun noColon => spared_of_denotes noColon (faithful.denotes noColon),
      (overtakes_iff _).mp faithful.unmoved⟩
  · intro kept
    exact ⟨fun noColon => denotes_of_spared noColon (kept.spared noColon),
      (overtakes_iff _).mpr kept.colons, normalize_sublist kept.colons⟩

/-- `a//..` is made `a`, and leads to where `a` is. -/
theorem empty_component_taken_back : ¬Faithful ['a', '/', '/', '.', '.'] := by
  intro faithful
  have there := (faithful.denotes (by decide)).located Location.root
  have names := congrArg Location.names there
  exact absurd names (by decide)

end Haxe.Source.IoPath
