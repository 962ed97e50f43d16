import Haxe.Theory.PathSteps

/-!
# File keys

`Path.get_full_path` on Unix: a scan that decides whether a path is normal already, and the
splitting of one that is not.
-/

namespace Haxe.Source.Path

open Theory PathSteps

/-- `ExtString.String.split_on_char` at a slash -/
@[grind =] def splitOnSlash : List Char → List (List Char)
  | [] => [[]]
  | c :: rest =>
    if c = '/' then [] :: splitOnSlash rest
    else
      match splitOnSlash rest with
      | [] => [[c]]
      | part :: parts => (c :: part) :: parts

@[grind =] def skipPastSlash (f : List Char) (i : Nat) : Nat :=
  if i ≥ f.length then i
  else if f[i]? = some '/' then i + 1
  else skipPastSlash f (i + 1)
termination_by f.length - i

/-- What the scan looks at where a component starts. -/
def startsDotsOrSlash (f : List Char) (i : Nat) : Bool :=
  match f[i]? with
  | some '.' =>
    if i + 2 < f.length then
      match f[i + 1]?, f[i + 2]? with
      | some '.', some '/' => true
      | some '/', _ => true
      | _, _ => false
    else if i + 1 < f.length then
      match f[i + 1]? with
      | some '/' => true
      | some '.' => true
      | _ => false
    else true
  | some '/' => i > 0
  | _ => false

theorem skipPastSlash_ge (f : List Char) (i : Nat) : i ≤ skipPastSlash f i := by
  fun_induction skipPastSlash f i <;> omega

theorem skipPastSlash_gt (f : List Char) {i : Nat} (inside : i < f.length) :
    i < skipPastSlash f i := by
  rw [skipPastSlash]
  have next := skipPastSlash_ge f (i + 1)
  split
  · omega
  · split <;> omega

def hasDotsOrDoubleSlash (f : List Char) (i : Nat) : Bool :=
  if _h : i ≥ f.length then false
  else if startsDotsOrSlash f i then true
  else hasDotsOrDoubleSlash f (skipPastSlash f i)
termination_by f.length - i
decreasing_by
  have next := skipPastSlash_gt f (i := i) (by omega)
  omega

/-- The loop over the parts, with those that it keeps and the number that it skips. -/
def normalizePart (seen : Backward (List Char)) (current : List Char) : Backward (List Char) :=
  if current = ['.', '.'] then { seen with skip := seen.skip + 1 }
  else if current = ['.'] ∨ current = [] then seen
  else if seen.skip > 0 then { seen with skip := seen.skip - 1 }
  else { seen with kept := current :: seen.kept }

def normalizeParts (parts : List (List Char)) : List (List Char) :=
  (parts.reverse.foldl normalizePart ⟨[], 0⟩).kept

/-- `String.concat` with slashes -/
@[grind =] def concatSlash : List (List Char) → List Char
  | [] => []
  | [part] => part
  | part :: parts => part ++ '/' :: concatSlash parts

def hasTrailingSlash (f : List Char) : Bool := f.getLast? = some '/'

def isAbsolute (f : List Char) : Bool := f.head? = some '/'

/-- Neither a trailing slash nor the scan asks for the path to be split. -/
def isNormal (f : List Char) : Bool := !hasTrailingSlash f && !hasDotsOrDoubleSlash f 0

@[grind =] def absolutePath (getcwd f : List Char) : List Char :=
  if isAbsolute f then f else if f = [] then getcwd else getcwd ++ '/' :: f

def getFullPath (getcwd f : List Char) : List Char :=
  if isNormal f then absolutePath getcwd f
  else '/' :: concatSlash (normalizeParts (splitOnSlash (absolutePath getcwd f)))

namespace UniqueKey

def create (getcwd f : List Char) : List Char := getFullPath getcwd f

end UniqueKey

/-! ## Locations -/

/-- The name of a file or a directory. -/
structure IsName (name : List Char) : Prop where
  nonempty : name ≠ []
  notDot : name ≠ ['.']
  notDots : name ≠ ['.', '.']
  noSlash : '/' ∉ name

/-- A location below the root. -/
structure Location where
  names : List (List Char)
  valid : ∀ name ∈ names, IsName name

@[ext] theorem Location.ext {l l' : Location} (same : l.names = l'.names) : l = l' := by
  cases l
  cases l'
  cases same
  rfl

/-- The canonical path of a location. -/
def Location.path (l : Location) : List Char := '/' :: concatSlash l.names

/-- What a component of a path does. -/
@[grind =] def step (part : List Char) : Step (List Char) :=
  if part = ['.', '.'] then .up
  else if part = ['.'] ∨ part = [] then .stay
  else .down part

theorem IsName.step {name : List Char} (valid : IsName name) : step name = .down name := by
  rw [Path.step, if_neg valid.notDots, if_neg]
  exact fun either => either.elim valid.notDot valid.nonempty

theorem isName_of_down {part name : List Char} (noSlash : '/' ∉ part)
    (down : step part = .down name) : IsName name := by
  unfold Path.step at down
  split at down
  · cases down
  · rename_i notDots
    split at down
    · cases down
    · rename_i notStay
      obtain rfl := Step.down.inj down
      exact ⟨fun empty => notStay (.inr empty), fun dot => notStay (.inl dot), notDots, noSlash⟩

/-! ## Parts -/

theorem splitOnSlash_ne_nil (f : List Char) : splitOnSlash f ≠ [] := by
  cases f with
  | nil => exact List.cons_ne_nil _ _
  | cons c rest =>
    rw [splitOnSlash]
    split
    · exact List.cons_ne_nil _ _
    · split <;> exact List.cons_ne_nil _ _

theorem splitOnSlash_of_noSlash {w : List Char} (noSlash : '/' ∉ w) : splitOnSlash w = [w] := by
  induction w with
  | nil => rfl
  | cons c w ih =>
    have other : c ≠ '/' := fun same => noSlash (same ▸ List.mem_cons_self)
    rw [splitOnSlash, if_neg other, ih fun member => noSlash (List.mem_cons_of_mem c member)]

theorem splitOnSlash_append (a b : List Char) :
    splitOnSlash (a ++ '/' :: b) = splitOnSlash a ++ splitOnSlash b := by
  induction a with
  | nil =>
    show splitOnSlash ('/' :: b) = _
    rw [splitOnSlash]
    rfl
  | cons c a ih =>
    rw [List.cons_append, splitOnSlash, splitOnSlash, ih]
    split
    · rfl
    · obtain ⟨part, parts, split⟩ := List.exists_cons_of_ne_nil (splitOnSlash_ne_nil a)
      rw [split]
      rfl

/-- A slash is there, or the text is one part. -/
theorem parts_cases (f : List Char) :
    '/' ∉ f ∨ ∃ part rest, f = part ++ '/' :: rest ∧ '/' ∉ part := by
  by_cases there : '/' ∈ f
  · exact .inr (List.eq_append_cons_of_mem there)
  · exact .inl there

theorem noSlash_of_mem {f : List Char} : ∀ part ∈ splitOnSlash f, '/' ∉ part := by
  induction length : f.length using Nat.strongRecOn generalizing f with
  | ind n ih =>
    intro part member
    rcases parts_cases f with noSlash | ⟨first, rest, rfl, noSlash⟩
    · rw [splitOnSlash_of_noSlash noSlash] at member
      rw [List.mem_singleton.mp member]
      exact noSlash
    · rw [splitOnSlash_append, splitOnSlash_of_noSlash noSlash] at member
      cases List.mem_cons.mp member with
      | inl same => exact same ▸ noSlash
      | inr later =>
        rw [List.length_append, List.length_cons] at length
        exact ih rest.length (by omega) rfl part later

theorem concatSlash_cons (part : List Char) {parts : List (List Char)} (more : parts ≠ []) :
    concatSlash (part :: parts) = part ++ '/' :: concatSlash parts := by
  cases parts with
  | nil => exact absurd rfl more
  | cons => rfl

theorem concatSlash_append {first last : List (List Char)} (some : first ≠ [])
    (more : last ≠ []) :
    concatSlash (first ++ last) = concatSlash first ++ '/' :: concatSlash last := by
  induction first with
  | nil => exact absurd rfl some
  | cons part parts ih =>
    cases parts with
    | nil => exact concatSlash_cons part more
    | cons next parts =>
      have later := ih (List.cons_ne_nil _ _)
      have whole := concatSlash_cons part (List.cons_ne_nil next (parts ++ last))
      have front := concatSlash_cons part (List.cons_ne_nil next parts)
      rw [List.cons_append, List.cons_append, whole, front, ← List.cons_append, later,
        List.append_assoc, List.cons_append]

/-- The parts of a text spell it. -/
theorem concatSlash_split (f : List Char) : concatSlash (splitOnSlash f) = f := by
  induction length : f.length using Nat.strongRecOn generalizing f with
  | ind n ih =>
    rcases parts_cases f with noSlash | ⟨part, rest, rfl, noSlash⟩
    · rw [splitOnSlash_of_noSlash noSlash]
      rfl
    · rw [List.length_append, List.length_cons] at length
      rw [splitOnSlash_append, splitOnSlash_of_noSlash noSlash, List.singleton_append,
        concatSlash_cons _ (splitOnSlash_ne_nil rest), ih rest.length (by omega) rest rfl]

theorem splitOnSlash_concat {names : List (List Char)} (some : names ≠ [])
    (noSlash : ∀ name ∈ names, '/' ∉ name) : splitOnSlash (concatSlash names) = names := by
  induction names with
  | nil => exact absurd rfl some
  | cons name names ih =>
    have first := splitOnSlash_of_noSlash (noSlash name List.mem_cons_self)
    cases names with
    | nil => exact first
    | cons next names =>
      have rest := ih (List.cons_ne_nil _ _) fun name member =>
        noSlash name (List.mem_cons_of_mem _ member)
      rw [concatSlash_cons _ (List.cons_ne_nil _ _), splitOnSlash_append, first, rest]
      rfl

/-! ## Resolving a path -/

/-- The steps of a path. -/
def steps (f : List Char) : List (Step (List Char)) := (splitOnSlash f).map step

/-- The location that a path leads to, component by component. -/
def Location.resolve (l : Location) (f : List Char) : Location where
  names := walk (if isAbsolute f then [] else l.names) (steps f)
  valid := by
    refine walk_all (fun name member => ?_) fun name down => ?_
    · split at member
      · cases member
      · exact l.valid name member
    · obtain ⟨part, inside, same⟩ := List.mem_map.mp down
      exact isName_of_down (noSlash_of_mem part inside) same

theorem steps_append (a b : List Char) : steps (a ++ '/' :: b) = steps a ++ steps b := by
  rw [steps, splitOnSlash_append, List.map_append]
  rfl

theorem walk_steps_slash (names : List (List Char)) (f : List Char) :
    walk names (steps ('/' :: f)) = walk names (steps f) := by
  have split := steps_append [] f
  rw [List.nil_append] at split
  rw [split, walk_append]
  rfl

/-- The steps of names are all downwards. -/
theorem walk_names (above : List (List Char)) {parts : List (List Char)}
    (valid : ∀ part ∈ parts, IsName part) : walk above (parts.map step) = above ++ parts := by
  have down : parts.map step = parts.map .down :=
    List.map_congr_left fun part member => (valid part member).step
  rw [down, walk_down]

theorem Location.walk_path (l : Location) : walk [] (steps l.path) = l.names := by
  rw [Location.path, walk_steps_slash]
  by_cases root : l.names = []
  · rw [root]
    rfl
  · rw [steps, splitOnSlash_concat root fun name member => (l.valid name member).noSlash,
      walk_names _ l.valid, List.nil_append]

theorem normalizePart_step (seen : Backward (List Char)) (part : List Char) :
    normalizePart seen part = readBack seen (step part) := by
  unfold normalizePart step
  split
  · rfl
  · split <;> rfl

/-- Splitting resolves the path. -/
theorem normalizeParts_walk (f : List Char) :
    normalizeParts (splitOnSlash f) = walk [] (steps f) := by
  rw [walk_root, backward, steps, ← List.map_reverse, List.foldl_map, normalizeParts]
  have same : normalizePart = fun seen part => readBack seen (step part) :=
    funext fun seen => funext fun part => normalizePart_step seen part
  rw [same]

theorem walk_absolutePath (l : Location) (f : List Char) :
    walk [] (steps (absolutePath l.path f)) = (l.resolve f).names := by
  unfold absolutePath Location.resolve
  split
  · rfl
  · split
    · rename_i empty
      subst empty
      exact l.walk_path
    · rw [steps_append, walk_append, l.walk_path]

theorem getFullPath_split (l : Location) {f : List Char} (split : isNormal f = false) :
    getFullPath l.path f = (l.resolve f).path := by
  rw [getFullPath, split, if_neg Bool.false_ne_true, normalizeParts_walk, walk_absolutePath]
  rfl

/-! ## The scan -/

theorem char_behind {f rest : List Char} {i : Nat} (here : f.drop i = rest) (j : Nat) :
    f[i + j]? = rest[j]? := by
  rw [← here, List.getElem?_drop]

theorem length_behind {f rest : List Char} {i : Nat} (here : f.drop i = rest) (some : rest ≠ []) :
    f.length = i + rest.length := by
  have length := congrArg List.length here
  have positive := List.length_pos_iff.mpr some
  rw [List.length_drop] at length
  omega

theorem skipPastSlash_slash {f part rest : List Char} {i : Nat}
    (here : f.drop i = part ++ '/' :: rest) (noSlash : '/' ∉ part) :
    skipPastSlash f i = i + part.length + 1 := by
  induction part generalizing i with
  | nil =>
    have slash := char_behind here 0
    have length := length_behind here (List.cons_ne_nil _ _)
    rw [List.nil_append, List.length_cons] at length
    have found : f[i]? = some '/' := slash
    rw [skipPastSlash, if_neg (by omega), if_pos found]
    rfl
  | cons c part ih =>
    have first := char_behind here 0
    have length := length_behind here (List.cons_ne_nil _ _)
    rw [List.cons_append, List.length_cons] at length
    have other : f[i]? ≠ some '/' := by
      intro slash
      rw [Nat.add_zero, slash] at first
      exact noSlash (Option.some.inj first ▸ List.mem_cons_self)
    have next : f.drop (i + 1) = part ++ '/' :: rest := by
      rw [← List.drop_drop, here]
      rfl
    rw [skipPastSlash, if_neg (by omega), if_neg other,
      ih next fun member => noSlash (List.mem_cons_of_mem c member), List.length_cons]
    omega

/-- A component that the scan lets pass is a name. -/
theorem isName_of_start {f part behind : List Char} {i : Nat} (here : f.drop i = part ++ behind)
    (stop : behind = [] ∨ ∃ rest, behind = '/' :: rest) (noSlash : '/' ∉ part)
    (some : part ++ behind ≠ []) (start : 0 < i ∨ part ≠ [])
    (clean : startsDotsOrSlash f i = false) : IsName part := by
  have length := length_behind here some
  have first := char_behind here 0
  have second := char_behind here 1
  have third := char_behind here 2
  unfold startsDotsOrSlash at clean
  refine ⟨?_, ?_, ?_, noSlash⟩
  · rintro rfl
    rcases stop with rfl | ⟨rest, rfl⟩
    · exact some rfl
    · have slash : f[i]? = .some '/' := first
      have inside : 0 < i := start.resolve_right (not_not_intro rfl)
      rw [slash] at clean
      exact absurd (decide_eq_true inside) (Bool.eq_false_iff.mp clean)
  · rintro rfl
    have dot : f[i]? = .some '.' := first
    rw [dot] at clean
    rcases stop with rfl | ⟨rest, rfl⟩
    · -- the path ends here
      have last : f.length = i + 1 := length
      rw [if_neg (by omega), if_neg (by omega)] at clean
      cases clean
    · have slash : f[i + 1]? = .some '/' := second
      cases rest with
      | nil =>
        have last : f.length = i + 2 := length
        rw [if_neg (by omega), if_pos (by omega), slash] at clean
        cases clean
      | cons c rest =>
        have next : f[i + 2]? = .some c := third
        rw [List.length_append, List.length_cons, List.length_cons, List.length_cons,
          List.length_nil] at length
        rw [if_pos (by omega), slash, next] at clean
        cases clean
  · rintro rfl
    have dot : f[i]? = .some '.' := first
    have dots : f[i + 1]? = .some '.' := second
    rw [dot] at clean
    rcases stop with rfl | ⟨rest, rfl⟩
    · have last : f.length = i + 2 := length
      rw [if_neg (by omega), if_pos (by omega), dots] at clean
      cases clean
    · have slash : f[i + 2]? = .some '/' := third
      rw [List.length_append, List.length_cons, List.length_cons, List.length_cons,
        List.length_nil] at length
      rw [if_pos (by omega), dots, slash] at clean
      cases clean

/-- Without a trailing slash, what the scan lets pass is names. -/
theorem isName_of_scan {f : List Char} {i : Nat} (inside : i < f.length)
    (start : 0 < i ∨ f[i]? ≠ some '/') (open_ : hasTrailingSlash f = false)
    (clean : hasDotsOrDoubleSlash f i = false) :
    ∀ part ∈ splitOnSlash (f.drop i), IsName part := by
  fun_induction hasDotsOrDoubleSlash f i with
  | case1 i beyond => omega
  | case2 => cases clean
  | case3 i within_ first ih =>
    have some : f.drop i ≠ [] := fun none => by
      have length := congrArg List.length none
      rw [List.length_drop, List.length_nil] at length
      omega
    rcases parts_cases (f.drop i) with noSlash | ⟨part, rest, here, noSlash⟩
    · rw [splitOnSlash_of_noSlash noSlash]
      intro part same
      rw [List.mem_singleton.mp same]
      exact isName_of_start (List.append_nil _).symm (.inl rfl) noSlash
        (by rw [List.append_nil]; exact some) (.inr some) (Bool.eq_false_iff.mpr first)
    · have length := length_behind here (by simp)
      rw [List.length_append, List.length_cons] at length
      have skip := skipPastSlash_slash here noSlash
      have nonempty : 0 < i ∨ part ≠ [] := by
        refine start.imp id fun other none => other ?_
        have first := char_behind here 0
        rw [none] at first
        exact first
      have name := isName_of_start here (.inr ⟨rest, rfl⟩) noSlash (by simp) nonempty
        (Bool.eq_false_iff.mpr first)
      have behind : f.drop (skipPastSlash f i) = rest := by
        rw [skip, Nat.add_assoc, ← List.drop_drop, here, List.drop_append]
        simp
      have more : rest ≠ [] := by
        rintro rfl
        have last : f.getLast? = .some '/' := by
          rw [← List.take_append_drop i f, here]
          simp
        simp [hasTrailingSlash, last] at open_
      have further := List.length_pos_iff.mpr more
      have later := ih (by omega) (.inl (by omega)) clean
      rw [behind] at later
      rw [here, splitOnSlash_append, splitOnSlash_of_noSlash noSlash, List.singleton_append]
      intro part' member
      cases List.mem_cons.mp member with
      | inl same => exact same ▸ name
      | inr other => exact later part' other

end Haxe.Source.Path
