import Mathlib.Algebra.Ring.Nat
import Haxe.Source.Std.ListSort

/-!
# The pointers during a sort

What has been merged so far is linked up to its tail, whose own pointer may be stale; the first
run is linked as far as it goes, and the rest of the list up to null.
-/

namespace Haxe.Source.ListSort

open Theory StableSorting LinkedChains MergedRuns

variable {T : Type} {next : T → Option T}

/-- Some nodes that are met by following `next`, wherever the last one leads. -/
def Path (next : T → Option T) : Option T → List T → Prop
  | _, [] => True
  | start, a :: l => start = some a ∧ Path next (next a) l

theorem Path.congr {next' : T → Option T} {start : Option T} {l : List T}
    (path : Path next start l) (same : ∀ a ∈ l, next' a = next a) : Path next' start l := by
  induction l generalizing start with
  | nil => trivial
  | cons a l ih =>
    refine ⟨path.1, ?_⟩
    rw [same a List.mem_cons_self]
    exact ih path.2 fun b member => same b (List.mem_cons_of_mem a member)

theorem chain_congr {next' : T → Option T} {start : Option T} {l : List T}
    (chain : Chain next start l) (same : ∀ a ∈ l, next' a = next a) : Chain next' start l := by
  induction l generalizing start with
  | nil => exact chain
  | cons a l ih =>
    refine ⟨chain.1, ?_⟩
    rw [same a List.mem_cons_self]
    exact ih chain.2 fun b member => same b (List.mem_cons_of_mem a member)

/-- The loop over a run stops behind it, or at the end of the list. -/
theorem advance_spec {start : Option T} {rest : List T} (chain : Chain next start rest)
    (nonempty : rest ≠ []) (insize psize : Nat) :
    ∃ q, advance next insize psize start = some (psize + (rest.take insize).length, q) ∧
      Path next start (rest.take insize) ∧ Chain next q (rest.drop insize) := by
  induction insize generalizing start rest psize with
  | zero => exact ⟨start, rfl, trivial, chain⟩
  | succ insize ih =>
    cases rest with
    | nil => exact absurd rfl nonempty
    | cons a rest =>
      obtain ⟨rfl, behind⟩ := chain
      cases rest with
      | nil =>
        have last : next a = none := behind
        rw [List.take_succ_cons, List.take_nil, List.drop_succ_cons, List.drop_nil]
        refine ⟨none, ?_, ⟨rfl, trivial⟩, rfl⟩
        rw [advance, last]
        rfl
      | cons b rest =>
        have second : next a = some b := behind.1
        obtain ⟨q, moved, path, later⟩ := ih behind (List.cons_ne_nil b rest) (psize + 1)
        refine ⟨q, ?_, ⟨rfl, path⟩, later⟩
        rw [advance, second]
        dsimp only
        rw [← second, moved, List.take_succ_cons, List.length_cons]
        congr 2
        omega

variable {double : Bool} {s : Cursors T}

/-- A list that a sort ends with. -/
structure Finished (double : Bool) (s : Cursors T) (sorted : List T) : Prop where
  linked : ∃ previous, Segment s.next previous none sorted none ∧
    (double = true → s.prev = previous)
  list : s.list = sorted.head?
  tail : s.tail = sorted.getLast?

theorem Finished.chain {sorted : List T} (finished : Finished double s sorted) :
    Chain s.next s.list sorted := by
  obtain ⟨previous, segment, -⟩ := finished.linked
  rw [finished.list]
  exact segment.chain

variable [DecidableEq T] {out ps rest : List T} {e : T}

/-- What has been merged so far. -/
structure Built (double : Bool) (s : Cursors T) (out : List T) : Prop where
  linked : ∃ previous behind, Segment s.next previous none out behind ∧
    (double = true → s.prev = previous)
  list : s.list = out.head?
  tail : s.tail = out.getLast?

theorem link_next (double : Bool) (s : Cursors T) (e : T) :
    (s.link double e).next = relink s.next s.tail (some e) := by
  unfold Cursors.link relink
  cases s.tail <;> rfl

/-- Pointers of nodes that have not been merged stay. -/
theorem link_next_of_notMem (built : Built double s out) {a : T} (apart : a ∉ out) :
    (s.link double e).next a = s.next a := by
  rw [link_next, built.tail]
  exact relink_of_ne fun last => apart (List.mem_of_getLast? last)

theorem Built.link (built : Built double s out) (distinct : (out ++ [e]).Nodup) :
    Built double (s.link double e) (out ++ [e]) := by
  obtain ⟨previous, behind, segment, prevs⟩ := built.linked
  obtain ⟨distinctOut, -, apart⟩ := List.nodup_append.mp distinct
  have fresh : ∀ a ∈ out, a ≠ e := fun a member => apart a member e List.mem_cons_self
  have linked : Segment (s.link double e).next (Function.update previous e s.tail) none out
      (some e) := by
    refine (segment.before distinctOut (some e)).congr (fun a _ => ?_) fun a member => ?_
    · rw [link_next, built.tail]
    · exact Function.update_of_ne (fresh a member) ..
  refine ⟨⟨Function.update previous e s.tail, (s.link double e).next e, ?_, ?_⟩, ?_, ?_⟩
  · rw [segment_append]
    refine ⟨linked, ?_, rfl, trivial⟩
    rw [Function.update_self, built.tail, Option.or_none]
  · intro both
    rw [← prevs both]
    exact if_pos both
  · rw [List.head?_append, ← built.list]
    have same := built.tail
    unfold Cursors.link
    cases out with
    | nil =>
      rw [same]
      have none_ : s.list = none := built.list
      rw [none_]
      rfl
    | cons a out =>
      have some_ : s.list = some a := built.list
      cases last : (a :: out).getLast? with
      | none => exact absurd (List.getLast?_eq_none_iff.mp last) (List.cons_ne_nil a out)
      | some t =>
        rw [same, last, some_]
        rfl
  · rw [List.getLast?_concat]
    rfl

/-- The invariant of a merge. -/
structure At (double : Bool) (s : Cursors T) (out ps rest : List T) : Prop where
  built : Built double s out
  first : Path s.next s.p ps
  psize : s.psize = ps.length
  second : Chain s.next s.q rest
  distinct : (out ++ (ps ++ rest)).Nodup

/-- A node is taken from one of the runs: what is left of both is linked as before. -/
theorem At.link {s' : Cursors T} {ps' rest' : List T} (at_ : At double s out ps rest)
    (next : s'.next = s.next) (prev : s'.prev = s.prev) (list : s'.list = s.list)
    (tail : s'.tail = s.tail) (first : Path s.next s'.p ps') (psize : s'.psize = ps'.length)
    (second : Chain s.next s'.q rest')
    (perm : (out ++ (ps ++ rest)).Perm ((out ++ [e]) ++ (ps' ++ rest'))) :
    At double (s'.link double e) (out ++ [e]) ps' rest' := by
  have distinct := perm.nodup at_.distinct
  obtain ⟨distinctOut, -, apart⟩ := List.nodup_append.mp distinct
  have built : Built double s' out := by
    obtain ⟨linked, list_, tail_⟩ := at_.built
    rw [← next, ← prev] at linked
    exact ⟨linked, list.trans list_, tail.trans tail_⟩
  have same : ∀ a ∈ ps' ++ rest', (s'.link double e).next a = s.next a := by
    intro a member
    rw [← next]
    refine link_next_of_notMem built fun inside => ?_
    exact apart a (List.mem_append_left _ inside) a member rfl
  refine ⟨built.link distinctOut, ?_, psize, ?_, distinct⟩
  · exact first.congr fun a member => same a (List.mem_append_left _ member)
  · exact chain_congr second fun a member => same a (List.mem_append_right _ member)

theorem At.fromP (at_ : At double s out (e :: ps) rest) :
    At double (s.fromP double e) (out ++ [e]) ps rest := by
  refine at_.link rfl rfl rfl rfl at_.first.2 ?_ at_.second ?_
  · show s.psize - 1 = ps.length
    rw [at_.psize]
    rfl
  · rw [List.append_assoc]
    exact .refl _

theorem At.fromQ (at_ : At double s out ps (e :: rest)) :
    At double (s.fromQ double e) (out ++ [e]) ps rest := by
  refine at_.link rfl rfl rfl rfl at_.first at_.psize at_.second.2 ?_
  rw [List.append_assoc]
  exact List.perm_middle.append_left out

/-! ## Rounds of the merging loop -/

section

variable {cmp : T → T → Int} {p q : T}

theorem mergeLoop_done (double : Bool) (psize : s.psize = 0) (qsize : s.qsize = 0 ∨ s.q = none) :
    mergeLoop cmp double s = some s := by
  rw [mergeLoop, if_neg]
  rintro (more | ⟨more, other⟩)
  · omega
  · exact qsize.elim (fun zero => by omega) other

theorem mergeLoop_second (double : Bool) (psize : s.psize = 0) (qsize : 0 < s.qsize)
    (head : s.q = some q) : mergeLoop cmp double s = mergeLoop cmp double (s.fromQ double q) := by
  have more : s.psize > 0 ∨ s.qsize > 0 ∧ s.q ≠ none :=
    .inr ⟨qsize, by rw [head]; exact Option.some_ne_none q⟩
  rw [mergeLoop, if_pos more, if_pos psize, head]

theorem mergeLoop_first (double : Bool) (psize : 0 < s.psize) (head : s.p = some p)
    (alone : s.qsize = 0 ∨ s.q = none) :
    mergeLoop cmp double s = mergeLoop cmp double (s.fromP double p) := by
  rw [mergeLoop, if_pos (.inl psize), if_neg (by omega), head]
  cases second : s.q with
  | none => rfl
  | some q =>
    have none_ : s.qsize = 0 := alone.resolve_right (by rw [second]; exact Option.some_ne_none q)
    dsimp only
    rw [if_pos (.inl none_)]

theorem mergeLoop_both (double : Bool) (psize : 0 < s.psize) (qsize : 0 < s.qsize)
    (head : s.p = some p) (head' : s.q = some q) :
    mergeLoop cmp double s = if cmp p q ≤ 0 then mergeLoop cmp double (s.fromP double p)
      else mergeLoop cmp double (s.fromQ double q) := by
  have some_ : s.qsize ≠ 0 := by omega
  rw [mergeLoop, if_pos (.inl psize), if_neg (by omega), head, head']
  dsimp only
  simp only [some_, false_or]

/-- What the loop leaves of a list of nodes. -/
def Merges (cmp : T → T → Int) (double : Bool) (s : Cursors T) (out ps rest : List T) : Prop :=
  ∃ s', mergeLoop cmp double s = some s' ∧
    At double s' (out ++ merge cmp ps (rest.take s.qsize)) [] (rest.drop s.qsize)

theorem merges_fromP (later : Merges cmp double (s.fromP double p) (out ++ [p]) ps rest)
    (run : mergeLoop cmp double s = mergeLoop cmp double (s.fromP double p))
    (merged : merge cmp (p :: ps) (rest.take s.qsize) = p :: merge cmp ps (rest.take s.qsize)) :
    Merges cmp double s out (p :: ps) rest := by
  obtain ⟨s', done, at'⟩ := later
  rw [Cursors.fromP_qsize, List.append_assoc, List.singleton_append, ← merged] at at'
  exact ⟨s', run.trans done, at'⟩

theorem merges_fromQ {n : Nat} (qsize : s.qsize = n + 1)
    (later : Merges cmp double (s.fromQ double q) (out ++ [q]) ps rest)
    (run : mergeLoop cmp double s = mergeLoop cmp double (s.fromQ double q))
    (merged : merge cmp ps (q :: rest.take n) = q :: merge cmp ps (rest.take n)) :
    Merges cmp double s out ps (q :: rest) := by
  obtain ⟨s', done, at'⟩ := later
  rw [Cursors.fromQ_qsize, qsize, Nat.add_sub_cancel, List.append_assoc, List.singleton_append,
    ← merged] at at'
  refine ⟨s', run.trans done, ?_⟩
  rw [qsize, List.take_succ_cons, List.drop_succ_cons]
  exact at'

/-- The loop merges the first run and as much of the rest as is allowed. -/
theorem mergeLoop_spec (cmp : T → T → Int) (at_ : At double s out ps rest) :
    Merges cmp double s out ps rest := by
  induction length : ps.length + s.qsize using Nat.strongRecOn generalizing s out ps rest with
  | ind n ih =>
    have psize := at_.psize
    have second := at_.second
    cases ps with
    | nil =>
      by_cases alone : s.qsize = 0 ∨ rest = []
      · -- nothing is left to merge
        have done : s.qsize = 0 ∨ s.q = none := alone.imp id fun none_ => by
          rw [none_] at second
          exact second
        have taken : rest.take s.qsize = [] ∧ rest.drop s.qsize = rest := by
          rcases alone with zero | rfl
          · rw [zero]
            exact ⟨rfl, rfl⟩
          · exact ⟨List.take_nil, List.drop_nil⟩
        refine ⟨s, mergeLoop_done double psize done, ?_⟩
        rw [taken.1, taken.2, merge_nil, List.append_nil]
        exact at_
      · push Not at alone
        obtain ⟨q, rest, rfl⟩ := List.exists_cons_of_ne_nil alone.2
        obtain ⟨m, qsize⟩ := Nat.exists_eq_succ_of_ne_zero alone.1
        refine merges_fromQ qsize (ih _ ?_ at_.fromQ rfl) ?_ ?_
        · rw [Cursors.fromQ_qsize]
          omega
        · exact mergeLoop_second double psize (by omega) second.1
        · rw [nil_merge, nil_merge]
    | cons p ps =>
      have head := at_.first.1
      have positive : 0 < s.psize := by rw [psize]; exact Nat.succ_pos _
      have shorter : ps.length + s.qsize < n := by rw [← length, List.length_cons]; omega
      by_cases alone : s.qsize = 0 ∨ rest = []
      · have done : s.qsize = 0 ∨ s.q = none := alone.imp id fun none_ => by
          rw [none_] at second
          exact second
        have taken : rest.take s.qsize = [] := by
          rcases alone with zero | rfl
          · rw [zero]
            rfl
          · exact List.take_nil
        refine merges_fromP (ih _ shorter at_.fromP rfl) ?_ ?_
        · exact mergeLoop_first double positive head done
        · rw [taken, merge_nil, merge_nil]
      · push Not at alone
        obtain ⟨q, rest, rfl⟩ := List.exists_cons_of_ne_nil alone.2
        obtain ⟨m, qsize⟩ := Nat.exists_eq_succ_of_ne_zero alone.1
        have both : mergeLoop cmp double s = if cmp p q ≤ 0 then
            mergeLoop cmp double (s.fromP double p) else mergeLoop cmp double (s.fromQ double q) :=
          mergeLoop_both double positive (by omega) head second.1
        by_cases less : cmp p q ≤ 0
        · rw [if_pos less] at both
          refine merges_fromP (ih _ shorter at_.fromP rfl) both ?_
          rw [qsize, List.take_succ_cons]
          exact merge_first less
        · rw [if_neg less] at both
          refine merges_fromQ qsize (ih _ ?_ at_.fromQ rfl) both ?_
          · rw [Cursors.fromQ_qsize, List.length_cons]
            rw [List.length_cons] at length
            omega
          · exact merge_second less

end

/-! ## Passes -/

/-- A round of a pass merges two runs. -/
theorem passLoop_step {cmp : T → T → Int} {k fuel nmerges psize : Nat} {a : T} {q : Option T}
    {s' : Cursors T} (head : s.p = some a)
    (moved : advance s.next k 0 (some a) = some (psize, q))
    (merged : mergeLoop cmp double { s with psize := psize, q := q, qsize := k } = some s') :
    passLoop cmp double k (fuel + 1) nmerges s =
      passLoop cmp double k fuel (nmerges + 1) { s' with p := s'.q } := by
  rw [passLoop]
  split
  · rename_i none_
    exact absurd (head.symm.trans none_) (Option.some_ne_none a)
  · rename_i p some_
    obtain rfl := Option.some.inj (head.symm.trans some_)
    rw [moved]
    dsimp only [Bind.bind, Option.bind]
    rw [merged]

/-- A pass goes over the whole list. -/
theorem passLoop_spec (cmp : T → T → Int) {k fuel : Nat} (positive : 0 < k)
    (enough : rest.length < fuel) (built : Built double s out) (chain : Chain s.next s.p rest)
    (distinct : (out ++ rest).Nodup) (nmerges : Nat) :
    ∃ s' l' n, passLoop cmp double k fuel nmerges s = some (nmerges + n, s') ∧
      Pass cmp k rest l' n ∧ Built double s' (out ++ l') := by
  induction fuel generalizing s out rest nmerges with
  | zero => omega
  | succ fuel ih =>
    cases rest with
    | nil =>
      have done : s.p = none := chain
      refine ⟨s, [], 0, ?_, .nil, ?_⟩
      · rw [passLoop, done]
        rfl
      · rw [List.append_nil]
        exact built
    | cons a rest =>
      obtain ⟨q, moved, path, second⟩ := advance_spec chain (List.cons_ne_nil a rest) k 0
      have head : s.p = some a := chain.1
      have at_ : At double { s with psize := 0 + ((a :: rest).take k).length, q := q, qsize := k }
          out ((a :: rest).take k) ((a :: rest).drop k) := by
        refine ⟨⟨built.linked, built.list, built.tail⟩, path, Nat.zero_add _, second, ?_⟩
        rw [List.take_append_drop]
        exact distinct
      obtain ⟨s', merged, at'⟩ := mergeLoop_spec cmp at_
      rw [List.drop_drop] at at'
      have shorter : ((a :: rest).drop (k + k)).length < fuel := by
        rw [List.length_drop, List.length_cons]
        rw [List.length_cons] at enough
        omega
      obtain ⟨s'', l', n, run, pass, built'⟩ := ih (s := { s' with p := s'.q }) shorter
        ⟨at'.built.linked, at'.built.list, at'.built.tail⟩ at'.second at'.distinct (nmerges + 1)
      refine ⟨s'', _, n + 1, ?_, .more (List.cons_ne_nil a rest) pass, ?_⟩
      · rw [passLoop_step head (head ▸ moved) merged, run, Nat.add_assoc, Nat.add_comm 1 n]
      · rw [← List.append_assoc]
        exact built'

/-- Behind the last node the pointer is cleared. -/
theorem Built.finish {t : T} (built : Built double s out) (distinct : out.Nodup)
    (tail : s.tail = some t) :
    Finished double { s with next := Function.update s.next t none } out := by
  obtain ⟨previous, behind, segment, prevs⟩ := built.linked
  have finished := segment.before distinct none
  rw [← built.tail, tail] at finished
  exact ⟨⟨previous, finished, prevs⟩, built.list, built.tail⟩

/-- The passes sort the list; each doubles the runs, so few of them are needed. -/
theorem sortLoop_spec {cmp : T → T → Int} (preorder : TotalPreorder cmp)
    {k passFuel fuel : Nat} {l : List T} (positive : 0 < k) (passes : l.length < passFuel)
    (enough : l.length ≤ k * 2 ^ fuel) (some_ : 0 < fuel) (nonempty : l ≠ [])
    (chain : Chain s.next s.list l) (distinct : l.Nodup) (runs : Runs cmp k l) :
    ∃ s' sorted, sortLoop cmp double passFuel fuel k s = some s' ∧ Stably cmp l sorted ∧
      Ordered cmp sorted ∧ Finished double s' sorted := by
  induction fuel generalizing k s l with
  | zero => omega
  | succ fuel ih =>
    have start : Built double { s with p := s.list, list := none, tail := none } [] :=
      ⟨⟨s.prev, none, trivial, fun _ => rfl⟩, rfl, rfl⟩
    obtain ⟨s', l', n, run, pass, built⟩ := passLoop_spec cmp positive passes start chain distinct 0
    rw [List.nil_append] at built
    rw [Nat.zero_add] at run
    have stably := pass.stably preorder runs
    have runs' := pass.runs preorder runs
    have distinct' : l'.Nodup := stably.perm.nodup_iff.mpr distinct
    have nonempty' : l' ≠ [] := fun none_ => nonempty (by
      rw [none_] at stably
      exact List.nil_perm.mp stably.perm)
    obtain ⟨t, last⟩ := Option.ne_none_iff_exists'.mp (mt List.getLast?_eq_none_iff.mp nonempty')
    have finished := built.finish distinct' (built.tail.trans last)
    have step : sortLoop cmp double passFuel (fuel + 1) k s =
        if n ≤ 1 then some { s' with next := Function.update s'.next t none }
        else sortLoop cmp double passFuel fuel (k * 2)
          { s' with next := Function.update s'.next t none } := by
      rw [sortLoop, run]
      dsimp only [Bind.bind, Option.bind]
      rw [built.tail, last]
    rw [step]
    by_cases few : n ≤ 1
    · rw [if_pos few]
      refine ⟨_, l', rfl, stably, runs'.ordered ?_, finished⟩
      rw [stably.length_eq]
      exact pass.short few
    · rw [if_neg few]
      have long := pass.long few
      have length := stably.length_eq
      rw [Nat.pow_succ, Nat.mul_comm (2 ^ fuel), ← Nat.mul_assoc] at enough
      have more : 0 < fuel := by
        rcases Nat.eq_zero_or_pos fuel with rfl | more
        · omega
        · exact more
      rw [← Nat.mul_two] at runs'
      obtain ⟨s'', sorted, run', stably', ordered, done⟩ := ih (by omega) (by omega) (by omega)
        more nonempty' finished.chain distinct' runs'
      exact ⟨s'', sorted, run', stably.trans stably', ordered, done⟩

end Haxe.Source.ListSort
