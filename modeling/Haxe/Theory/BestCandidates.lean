import Mathlib.Data.List.Perm.Basic
import Mathlib.Tactic.Push
import Haxe.Theory.Exploration

/-!
# Keeping the best candidates

A list of best candidates into which candidates are placed one after another: each is compared
with the first ones only, up to one that it neither beats nor loses to. What is kept is the
undominated candidates whatever the order exactly if every undominated candidate beats every
dominated one.
-/

namespace Haxe.Theory.BestCandidates

variable {α : Type} (better : α → α → Prop) [DecidableRel better]

/-- A candidate is placed: it is dropped, or the ones that it beats are. -/
@[grind =] def place (best : List α) (r : α) : List α :=
  match best with
  | [] => [r]
  | b :: rest =>
    if better b r then b :: rest
    else if better r b then place rest r
    else r :: b :: rest

def keep (best rem : List α) : List α := rem.foldl (place better) best

/-- Nothing among the candidates is better. -/
def Undominated (all : List α) (x : α) : Prop := ∀ y ∈ all, ¬ better y x

/-- Being better is a strict order. -/
structure Strict : Prop where
  irrefl : ∀ x, ¬ better x x
  trans : ∀ x y z, better x y → better y z → better x z

variable {better} {all best rem : List α} {r m b x : α}

theorem mem_place (member : x ∈ place better best r) : x = r ∨ x ∈ best := by
  induction best with
  | nil => exact .inl (List.mem_singleton.mp member)
  | cons b rest ih =>
    unfold place at member
    split at member
    · exact .inr member
    · split at member
      · exact (ih member).imp id (List.mem_cons_of_mem b)
      · exact List.mem_cons.mp member

/-- Candidates that are not beaten stay. -/
theorem stays (there : m ∈ best) (safe : ¬ better r m) : m ∈ place better best r := by
  induction best with
  | nil => cases there
  | cons b rest ih =>
    unfold place
    split
    · exact there
    · split
      · rename_i beaten
        refine ih ((List.mem_cons.mp there).resolve_left ?_)
        rintro rfl
        exact safe beaten
      · exact List.mem_cons_of_mem r there

/-- A candidate that none of those before beats comes first. -/
theorem place_first (safe : ∀ b ∈ best, ¬ better b m) :
    ∃ rest, place better best m = m :: rest := by
  induction best with
  | nil => exact ⟨[], rfl⟩
  | cons b rest ih =>
    unfold place
    rw [if_neg (safe b List.mem_cons_self)]
    split
    · exact ih fun b member => safe b (List.mem_cons_of_mem _ member)
    · exact ⟨b :: rest, rfl⟩

/-- A candidate that beats all of those before is left alone. -/
theorem place_alone (beats : ∀ b ∈ best, better m b) (safe : ∀ b ∈ best, ¬ better b m) :
    place better best m = [m] := by
  induction best with
  | nil => rfl
  | cons b rest ih =>
    unfold place
    rw [if_neg (safe b List.mem_cons_self), if_pos (beats b List.mem_cons_self)]
    exact ih (fun b member => beats b (List.mem_cons_of_mem _ member))
      fun b member => safe b (List.mem_cons_of_mem _ member)

theorem mem_keep (member : x ∈ keep better best rem) : x ∈ best ∨ x ∈ rem := by
  induction rem generalizing best with
  | nil => exact .inl member
  | cons r rem ih =>
    rcases ih member with placed | later
    · exact (mem_place placed).elim (fun same => .inr (same ▸ List.mem_cons_self)) .inl
    · exact .inr (List.mem_cons_of_mem r later)

theorem keep_append (best first last : List α) :
    keep better best (first ++ last) = keep better (keep better best first) last :=
  List.foldl_append

/-- Some candidate of a strict order is undominated. -/
theorem exists_undominated (strict : Strict better) (some : all ≠ []) :
    ∃ m ∈ all, Undominated better all m := by
  obtain ⟨x, member⟩ := List.exists_mem_of_ne_nil all some
  induction count : all.countP (fun y => decide (better y x)) using Nat.strongRecOn
    generalizing x with
  | ind n ih =>
    by_cases top : Undominated better all x
    · exact ⟨x, member, top⟩
    · unfold Undominated at top
      push Not at top
      obtain ⟨y, there, beats⟩ := top
      -- fewer candidates are better than one that is better
      have fewer : all.countP (fun z => decide (better z y)) < n := by
        rw [← count]
        refine countP_lt (fun z _ above => ?_) there (decide_eq_true beats)
          (decide_eq_false (strict.irrefl y))
        exact decide_eq_true (strict.trans z y x (of_decide_eq_true above) beats)
      exact ih _ fewer y there rfl

theorem place_map {β : Type} {better' : β → β → Prop} [DecidableRel better'] (f : α → β)
    (alike : ∀ x y, better x y ↔ better' (f x) (f y)) (best : List α) (r : α) :
    (place better best r).map f = place better' (best.map f) (f r) := by
  induction best with
  | nil => rfl
  | cons b rest ih =>
    rw [List.map_cons]
    unfold place
    by_cases first : better b r
    · rw [if_pos first, if_pos ((alike b r).mp first)]
      rfl
    · rw [if_neg first, if_neg fun other => first ((alike b r).mpr other)]
      by_cases second : better r b
      · rw [if_pos second, if_pos ((alike r b).mp second), ih]
      · rw [if_neg second, if_neg fun other => second ((alike r b).mpr other)]
        rfl

/-- Candidates may be compared by something that they are mapped to. -/
theorem keep_map {β : Type} {better' : β → β → Prop} [DecidableRel better'] (f : α → β)
    (alike : ∀ x y, better x y ↔ better' (f x) (f y)) (best rem : List α) :
    (keep better best rem).map f = keep better' (best.map f) (rem.map f) := by
  induction rem generalizing best with
  | nil => rfl
  | cons r rem ih =>
    show (keep better (place better best r) rem).map f = _
    rw [ih, place_map f alike]
    rfl

/-! ## Every order of the candidates -/

/-- Every undominated candidate beats every dominated one. -/
def Separated (better : α → α → Prop) (all : List α) : Prop :=
  ∀ m ∈ all, Undominated better all m → ∀ b ∈ all, ¬ Undominated better all b → better m b

/-- What has been kept of the candidates so far. -/
structure Kept (better : α → α → Prop) (all seen best : List α) : Prop where
  among : ∀ x ∈ best, x ∈ seen
  tops : ∀ m ∈ seen, Undominated better all m → m ∈ best
  only : ∀ m ∈ seen, Undominated better all m → ∀ x ∈ best, Undominated better all x

theorem Kept.place {seen : List α} (kept : Kept better all seen best)
    (separated : Separated better all) (inside : r ∈ all) (subset : ∀ x ∈ seen, x ∈ all) :
    Kept better all (seen ++ [r]) (place better best r) where
  among x member := by
    rw [List.mem_append, List.mem_singleton]
    exact (mem_place member).symm.imp (kept.among x) id
  tops m member top := by
    have safe : ∀ y ∈ all, ¬ better y m := top
    rcases List.mem_append.mp member with before | same
    · exact stays (kept.tops m before top) (safe r inside)
    · obtain rfl := List.mem_singleton.mp same
      obtain ⟨rest, first⟩ := place_first
        fun b there => safe b (subset b (kept.among b there))
      rw [first]
      exact List.mem_cons_self
  only m member top x placed := by
    by_cases rTop : Undominated better all r
    · by_cases seenTop : ∃ m' ∈ seen, Undominated better all m'
      · obtain ⟨m', before, top'⟩ := seenTop
        rcases mem_place placed with same | old
        · exact same ▸ rTop
        · exact kept.only m' before top' x old
      · -- nothing that has been seen is undominated: the first one that is beats all of it
        have low : ∀ b ∈ best, ¬ Undominated better all b :=
          fun b there topB => seenTop ⟨b, kept.among b there, topB⟩
        have beats : ∀ b ∈ best, better r b := fun b there =>
          separated r inside rTop b (subset b (kept.among b there)) (low b there)
        have alone := place_alone beats fun b there => rTop b (subset b (kept.among b there))
        rw [alone] at placed
        exact List.mem_singleton.mp placed ▸ rTop
    · have before : m ∈ seen := by
        rcases List.mem_append.mp member with before | same
        · exact before
        · exact absurd (List.mem_singleton.mp same ▸ top) rTop
      have all_top := kept.only m before top
      cases best with
      | nil => exact absurd (kept.tops m before top) List.not_mem_nil
      | cons h rest =>
        have beats := separated h (subset h (kept.among h List.mem_cons_self))
          (all_top h List.mem_cons_self) r inside rTop
        rw [BestCandidates.place, if_pos beats] at placed
        exact all_top x placed

theorem kept_keep {seen rem : List α} (separated : Separated better all)
    (kept : Kept better all seen best) (subset : ∀ x ∈ seen, x ∈ all)
    (rest : ∀ x ∈ rem, x ∈ all) : Kept better all (seen ++ rem) (keep better best rem) := by
  induction rem generalizing seen best with
  | nil => rw [List.append_nil]; exact kept
  | cons r rem ih =>
    have inside := rest r List.mem_cons_self
    have step := kept.place separated inside subset
    have later := ih step
      (fun x member => (List.mem_append.mp member).elim (subset x)
        fun same => List.mem_singleton.mp same ▸ inside)
      fun x member => rest x (List.mem_cons_of_mem r member)
    rw [List.append_assoc] at later
    exact later

theorem mem_keep_iff (strict : Strict better) (separated : Separated better all)
    {order : List α} (perm : order.Perm all) (x : α) :
    x ∈ keep better [] order ↔ x ∈ all ∧ Undominated better all x := by
  have start : Kept better all [] [] := ⟨nofun, nofun, nofun⟩
  have kept : Kept better all order (keep better [] order) :=
    kept_keep separated start nofun fun x => perm.mem_iff.mp
  constructor
  · intro member
    have there := perm.mem_iff.mp (kept.among x member)
    obtain ⟨m, inside, top⟩ := exists_undominated strict (List.ne_nil_of_mem there)
    exact ⟨there, kept.only m (perm.mem_iff.mpr inside) top x member⟩
  · rintro ⟨there, top⟩
    exact kept.tops x (perm.mem_iff.mpr there) top

/-! ## Orders that go wrong -/

/-- A dominated candidate is kept behind an undominated one that does not beat it. -/
theorem kept_behind {m b : α} {others : List α} (inside : ∀ x ∈ others, x ∈ all)
    (there : b ∈ all) (top : Undominated better all m) (misses : ¬ better m b) :
    b ∈ keep better [] (others ++ [m, b]) := by
  have safe : ∀ x ∈ keep better [] others, ¬ better x m := fun x member =>
    top x ((mem_keep member).elim (fun none => absurd none List.not_mem_nil) (inside x))
  obtain ⟨rest, first⟩ := place_first safe
  rw [keep_append]
  show b ∈ place better (place better (keep better [] others) m) b
  rw [first, place, if_neg misses, if_neg (top b there)]
  exact List.mem_cons_self

/-- A dominated candidate is dropped where it comes first, before one that beats it. -/
theorem dropped_first (strict : Strict better) {a b : α} {copies others : List α}
    (same : ∀ x ∈ copies, x = b) (beats : better a b) (rest : b ∉ others) :
    b ∉ keep better [] (copies ++ a :: others) := by
  have own : ∀ x ∈ keep better [] copies, x = b := fun x member =>
    (mem_keep member).elim (fun none => absurd none List.not_mem_nil) (same x)
  have alone : place better (keep better [] copies) a = [a] := by
    refine place_alone (fun x member => own x member ▸ beats) fun x member worse => ?_
    rw [own x member] at worse
    exact strict.irrefl a (strict.trans a b a beats worse)
  rw [keep_append]
  show b ∉ keep better (place better (keep better [] copies) a) others
  rw [alone]
  intro member
  rcases mem_keep member with first | later
  · rw [List.mem_singleton.mp first] at beats
    exact strict.irrefl a beats
  · exact rest later

/-- What is kept is the wanted candidates in every order exactly if the undominated candidates
are the wanted ones and beat all others. -/
theorem keep_iff (strict : Strict better) (all : List α) (wanted : α → Prop) :
    (∀ order : List α, order.Perm all → ∀ x, x ∈ keep better [] order ↔ x ∈ all ∧ wanted x) ↔
      Separated better all ∧ ∀ x ∈ all, Undominated better all x ↔ wanted x := by
  classical
  constructor
  · intro every
    have separated : Separated better all := by
      intro m there top b inside low
      by_contra misses
      have apart : m ≠ b := fun same => low (same ▸ top)
      -- behind the undominated one it is kept
      have split : (((all.erase m).erase b) ++ [m, b]).Perm all := by
        refine List.perm_append_comm.trans ?_
        have back := List.perm_cons_erase there
        have further := List.perm_cons_erase ((List.mem_erase_of_ne apart.symm).mpr inside)
        exact ((further.cons m).symm.trans back.symm)
      have among : ∀ x ∈ (all.erase m).erase b, x ∈ all :=
        fun x member => List.mem_of_mem_erase (List.mem_of_mem_erase member)
      have kept := kept_behind among inside top misses
      have isWanted := ((every _ split b).mp kept).2
      -- before one that beats it it is dropped
      unfold Undominated at low
      push Not at low
      obtain ⟨a, other, beats⟩ := low
      have different : a ≠ b := fun same => strict.irrefl a (same ▸ beats)
      have rest : a ∈ all.filter (fun x => !decide (x = b)) := by
        simp [other, different]
      have order : ((all.filter fun x => decide (x = b)) ++
          a :: (all.filter fun x => !decide (x = b)).erase a).Perm all :=
        ((List.perm_cons_erase rest).symm.append_left _).trans (List.filter_append_perm _ all)
      have same : ∀ x ∈ all.filter fun x => decide (x = b), x = b :=
        fun x member => of_decide_eq_true (List.mem_filter.mp member).2
      have gone : b ∉ (all.filter fun x => !decide (x = b)).erase a := fun member => by
        simpa using (List.mem_filter.mp (List.mem_of_mem_erase member)).2
      have dropped := dropped_first strict same beats gone
      exact dropped ((every _ order b).mpr ⟨inside, isWanted⟩)
    refine ⟨separated, fun x there => ?_⟩
    have kept := every all (List.Perm.refl all) x
    rw [mem_keep_iff strict separated (List.Perm.refl all)] at kept
    exact ⟨fun top => (kept.mp ⟨there, top⟩).2, fun isWanted => (kept.mpr ⟨there, isWanted⟩).2⟩
  · rintro ⟨separated, same⟩ order perm x
    rw [mem_keep_iff strict separated perm]
    exact ⟨fun both => ⟨both.1, (same x both.1).mp both.2⟩,
      fun both => ⟨both.1, (same x both.1).mpr both.2⟩⟩

end Haxe.Theory.BestCandidates
