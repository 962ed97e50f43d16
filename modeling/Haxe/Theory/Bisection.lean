import Mathlib.Data.List.Pairwise
import Mathlib.Order.Lattice

/-!
# Bisection

The last entry of an ordered list whose key is at most a bound, by going through the entries and by
halving a range of them.
-/

namespace Haxe.Theory.Bisection

variable {K V : Type} [LinearOrder K]

/-- Going through the entries, the last one whose key is at most `p`. -/
def scan (p : K) (entries : List (K × V)) : Option (K × V) :=
  entries.foldl (fun found entry => if entry.1 ≤ p then some entry else found) none

/-- The range from `min` to `max` is halved until it has one entry. An entry outside of the list
gives `none`. -/
@[grind =] def bisect (entries : List (K × V)) (p : K) :
    Nat → Nat → Nat → Option (Nat × (K × V))
  | 0, _, _ => none
  | fuel + 1, min, max =>
    entries[(min + max) / 2]?.bind fun entry =>
      if (min + max) / 2 = min then some (min, entry)
      else if p < entry.1 then bisect entries p fuel min ((min + max) / 2)
      else bisect entries p fuel ((min + max) / 2) max

/-- The entry at an index is the last one whose key is at most `p`, by its neighbour. -/
structure Found (entries : List (K × V)) (p : K) (i : Nat) (entry : K × V) : Prop where
  here : entries[i]? = some entry
  atMost : entry.1 ≤ p
  behind : ∀ next, entries[i + 1]? = some next → p < next.1

section Scan

variable {entries : List (K × V)} {p : K} {i : Nat} {entry : K × V}

theorem scan_later {later : List (K × V)} (beyond : ∀ next ∈ later, p < next.1)
    (found : Option (K × V)) :
    later.foldl (fun found entry => if entry.1 ≤ p then some entry else found) found = found := by
  induction later with
  | nil => rfl
  | cons next later ih =>
    have first := beyond next List.mem_cons_self
    rw [List.foldl_cons, if_neg (not_le_of_gt first)]
    exact ih fun other member => beyond other (List.mem_cons_of_mem next member)

theorem scan_append (front later : List (K × V)) (atMost : entry.1 ≤ p)
    (beyond : ∀ next ∈ later, p < next.1) : scan p (front ++ entry :: later) = some entry := by
  rw [scan, List.foldl_append, List.foldl_cons, if_pos atMost, scan_later beyond]

theorem Found.index_lt (found : Found entries p i entry) : i < entries.length :=
  (List.getElem?_eq_some_iff.mp found.here).1

/-- In an ordered list the neighbour speaks for all that follow. -/
theorem Found.scan_eq (found : Found entries p i entry)
    (ordered : entries.Pairwise fun a b => a.1 ≤ b.1) : scan p entries = some entry := by
  obtain ⟨inside, here⟩ := List.getElem?_eq_some_iff.mp found.here
  have split : entries = entries.take i ++ entry :: entries.drop (i + 1) := by
    rw [← here, ← List.drop_eq_getElem_cons inside, List.take_append_drop]
  rw [split]
  refine scan_append _ _ found.atMost ?_
  cases later : entries.drop (i + 1) with
  | nil => exact fun next member => absurd member List.not_mem_nil
  | cons first rest =>
    have next : entries[i + 1]? = some first := by
      rw [← List.head?_drop, later]
      rfl
    have beyond := found.behind first next
    have tail : (first :: rest).Pairwise fun a b => a.1 ≤ b.1 :=
      later ▸ ordered.sublist (List.drop_sublist (i + 1) entries)
    intro other member
    rcases List.mem_cons.mp member with rfl | behind
    · exact beyond
    · exact lt_of_lt_of_le beyond ((List.pairwise_cons.mp tail).1 other behind)

end Scan

/-- A range that begins at most at `p` and ends beyond it has the entry, and one unit of fuel for
each of its entries is enough. -/
theorem bisect_found {entries : List (K × V)} {p : K} {fuel min max : Nat} (order : min < max)
    (inside : max ≤ entries.length) (low : ∀ entry, entries[min]? = some entry → entry.1 ≤ p)
    (high : ∀ entry, entries[max]? = some entry → p < entry.1) (enough : max ≤ min + fuel) :
    ∃ i entry, bisect entries p fuel min max = some (i, entry) ∧ Found entries p i entry := by
  induction fuel generalizing min max with
  | zero => omega
  | succ fuel ih =>
    have middle : (min + max) / 2 < entries.length := by omega
    obtain ⟨entry, read⟩ : ∃ entry, entries[(min + max) / 2]? = some entry :=
      ⟨_, List.getElem?_eq_getElem middle⟩
    rw [bisect, read, Option.bind_some]
    by_cases single : (min + max) / 2 = min
    · rw [if_pos single]
      have last : max = min + 1 := by omega
      rw [single] at read
      exact ⟨min, entry, rfl, read, low entry read, last ▸ high⟩
    · rw [if_neg single]
      by_cases beyond : p < entry.1
      · rw [if_pos beyond]
        refine ih (by omega) (by omega) low (fun other here => ?_) (by omega)
        rw [read] at here
        exact Option.some.inj here ▸ beyond
      · rw [if_neg beyond]
        refine ih (by omega) inside (fun other here => ?_) high (by omega)
        rw [read] at here
        exact Option.some.inj here ▸ not_lt.mp beyond

end Haxe.Theory.Bisection
