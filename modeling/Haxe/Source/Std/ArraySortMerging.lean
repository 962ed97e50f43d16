import Haxe.Source.Std.ArraySort
import Haxe.Theory.StableSorting

/-!
# The merge of `ArraySort`

The searches, the insertions into a short part, and the merge of two adjacent blocks.
-/

namespace Haxe.Source.ArraySort

open Theory.StableSorting

variable {T : Type} {cmp : T → T → Int}

theorem half_natCast (n : Nat) : (n : Int) >>> (1 : Nat) = (n / 2 : Nat) := by
  rw [Int.shiftRight_eq_div_pow]
  omega

/-- The search finds where the elements that it passes end. -/
theorem search_ok {right : Int → Option Bool} {passed : Nat → Bool} {len : Nat} {from_ : Int}
    (answers : ∀ q < len, right (from_ + q) = some (passed q))
    (falls : ∀ q q', q ≤ q' → q' < len → passed q' = true → passed q = true) :
    ∃ k, k ≤ len ∧ search right from_ len = some (from_ + k) ∧ (∀ q < k, passed q = true) ∧
      ∀ q < len, k ≤ q → passed q = false := by
  induction len using Nat.strong_induction_on generalizing from_ passed with
  | _ len ih =>
    rw [search]
    by_cases some_left : 0 < len
    · rw [if_pos (by omega)]
      dsimp only [Bind.bind, Option.bind]
      rw [half_natCast, answers (len / 2) (by omega)]
      dsimp only
      by_cases goes : passed (len / 2) = true
      · have rest : (len : Int) - (len / 2 : Nat) - 1 = (len - len / 2 - 1 : Nat) := by omega
        have behind : from_ + (len / 2 : Nat) + 1 = from_ + (len / 2 + 1 : Nat) := by omega
        rw [if_pos goes, rest, behind]
        obtain ⟨k, most, found, before, after⟩ := @ih (len - len / 2 - 1) (by omega)
          (fun q => passed (len / 2 + 1 + q)) (from_ + (len / 2 + 1 : Nat))
          (by
            intro q bound
            rw [← answers _ (by omega)]
            congr 1
            omega)
          (fun q q' most bound => falls _ _ (by omega) (by omega))
        refine ⟨len / 2 + 1 + k, by omega, ?_, ?_, ?_⟩
        · rw [found]
          congr 1
          omega
        · intro q bound
          by_cases low : q ≤ len / 2
          · exact falls q _ low (by omega) goes
          · have := before (q - (len / 2 + 1)) (by omega)
            rwa [Nat.add_sub_cancel' (by omega)] at this
        · intro q bound least
          have := after (q - (len / 2 + 1)) (by omega) (by omega)
          rwa [Nat.add_sub_cancel' (by omega)] at this
      · rw [if_neg goes]
        obtain ⟨k, most, found, before, after⟩ := @ih (len / 2) (by omega) passed from_
          (fun q bound => answers q (by omega))
          (fun q q' most bound => falls q q' most (by omega))
        refine ⟨k, by omega, found, before, ?_⟩
        intro q bound least
        by_cases low : q < len / 2
        · exact after q low least
        · apply Bool.eq_false_iff.mpr
          intro yes
          exact goes (falls _ q (by omega) bound yes)
    · rw [if_neg (by omega)]
      refine ⟨0, by omega, ?_, by omega, by omega⟩
      congr 1
      omega

/-- The search cuts a block behind the elements that it passes. -/
theorem search_split {right : Int → Option Bool} {passes : T → Bool} {block : List T} {from_ : Int}
    (answers : ∀ q < block.length, right (from_ + q) = block[q]?.map passes)
    (falls : block.Pairwise fun x y => passes y = true → passes x = true) :
    ∃ front back, block = front ++ back ∧
      search right from_ block.length = some (from_ + front.length) ∧
      (∀ x ∈ front, passes x = true) ∧ ∀ x ∈ back, passes x = false := by
  have element (q : Nat) (bound : q < block.length) : block[q]? = some block[q] :=
    List.getElem?_eq_getElem bound
  obtain ⟨k, most, found, before, after⟩ := @search_ok right
    (fun q => (block[q]?.map passes).getD false) block.length from_
    (by
      intro q bound
      rw [answers q bound, element q bound]
      rfl)
    (by
      intro q q' most bound yes
      rw [element q' bound] at yes
      rw [element q (by omega)]
      by_cases same : q = q'
      · subst same
        exact yes
      · exact List.pairwise_iff_getElem.mp falls q q' (by omega) bound (by omega) yes)
  refine ⟨block.take k, block.drop k, (List.take_append_drop k block).symm, ?_, ?_, ?_⟩
  · rw [found, List.length_take_of_le most]
  · intro x mem
    obtain ⟨q, bound, rfl⟩ := List.mem_take_iff_getElem.mp mem
    have := before q (by omega)
    rwa [element q (by omega)] at this
  · intro x mem
    obtain ⟨q, bound, rfl⟩ := List.mem_drop_iff_getElem.mp mem
    have := after (k + q) (by omega) (by omega)
    rwa [element (k + q) (by omega)] at this

/-- `lower` cuts a block in front of the elements that are not below a value. -/
theorem lower_ok (preorder : TotalPreorder cmp) {a pre block post : List T}
    (array : a = pre ++ block ++ post) (ordered : Ordered cmp block) {from_ to_ val : Int}
    (from_is : from_ = pre.length) (to_is : to_ = pre.length + block.length) {p : T}
    (value : read a val = some p) :
    ∃ front back, block = front ++ back ∧
      lower a cmp from_ to_ val = some (from_ + front.length) ∧
      (∀ x ∈ front, cmp x p < 0) ∧ ∀ x ∈ back, cmp p x ≤ 0 := by
  have size : to_ - from_ = block.length := by omega
  unfold lower
  rw [size]
  obtain ⟨front, back, split, found, before, after⟩ := @search_split T
    (fun mid => do return (← compare a cmp mid val) < 0) (fun x => cmp x p < 0) block from_
    (by
      intro q bound
      unfold compare
      rw [value, array, read_block pre post bound (by omega)]
      cases block[q]? <;> rfl)
    (by
      apply ordered.imp
      intro x y most less
      exact decide_eq_true (preorder.lt_of_le_of_lt most (of_decide_eq_true less)))
  exact ⟨front, back, split, found, fun x mem => of_decide_eq_true (before x mem),
    fun x mem => preorder.le_of_not_lt (of_decide_eq_false (after x mem))⟩

/-- `upper` cuts a block in front of the elements that are above a value. -/
theorem upper_ok (preorder : TotalPreorder cmp) {a pre block post : List T}
    (array : a = pre ++ block ++ post) (ordered : Ordered cmp block) {from_ to_ val : Int}
    (from_is : from_ = pre.length) (to_is : to_ = pre.length + block.length) {p : T}
    (value : read a val = some p) :
    ∃ front back, block = front ++ back ∧
      upper a cmp from_ to_ val = some (from_ + front.length) ∧
      (∀ x ∈ front, cmp x p ≤ 0) ∧ ∀ x ∈ back, cmp p x < 0 := by
  have size : to_ - from_ = block.length := by omega
  unfold upper
  rw [size]
  obtain ⟨front, back, split, found, before, after⟩ := @search_split T
    (fun mid => do return !((← compare a cmp val mid) < 0)) (fun x => !(cmp p x < 0)) block from_
    (by
      intro q bound
      unfold compare
      rw [value, array, read_block pre post bound (by omega)]
      cases block[q]? <;> rfl)
    (by
      apply ordered.imp
      intro x y most reached
      simp only [Bool.not_eq_true', decide_eq_false_iff_not] at reached ⊢
      intro less
      exact reached (preorder.lt_of_lt_of_le less most))
  refine ⟨front, back, split, found, ?_, ?_⟩
  · intro x mem
    apply preorder.le_of_not_lt
    simpa using before x mem
  · intro x mem
    simpa using after x mem

theorem compare_block (pre post : List T) {block : List T} {q q' : Nat} (bound : q < block.length)
    (bound' : q' < block.length) {i j : Int} (i_is : i = pre.length + q)
    (j_is : j = pre.length + q') :
    compare (pre ++ block ++ post) cmp i j = some (cmp block[q] block[q']) := by
  unfold compare
  rw [read_block pre post bound i_is, read_block pre post bound' j_is,
    List.getElem?_eq_getElem bound, List.getElem?_eq_getElem bound']
  rfl

/-- `swap` of two neighbours, in either order. -/
theorem swap_neighbours (pre post : List T) (x y : T) {i j : Int} (i_is : i = pre.length)
    (j_is : j = pre.length + 1) :
    swap (pre ++ [x, y] ++ post) i j = some (pre ++ [y, x] ++ post) ∧
      swap (pre ++ [x, y] ++ post) j i = some (pre ++ [y, x] ++ post) := by
  have first : i = pre.length + (0 : Nat) := by omega
  have second : j = pre.length + (1 : Nat) := by omega
  unfold swap
  rw [@read_block T pre post [x, y] 0 Nat.two_pos i first,
    @read_block T pre post [x, y] 1 Nat.one_lt_two j second]
  dsimp only [Bind.bind, Option.bind, List.getElem?_cons_zero, List.getElem?_cons_succ]
  rw [@write_block T pre post [x, y] 0 Nat.two_pos i first,
    @write_block T pre post [x, y] 1 Nat.one_lt_two j second]
  dsimp only [List.set_cons_zero, List.set_cons_succ]
  constructor
  · exact @write_block T pre post [y, y] 1 Nat.one_lt_two j second x
  · exact @write_block T pre post [x, x] 0 Nat.two_pos i first y

/-- An element sinks into the ordered block in front of it. -/
theorem sink_ok (preorder : TotalPreorder cmp) (pre : List T) {block post : List T} {x : T}
    (ordered : Ordered cmp block) {from_ j : Int} (from_is : from_ = pre.length)
    (j_is : j = pre.length + block.length) :
    ∃ front back, block = front ++ back ∧
      sink cmp from_ (pre ++ (block ++ [x]) ++ post) j =
        some (pre ++ (front ++ x :: back) ++ post) ∧
      (∀ y ∈ front, cmp y x ≤ 0) ∧ ∀ y ∈ back, cmp x y < 0 := by
  induction block using List.reverseRecOn generalizing post j with
  | nil =>
    rw [List.length_nil] at j_is
    rw [sink, if_neg (by omega)]
    exact ⟨[], [], rfl, rfl, by simp, by simp⟩
  | append_singleton block y ih =>
    rw [List.length_append, List.length_singleton] at j_is
    obtain ⟨ordered', -, below⟩ := ordered.split
    have pair : pre ++ (block ++ [y] ++ [x]) ++ post = pre ++ block ++ [y, x] ++ post := by simp
    have size : (pre ++ block).length = pre.length + block.length := List.length_append
    rw [sink, if_pos (by omega), pair,
      @compare_block T cmp (pre ++ block) post [y, x] 1 0 Nat.one_lt_two Nat.two_pos j
        (j - 1) (by omega) (by omega)]
    dsimp only [Bind.bind, Option.bind, List.getElem_cons_zero, List.getElem_cons_succ]
    by_cases less : cmp x y < 0
    · obtain ⟨front, back, split, sunk, before, after⟩ :=
        @ih (y :: post) ordered' (j - 1) (by omega)
      have again : pre ++ block ++ [x, y] ++ post = pre ++ (block ++ [x]) ++ y :: post := by simp
      rw [if_pos less,
        (@swap_neighbours T (pre ++ block) post y x (j - 1) j (by omega) (by omega)).1]
      dsimp only
      rw [again, sunk]
      refine ⟨front, back ++ [y], ?_, ?_, before, ?_⟩
      · rw [split, List.append_assoc]
      · simp
      · intro z mem
        rcases List.mem_append.mp mem with mem | mem
        · exact after z mem
        · exact (List.mem_singleton.mp mem) ▸ less
    · rw [if_neg less]
      refine ⟨block ++ [y], [], by simp, by simp, ?_, by simp⟩
      have most := preorder.le_of_not_lt less
      intro z mem
      rcases List.mem_append.mp mem with mem | mem
      · exact preorder.trans (below z mem y (List.mem_singleton_self y)) most
      · exact (List.mem_singleton.mp mem) ▸ most

/-- The short part is sorted by insertions. -/
theorem insertion_ok (preorder : TotalPreorder cmp) (pre post : List T) {block rest : List T}
    (ordered : Ordered cmp block) {from_ to_ i : Int} (from_is : from_ = pre.length)
    (i_is : i = pre.length + block.length) (to_is : to_ = i + rest.length) :
    ∃ sorted, insertion cmp from_ to_ (pre ++ (block ++ rest) ++ post) i =
        some (pre ++ sorted ++ post) ∧
      Ordered cmp sorted ∧ Stably cmp (block ++ rest) sorted := by
  induction rest generalizing block i with
  | nil =>
    rw [List.length_nil] at to_is
    rw [insertion, if_neg (by omega), List.append_nil]
    exact ⟨block, rfl, ordered, .refl block⟩
  | cons x rest ih =>
    rw [List.length_cons] at to_is
    obtain ⟨front, back, split, sunk, before, after⟩ :=
      @sink_ok T cmp preorder pre block (rest ++ post) x ordered from_ i from_is i_is
    have here : pre ++ (block ++ x :: rest) ++ post =
        pre ++ (block ++ [x]) ++ (rest ++ post) := by simp
    have there : pre ++ (front ++ x :: back) ++ (rest ++ post) =
        pre ++ ((front ++ x :: back) ++ rest) ++ post := by simp
    have under : Under cmp [x] back := by
      intro y mem
      rw [List.mem_singleton.mp mem]
      exact after
    obtain ⟨orderedFront, orderedBack, below⟩ := (split ▸ ordered).split
    have ordered' : Ordered cmp (front ++ x :: back) := by
      apply orderedFront.append
      · exact List.pairwise_cons.mpr ⟨fun y mem => Int.le_of_lt (after y mem), orderedBack⟩
      · intro y mem z mem'
        rcases List.mem_cons.mp mem' with rfl | mem'
        · exact before y mem
        · exact below y mem z mem'
    have moved : Stably cmp (block ++ x :: rest) (front ++ x :: back ++ rest) := by
      have exchanged := (Stably.refl front).append
        ((Stably.exchange preorder under).append (@Stably.refl T cmp rest))
      simpa [split] using exchanged
    have size : block.length = front.length + back.length := by
      rw [split, List.length_append]
    rw [insertion, if_pos (by omega), here]
    dsimp only [Bind.bind, Option.bind]
    rw [sunk]
    dsimp only
    rw [there]
    obtain ⟨sorted, done, orderedAll, stably⟩ := @ih (front ++ x :: back) ordered' (i + 1)
      (by rw [List.length_append, List.length_cons]; omega) (by omega)
    exact ⟨sorted, done, orderedAll, moved.trans stably⟩

/-- What the cuts of two ordered blocks leave: the front parts, then the back parts. -/
structure Cut (cmp : T → T → Int) (front₁ front₂ back₁ back₂ : List T) : Prop where
  under : Under cmp back₁ front₂
  below : Below cmp (front₁ ++ back₁) (front₂ ++ back₂)

theorem Cut.around (preorder : TotalPreorder cmp) {front₁ front₂ back₁ back₂ : List T} {p : T}
    (under : Under cmp back₁ front₂) (least₁ : ∀ x ∈ front₁, cmp x p ≤ 0)
    (least₂ : ∀ x ∈ back₁, cmp x p ≤ 0) (most₁ : ∀ x ∈ front₂, cmp p x ≤ 0)
    (most₂ : ∀ x ∈ back₂, cmp p x ≤ 0) : Cut cmp front₁ front₂ back₁ back₂ := by
  refine ⟨under, Below.through preorder (p := p) ?_ ?_⟩
  · intro x mem
    exact (List.mem_append.mp mem).elim (least₁ x) (least₂ x)
  · intro x mem
    exact (List.mem_append.mp mem).elim (most₁ x) (most₂ x)

/-- An element of an ordered list lies between those in front of it and those behind it. -/
theorem Ordered.around (preorder : TotalPreorder cmp) {front back : List T} {p : T}
    (ordered : Ordered cmp (front ++ p :: back)) :
    (∀ x ∈ front, cmp x p ≤ 0) ∧ ∀ x ∈ p :: back, cmp p x ≤ 0 := by
  obtain ⟨-, orderedBack, below⟩ := ordered.split
  refine ⟨fun x mem => below x mem p List.mem_cons_self, ?_⟩
  intro x mem
  rcases List.mem_cons.mp mem with rfl | mem
  · exact Int.le_of_eq (preorder.irrefl x)
  · exact (List.pairwise_cons.mp orderedBack).1 x mem

theorem exists_middle {block : List T} (nonempty : block ≠ []) :
    ∃ front p back, block = front ++ p :: back ∧ front.length = block.length / 2 := by
  have positive := List.length_pos_iff.mpr nonempty
  refine ⟨block.take (block.length / 2), block[block.length / 2],
    block.drop (block.length / 2 + 1), ?_, List.length_take_of_le (by omega)⟩
  rw [← List.drop_eq_getElem_cons, List.take_append_drop]

/-- Both blocks are cut around an element from the middle of the longer one. -/
theorem cuts_ok (preorder : TotalPreorder cmp) (pre post : List T) {front back : List T}
    (orderedFront : Ordered cmp front) (orderedBack : Ordered cmp back) (nonempty : front ≠ [])
    (nonempty' : back ≠ []) (more : 2 < front.length + back.length)
    {from_ pivot to_ : Int} (from_is : from_ = pre.length)
    (pivot_is : pivot = pre.length + front.length) (to_is : to_ = pivot + back.length) :
    ∃ front₁ front₂ back₁ back₂, front = front₁ ++ front₂ ∧ back = back₁ ++ back₂ ∧
      cuts (pre ++ front ++ back ++ post) cmp from_ pivot to_ front.length back.length =
        some ⟨from_ + front₁.length, pivot + back₁.length, front₁.length, back₁.length⟩ ∧
      Cut cmp front₁ front₂ back₁ back₂ ∧ 0 < front₁.length + back₁.length ∧
      0 < front₂.length + back₂.length ∧ 0 < front₁.length + back₂.length := by
  have frontPos := List.length_pos_iff.mpr nonempty
  have backPos := List.length_pos_iff.mpr nonempty'
  unfold cuts
  by_cases longer : back.length < front.length
  · obtain ⟨front₁, p, rest, split, size⟩ := exists_middle nonempty
    obtain ⟨least, most⟩ := Ordered.around preorder (split ▸ orderedFront)
    have value : read (pre ++ front ++ back ++ post) (from_ + front₁.length) = some p := by
      rw [List.append_assoc _ back, @read_block T pre (back ++ post) front front₁.length (by omega)
        _ (by omega), split, List.getElem?_append_right (le_refl _), Nat.sub_self]
      rfl
    obtain ⟨back₁, back₂, split', found, before, after⟩ :=
      @lower_ok T cmp preorder _ (pre ++ front) back post rfl orderedBack pivot to_ _
        (by rw [List.length_append]; omega) (by rw [List.length_append]; omega) p value
    rw [if_pos (by omega), half_natCast, ← size]
    refine ⟨front₁, p :: rest, back₁, back₂, split, split', ?_, ?_, by omega,
      by rw [List.length_cons]; omega, by omega⟩
    · dsimp only [Bind.bind, Option.bind, Pure.pure]
      rw [found]
      dsimp only
      congr 2
      omega
    · apply Cut.around preorder _ least (fun x mem => Int.le_of_lt (before x mem)) most after
      intro x mem y mem'
      exact preorder.lt_of_lt_of_le (before x mem) (most y mem')
  · obtain ⟨back₁, p, rest, split, size⟩ := exists_middle nonempty'
    obtain ⟨least, most⟩ := Ordered.around preorder (split ▸ orderedBack)
    have value : read (pre ++ front ++ back ++ post) (pivot + back₁.length) = some p := by
      rw [@read_block T (pre ++ front) post back back₁.length (by omega) _
        (by rw [List.length_append]; omega), split, List.getElem?_append_right (le_refl _),
        Nat.sub_self]
      rfl
    obtain ⟨front₁, front₂, split', found, before, after⟩ :=
      @upper_ok T cmp preorder (pre ++ front ++ back ++ post) pre front (back ++ post)
        (List.append_assoc ..) orderedFront from_ pivot _ from_is pivot_is p value
    rw [if_neg (by omega), half_natCast, ← size]
    refine ⟨front₁, front₂, back₁, p :: rest, split', split, ?_, ?_, by omega,
      by rw [List.length_cons]; omega, by rw [List.length_cons]; omega⟩
    · dsimp only [Bind.bind, Option.bind, Pure.pure]
      rw [found]
      dsimp only
      congr 2
      omega
    · apply Cut.around preorder _ before least (fun x mem => Int.le_of_lt (after x mem)) most
      intro x mem y mem'
      exact preorder.lt_of_le_of_lt (least x mem) (after y mem')

/-- `doMerge` merges two adjacent ordered blocks. -/
theorem doMerge_ok (preorder : TotalPreorder cmp) (pre post : List T) {front back : List T}
    (orderedFront : Ordered cmp front) (orderedBack : Ordered cmp back) {fuel : Nat}
    (enough : front.length + back.length < fuel) {from_ pivot to_ len1 len2 : Int}
    (from_is : from_ = pre.length) (pivot_is : pivot = from_ + front.length)
    (to_is : to_ = pivot + back.length) (len1_is : len1 = front.length)
    (len2_is : len2 = back.length) :
    ∃ merged, doMerge cmp fuel (pre ++ front ++ back ++ post) from_ pivot to_ len1 len2 =
        some (pre ++ merged ++ post) ∧
      Ordered cmp merged ∧ Stably cmp (front ++ back) merged := by
  induction fuel generalizing pre post front back from_ pivot to_ len1 len2 with
  | zero => omega
  | succ fuel ih =>
    unfold doMerge
    by_cases empty : front = [] ∨ back = []
    · rcases empty with rfl | rfl
      · rw [if_pos (.inl len1_is), List.append_nil]
        exact ⟨back, rfl, orderedBack, .refl back⟩
      · rw [if_pos (.inr len2_is), List.append_nil, List.append_nil]
        exact ⟨front, rfl, orderedFront, .refl front⟩
    · rw [not_or] at empty
      have frontPos := List.length_pos_iff.mpr empty.1
      have backPos := List.length_pos_iff.mpr empty.2
      rw [if_neg (by omega)]
      by_cases pair : len1 + len2 = 2
      · obtain ⟨x, rfl⟩ := List.length_eq_one_iff.mp (by omega : front.length = 1)
        obtain ⟨y, rfl⟩ := List.length_eq_one_iff.mp (by omega : back.length = 1)
        rw [List.length_singleton] at pivot_is
        have joined : pre ++ [x] ++ [y] ++ post = pre ++ [x, y] ++ post := by simp
        rw [if_pos pair, joined, @compare_block T cmp pre post [x, y] 1 0 Nat.one_lt_two
          Nat.two_pos pivot from_ (by omega) (by omega)]
        dsimp only [Bind.bind, Option.bind, List.getElem_cons_zero, List.getElem_cons_succ]
        by_cases less : cmp y x < 0
        · rw [if_pos less,
            (@swap_neighbours T pre post x y from_ pivot (by omega) (by omega)).2]
          refine ⟨[y, x], rfl, ?_, @Stably.exchange T cmp preorder [x] [y] ?_⟩
          · simpa [Ordered] using Int.le_of_lt less
          · simpa [Under] using less
        · rw [if_neg less]
          refine ⟨[x, y], rfl, ?_, .refl _⟩
          simpa [Ordered] using preorder.le_of_not_lt less
      · rw [if_neg pair]
        obtain ⟨front₁, front₂, back₁, back₂, split, split', cut, ⟨under, below⟩, less₁, less₂,
          less₃⟩ := @cuts_ok T cmp preorder pre post front back orderedFront orderedBack empty.1
            empty.2 (by omega) from_ pivot to_ from_is (by omega) to_is
        rw [len1_is, len2_is, cut]
        subst split split'
        rw [List.length_append, List.length_append] at *
        obtain ⟨orderedFront₁, orderedFront₂, -⟩ := orderedFront.split
        obtain ⟨orderedBack₁, orderedBack₂, -⟩ := orderedBack.split
        have blocks : pre ++ (front₁ ++ front₂) ++ (back₁ ++ back₂) ++ post =
            pre ++ front₁ ++ front₂ ++ back₁ ++ (back₂ ++ post) := by simp
        have first : from_ + front₁.length = (pre ++ front₁).length := by
          rw [List.length_append]
          omega
        have middle : pivot = (pre ++ front₁).length + front₂.length := by
          rw [List.length_append]
          omega
        have second : pivot + back₁.length =
            (pre ++ front₁).length + front₂.length + back₁.length := by
          rw [List.length_append]
          omega
        have rotated := @rotate_ok T (pre ++ front₁) (back₂ ++ post) front₂ back₁ fuel (by omega)
        rw [← second, ← middle, ← first] at rotated
        dsimp only [Bind.bind, Option.bind]
        rw [blocks, rotated]
        dsimp only
        have around : pre ++ front₁ ++ back₁ ++ front₂ ++ (back₂ ++ post) =
            pre ++ front₁ ++ back₁ ++ (front₂ ++ back₂ ++ post) := by simp
        obtain ⟨merged₁, done₁, ordered₁, stably₁⟩ :=
          @ih pre (front₂ ++ back₂ ++ post) front₁ back₁ orderedFront₁ orderedBack₁ (by omega)
            from_ (from_ + front₁.length) (from_ + front₁.length + back₁.length) front₁.length
            back₁.length from_is rfl rfl rfl rfl
        rw [around, done₁]
        dsimp only
        have size := stably₁.length_eq
        rw [List.length_append] at size
        have behind : pre ++ merged₁ ++ (front₂ ++ back₂ ++ post) =
            pre ++ merged₁ ++ front₂ ++ back₂ ++ post := by simp
        obtain ⟨merged₂, done₂, ordered₂, stably₂⟩ :=
          @ih (pre ++ merged₁) post front₂ back₂ orderedFront₂ orderedBack₂ (by omega)
            (from_ + front₁.length + back₁.length) (pivot + back₁.length) to_
            ((front₁.length + front₂.length : Nat) - front₁.length)
            ((back₁.length + back₂.length : Nat) - back₁.length)
            (by rw [List.length_append]; omega) (by omega) (by omega) (by omega) (by omega)
        rw [behind, done₂]
        refine ⟨merged₁ ++ merged₂, by simp, ordered₁.append ordered₂ ?_, ?_⟩
        · exact below.perm stably₁.perm stably₂.perm
        · have exchanged := (Stably.refl front₁).append
            ((Stably.exchange preorder under).append (@Stably.refl T cmp back₂))
          have moved := exchanged.trans (by simpa using stably₁.append stably₂)
          simpa using moved

end Haxe.Source.ArraySort

/-!
## The parts of `ArraySort`

`sort` halves the array down to short parts. The largest sum of two indices is that of the last
part: while it stays below 2^31 every part is sorted, and once it wraps the middle is negative
and an index outside the array is read.
-/

namespace Haxe.Source.ArraySort

open Theory.StableSorting

variable {T : Type} {cmp : T → T → Int}

/-- The length of the last part after some halvings. -/
@[grind =] def lastPart : Nat → Nat → Nat
  | 0, n => n
  | k + 1, n => (lastPart k n + 1) / 2

/-- No part that is halved ends at indices whose sum wraps. -/
def Fits (n : Nat) : Prop := ∀ k, 12 ≤ lastPart k n → 2 * n - lastPart k n < 2 ^ 31

theorem lastPart_le (k n : Nat) : lastPart k n ≤ n := by
  induction k with
  | zero => exact Nat.le_refl n
  | succ k ih =>
    rw [lastPart]
    omega

theorem lastPart_antitone {j k : Nat} (before : j ≤ k) (n : Nat) :
    lastPart k n ≤ lastPart j n := by
  induction before with
  | refl => exact Nat.le_refl _
  | step _ ih =>
    rw [lastPart]
    omega

theorem wrap_of_lt {x : Int} (least : 0 ≤ x) (most : x < 2 ^ 31) : wrap x = x := by
  unfold wrap
  apply Int.bmod_eq_of_le <;> omega

theorem wrap_of_ge {x : Int} (least : 2 ^ 31 ≤ x) (most : x < 2 ^ 32) :
    wrap x = x - 2 ^ 32 := by
  unfold wrap
  rw [← Int.sub_bmod_right]
  apply Int.bmod_eq_of_le <;> omega

theorem shiftRight_one (x : Int) : x >>> (1 : Nat) = x / 2 := by
  rw [Int.shiftRight_eq_div_pow]
  omega

/-- The part is the last one after `k` halvings, or it has the last one behind it. -/
def PartAt (n k : Nat) (block post : List T) : Prop :=
  block.length = lastPart k n ∧ post.length = 0 ∨
    block.length ≤ lastPart k n ∧ lastPart k n ≤ post.length

/-- A part is sorted, as long as no sum of indices wraps. -/
theorem sortPart_ok (preorder : TotalPreorder cmp) {n : Nat} (int_length : n < 2 ^ 31)
    (fits : Fits n) {fuel k : Nat} {pre block post : List T}
    (array : pre.length + block.length + post.length = n) (part : PartAt n k block post)
    (enough : block.length + 1 < fuel) {from_ to_ : Int} (from_is : from_ = pre.length)
    (to_is : to_ = from_ + block.length) :
    ∃ sorted, sortPart cmp fuel (pre ++ block ++ post) from_ to_ = some (pre ++ sorted ++ post) ∧
      Ordered cmp sorted ∧ Stably cmp block sorted := by
  induction fuel generalizing k pre block post from_ to_ with
  | zero => omega
  | succ fuel ih =>
    have width : wrap (to_ - from_) = block.length := by
      rw [wrap_of_lt (by omega) (by omega)]
      omega
    rw [sortPart, width]
    by_cases short : (block.length : Int) < 12
    · rw [if_pos short]
      cases block with
      | nil =>
        rw [if_pos (by rw [to_is, List.length_nil]; omega)]
        exact ⟨[], rfl, List.Pairwise.nil, .refl []⟩
      | cons x rest =>
        rw [List.length_cons] at to_is
        rw [if_neg (by omega)]
        exact @insertion_ok T cmp preorder pre post [x] rest (List.pairwise_singleton _ x) from_
          to_ (from_ + 1) from_is (by rw [List.length_singleton]; omega) (by omega)
    · have sum : 2 * n - lastPart k n < 2 ^ 31 := by
        apply fits
        rcases part with ⟨size, -⟩ | ⟨most, -⟩ <;> omega
      have bound := lastPart_le k n
      have middle : wrap (from_ + to_) >>> (1 : Nat) = pre.length + (block.length / 2 : Nat) := by
        rw [wrap_of_lt (by omega) (by rcases part with ⟨size, last⟩ | ⟨most, more⟩ <;> omega),
          shiftRight_one]
        omega
      rw [if_neg short, middle]
      have cut := List.take_append_drop (block.length / 2) block
      have front_size : (block.take (block.length / 2)).length = block.length / 2 :=
        List.length_take_of_le (by omega)
      have back_size : (block.drop (block.length / 2)).length = (block.length + 1) / 2 := by
        rw [List.length_drop]
        omega
      generalize block.take (block.length / 2) = front at *
      generalize block.drop (block.length / 2) = back at *
      have partFront : PartAt n (k + 1) front (back ++ post) := by
        unfold PartAt at *
        rw [lastPart, List.length_append]
        omega
      have partBack : PartAt n (k + 1) back post := by
        unfold PartAt at *
        rw [lastPart]
        omega
      obtain ⟨sorted₁, done₁, ordered₁, stably₁⟩ := @ih (k + 1) pre front (back ++ post)
        (by rw [List.length_append]; omega) partFront (by omega) from_
        (pre.length + (block.length / 2 : Nat)) from_is (by omega)
      have size₁ := stably₁.length_eq
      obtain ⟨sorted₂, done₂, ordered₂, stably₂⟩ := @ih (k + 1) (pre ++ sorted₁) back post
        (by rw [List.length_append]; omega) partBack (by omega)
        (pre.length + (block.length / 2 : Nat)) to_ (by rw [List.length_append]; omega) (by omega)
      have size₂ := stably₂.length_eq
      obtain ⟨merged, done, ordered, stably⟩ := @doMerge_ok T cmp preorder pre post sorted₁
        sorted₂ ordered₁ ordered₂ fuel (by omega) from_ (pre.length + (block.length / 2 : Nat)) to_
        (pre.length + (block.length / 2 : Nat) - from_)
        (to_ - (pre.length + (block.length / 2 : Nat))) from_is (by omega) (by omega) (by omega)
        (by omega)
      have array₁ : pre ++ block ++ post = pre ++ front ++ (back ++ post) := by
        rw [← cut]
        simp
      have array₂ : pre ++ sorted₁ ++ (back ++ post) = pre ++ sorted₁ ++ back ++ post := by simp
      dsimp only [Bind.bind, Option.bind]
      rw [array₁, done₁]
      dsimp only
      rw [array₂, done₂]
      dsimp only
      rw [done]
      exact ⟨merged, rfl, ordered, cut ▸ (stably₁.append stably₂).trans stably⟩

/-- A short part that begins at a negative index is not sorted: that index is read. -/
theorem insertion_negative (a : List T) {from_ to_ : Int} (negative : from_ < 0)
    (before : from_ + 1 < to_) : insertion cmp from_ to_ a (from_ + 1) = none := by
  have outside : read a (from_ + 1 - 1) = none := by
    unfold read
    rw [if_pos (by omega)]
  rw [insertion, if_pos before, sink, if_pos (by omega)]
  unfold compare
  rw [outside]
  cases read a (from_ + 1) <;> rfl

/-- Once the sum of two indices wraps, no run ends. -/
theorem sortPart_fails {n k : Nat} (int_length : n < 2 ^ 31) (long : 12 ≤ lastPart k n)
    (wraps : 2 ^ 31 ≤ 2 * n - lastPart k n) {j : Nat} (before : j ≤ k) (fuel : Nat) (a : List T) :
    sortPart cmp fuel a (n - lastPart j n : Nat) n = none := by
  induction fuel generalizing j a with
  | zero => rfl
  | succ fuel ih =>
    have least := lastPart_antitone before n
    have most := lastPart_le j n
    have width : wrap ((n : Int) - (n - lastPart j n : Nat)) = lastPart j n := by
      rw [wrap_of_lt (by omega) (by omega)]
      omega
    rw [sortPart]
    dsimp only [Bind.bind, Option.bind]
    rw [width, if_neg (by omega)]
    cases sortPart cmp fuel a (n - lastPart j n : Nat)
        (wrap ((n - lastPart j n : Nat) + (n : Int)) >>> (1 : Nat)) with
    | none => rfl
    | some a' =>
      dsimp only
      have second :
          sortPart cmp fuel a' (wrap ((n - lastPart j n : Nat) + (n : Int)) >>> (1 : Nat)) n =
            none := by
        by_cases now : 2 ^ 31 ≤ 2 * n - lastPart j n
        · rw [wrap_of_ge (by omega) (by omega), shiftRight_one]
          cases fuel with
          | zero => rfl
          | succ fuel =>
            have turned : wrap ((n : Int) -
                (((n - lastPart j n : Nat) + (n : Int) - 2 ^ 32) / 2)) < 0 := by
              rw [wrap_of_ge (by omega) (by omega)]
              omega
            rw [sortPart, if_pos (by omega), if_neg (by omega)]
            exact insertion_negative a' (by omega) (by omega)
        · have notLast : j ≠ k := by
            rintro rfl
            exact now wraps
          have middle : wrap ((n - lastPart j n : Nat) + (n : Int)) >>> (1 : Nat) =
              (n - lastPart (j + 1) n : Nat) := by
            rw [wrap_of_lt (by omega) (by omega), shiftRight_one, lastPart]
            omega
          rw [middle]
          exact ih (by omega) a'
      rw [second]

end Haxe.Source.ArraySort
