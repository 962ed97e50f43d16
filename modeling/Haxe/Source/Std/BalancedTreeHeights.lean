import Haxe.Source.Std.BalancedTree

/-!
# Heights in a balanced tree

How far the two subtrees of a node are apart. A rotation to the left that could be single is made
twice where the subtrees of the right node have one height; this happens only where the left
subtree has lost a binding.
-/

namespace Haxe.Source.BalancedTree

open TreeNode

variable {K V : Type} {compare : K → K → Int}

namespace TreeNode

/-- The heights of the subtrees of every node differ by at most two. -/
@[grind =] def Leveled : TreeNode K V → Prop
  | null => True
  | node left _ _ right _ => left.Leveled ∧ right.Leveled ∧
      left.depth ≤ right.depth + 2 ∧ right.depth ≤ left.depth + 2

instance decidableLeveled : (t : TreeNode K V) → Decidable t.Leveled
  | null => isTrue trivial
  | node left _ _ right _ =>
    have := decidableLeveled left
    have := decidableLeveled right
    inferInstanceAs (Decidable (_ ∧ _ ∧ _ ∧ _))

/-- The subtrees of the node have different heights. -/
@[grind =] def Uneven : TreeNode K V → Prop
  | null => False
  | node left _ _ right _ => left.depth ≠ right.depth

@[simp] theorem depth_new (l : TreeNode K V) (k : K) (v : V) (r : TreeNode K V) (h : Int) :
    (new l k v r h).depth = max l.depth r.depth + 1 := by
  unfold new
  split_ifs <;> rfl

@[simp] theorem leveled_new (l : TreeNode K V) (k : K) (v : V) (r : TreeNode K V) (h : Int) :
    (new l k v r h).Leveled ↔ l.Leveled ∧ r.Leveled ∧
      l.depth ≤ r.depth + 2 ∧ r.depth ≤ l.depth + 2 := by
  unfold new
  split_ifs <;> rfl

end TreeNode

/-- `balance` rotates to the left twice although the subtrees of the right node have one height,
and the middle subtree that goes to the right is too low for that. -/
@[grind =] def Slips (l : TreeNode K V) : TreeNode K V → Prop
  | node (node a key value b h) rkey rvalue rright h' =>
    l.depth + 2 < (node (node a key value b h) rkey rvalue rright h').depth ∧
      rright.depth = (node a key value b h).depth ∧ b.depth + 2 < rright.depth
  | _ => False

theorem Slips.heavy {l r : TreeNode K V} (slips : Slips l r) : l.depth + 2 < r.depth := by
  unfold Slips at slips
  split at slips
  · exact slips.1
  · cases slips

theorem Slips.even {l rleft rright : TreeNode K V} {rkey : K} {rvalue : V} {h : Int}
    (slips : Slips l (node rleft rkey rvalue rright h)) : rright.depth = rleft.depth := by
  cases rleft with
  | null => cases slips
  | node a key value b h' => exact slips.2.1

/-- What comes of a right subtree that is higher by at most three. -/
theorem Balanced.rightHeavy {l r t : TreeNode K V} {k : K} {v : V} (balanced : Balanced l k v r t)
    (leveled : r.Leveled) (low : l.depth ≤ r.depth + 2) (high : r.depth ≤ l.depth + 3) :
    (t.Leveled ↔ l.Leveled ∧ ¬Slips l r) ∧
      max l.depth r.depth ≤ t.depth ∧ t.depth ≤ max l.depth r.depth + 1 ∧
      (r.depth ≤ l.depth + 2 → t = node l k v r (max l.depth r.depth + 1 : Nat)) ∧
      (l.depth + 2 < r.depth → r.Uneven → t.depth = r.depth) := by
  cases balanced with
  | same near =>
    have slipless : ¬Slips l r := fun slips => by
      have := slips.heavy
      omega
    refine ⟨?_, ?_⟩
    · simp [Leveled, leveled, near, slipless]
    · exact ⟨Nat.le_succ _, Nat.le_refl _, fun _ => rfl, fun heavy _ => by omega⟩
  | rightOnce lleft lkey lvalue lright h shape heavy outer => omega
  | rightTwice lleft lkey lvalue h a key value b h' shape heavy inner => omega
  | leftOnce rleft rkey rvalue rright h shape heavy outer =>
    subst shape
    obtain ⟨leveledLeft, leveledRight, near⟩ := leveled
    have slipless : ¬Slips l (node rleft rkey rvalue rright h) := fun slips => by
      have := slips.even
      omega
    simp only [depth] at low high heavy
    refine ⟨?_, ?_⟩
    · simp only [leveled_new, depth_new, leveledLeft, leveledRight, slipless]
      constructor
      · rintro ⟨⟨leveled, -⟩, -⟩
        exact ⟨leveled, not_false⟩
      · rintro ⟨leveled, -⟩
        exact ⟨⟨leveled, trivial, by omega⟩, trivial, by omega⟩
    · simp only [depth_new, depth]
      exact ⟨by omega, by omega, fun near => by omega, fun _ uneven => by omega⟩
  | leftTwice a key value b h' rkey rvalue rright h shape heavy inner =>
    subst shape
    obtain ⟨⟨leveledA, leveledB, nearMiddle⟩, leveledRight, near⟩ := leveled
    simp only [depth] at low high heavy near
    refine ⟨?_, ?_⟩
    · simp only [leveled_new, depth_new, Slips, depth, leveledA, leveledB, leveledRight]
      constructor
      · rintro ⟨⟨leveled, -⟩, ⟨-, -, fits⟩, -⟩
        exact ⟨leveled, by omega⟩
      · rintro ⟨leveled, slipless⟩
        exact ⟨⟨leveled, trivial, by omega⟩, ⟨trivial, trivial, by omega⟩, by omega⟩
    · simp only [depth_new, depth, Uneven]
      exact ⟨by omega, by omega, fun near => by omega, fun _ uneven => by omega⟩

/-- What comes of a left subtree that is higher by at most three. -/
theorem Balanced.leftHeavy {l r t : TreeNode K V} {k : K} {v : V} (balanced : Balanced l k v r t)
    (leveled : l.Leveled) (low : r.depth ≤ l.depth + 2) (high : l.depth ≤ r.depth + 3) :
    (t.Leveled ↔ r.Leveled) ∧
      max l.depth r.depth ≤ t.depth ∧ t.depth ≤ max l.depth r.depth + 1 ∧
      (l.depth ≤ r.depth + 2 → t = node l k v r (max l.depth r.depth + 1 : Nat)) ∧
      (r.depth + 2 < l.depth → l.Uneven → t.depth = l.depth) := by
  cases balanced with
  | same near =>
    refine ⟨?_, ?_⟩
    · simp [Leveled, leveled, near]
    · exact ⟨Nat.le_succ _, Nat.le_refl _, fun _ => rfl, fun heavy _ => by omega⟩
  | rightOnce lleft lkey lvalue lright h shape heavy outer =>
    subst shape
    obtain ⟨leveledLeft, leveledRight, near⟩ := leveled
    simp only [depth] at low high heavy
    refine ⟨?_, ?_⟩
    · simp only [leveled_new, depth_new, leveledLeft, leveledRight]
      constructor
      · rintro ⟨-, ⟨-, leveled, -⟩, -⟩
        exact leveled
      · intro leveled
        exact ⟨trivial, ⟨trivial, leveled, by omega⟩, by omega⟩
    · simp only [depth_new, depth, Uneven]
      exact ⟨by omega, by omega, fun near => by omega, fun _ uneven => by omega⟩
  | rightTwice lleft lkey lvalue h a key value b h' shape heavy inner =>
    subst shape
    obtain ⟨leveledLeft, ⟨leveledA, leveledB, nearMiddle⟩, near⟩ := leveled
    simp only [depth] at low high heavy near
    refine ⟨?_, ?_⟩
    · simp only [leveled_new, depth_new, leveledA, leveledB, leveledLeft]
      constructor
      · rintro ⟨-, ⟨-, leveled, -⟩, -⟩
        exact leveled
      · intro leveled
        exact ⟨⟨trivial, trivial, by omega⟩, ⟨trivial, leveled, by omega⟩, by omega⟩
    · simp only [depth_new, depth, Uneven]
      exact ⟨by omega, by omega, fun near => by omega, fun _ uneven => by omega⟩
  | leftOnce rleft rkey rvalue rright h shape heavy outer => omega
  | leftTwice a key value b h' rkey rvalue rright h shape heavy inner => omega

/-- `removeMinBinding` makes a rotation that slips. -/
@[grind =] def MinSlips : TreeNode K V → Prop
  | null => False
  | node null _ _ _ _ => False
  | node (node left key value right height) _ _ tright _ =>
    MinSlips (node left key value right height) ∨
      ∃ left', removeMinBinding (node left key value right height) = .ok left' ∧ Slips left' tright

/-- `removeLoop` makes a rotation that slips. -/
def RemoveSlips (compare : K → K → Int) (k : K) : TreeNode K V → Prop
  | null => False
  | node left key _ right _ =>
    let c := compare k key
    if c = 0 then left ≠ null ∧ MinSlips right
    else if c < 0 then RemoveSlips compare k left ∨
      ∃ left', removeLoop compare k left = .ok left' ∧ Slips left' right
    else RemoveSlips compare k right

/-- A new binding makes a tree higher by at most one, and then unevenly. -/
theorem setLoop_leveled (k : K) (v : V) {t : TreeNode K V} (exact_ : t.Exact)
    (leveled : t.Leveled) :
    ∃ t', setLoop compare k v t = .ok t' ∧ t'.Exact ∧ t'.Leveled ∧
      (t'.depth = t.depth ∨ t'.depth = t.depth + 1 ∧ (t.depth = 0 ∨ t'.Uneven)) := by
  induction t with
  | null =>
    exact ⟨_, rfl, exact_new k v trivial trivial, by simp [Leveled, depth], .inr ⟨rfl, .inl rfl⟩⟩
  | node left key value right height ihLeft ihRight =>
    obtain ⟨exactLeft, exactRight, stored⟩ := exact_
    obtain ⟨leveledLeft, leveledRight, near⟩ := leveled
    unfold setLoop
    dsimp only
    split_ifs with equal less
    · refine ⟨_, rfl, ?_, ?_, .inl ?_⟩
      · unfold new
        rw [if_neg (by omega)]
        exact ⟨exactLeft, exactRight, stored⟩
      · exact (leveled_new _ _ _ _ _).mpr ⟨leveledLeft, leveledRight, near⟩
      · rw [depth_new]
        rfl
    · obtain ⟨left', set, exactNew, leveledNew, growth⟩ := ihLeft exactLeft leveledLeft
      obtain ⟨t', done, balanced⟩ := balance_ok key value exactNew exactRight
      obtain ⟨level, -, -, still, turned⟩ := balanced.leftHeavy leveledNew (by omega) (by omega)
      refine ⟨t', ?_, balanced.exact exactNew exactRight, level.mpr leveledRight, ?_⟩
      · rw [set]
        exact done
      · by_cases near' : left'.depth ≤ right.depth + 2
        · rw [still near']
          simp only [depth, Uneven]
          omega
        · obtain ⟨grown, low | uneven⟩ := growth.resolve_left (by omega)
          · omega
          · have := turned (by omega) uneven
            simp only [depth]
            omega
    · obtain ⟨right', set, exactNew, leveledNew, growth⟩ := ihRight exactRight leveledRight
      obtain ⟨t', done, balanced⟩ := balance_ok key value exactLeft exactNew
      obtain ⟨level, -, -, still, turned⟩ := balanced.rightHeavy leveledNew (by omega) (by omega)
      have slipless : ¬Slips left right' := by
        intro slips
        have heavy := slips.heavy
        obtain ⟨grown, low | uneven⟩ := growth.resolve_left (by omega)
        · omega
        · cases right' with
          | null => exact uneven
          | node rleft rkey rvalue rright h => exact uneven slips.even.symm
      refine ⟨t', ?_, balanced.exact exactLeft exactNew, level.mpr ⟨leveledLeft, slipless⟩, ?_⟩
      · rw [set]
        exact done
      · by_cases near' : right'.depth ≤ left.depth + 2
        · rw [still near']
          simp only [depth, Uneven]
          omega
        · obtain ⟨grown, low | uneven⟩ := growth.resolve_left (by omega)
          · omega
          · have := turned (by omega) uneven
            simp only [depth]
            omega

/-- The tree without its first binding is lower by at most one. -/
theorem removeMin_leveled {left : TreeNode K V} {key : K} {value : V} {right : TreeNode K V}
    {height : Int} (exact_ : (node left key value right height).Exact)
    (leveled : (node left key value right height).Leveled) :
    ∃ t, removeMinBinding (node left key value right height) = .ok t ∧ t.Exact ∧
      (t.Leveled ↔ ¬MinSlips (node left key value right height)) ∧
      t.depth ≤ (node left key value right height).depth ∧
      (node left key value right height).depth ≤ t.depth + 1 := by
  induction left generalizing key value right height with
  | null =>
    refine ⟨right, rfl, exact_.2.1, ?_, ?_⟩
    · exact iff_of_true leveled.2.1 not_false
    · simp only [depth]
      omega
  | node l k v r h ih =>
    obtain ⟨exactLeft, exactRight, stored⟩ := exact_
    obtain ⟨leveledLeft, leveledRight, near⟩ := leveled
    obtain ⟨left', removed, exactNew, level, low, high⟩ := ih exactLeft leveledLeft
    obtain ⟨t, done, balanced⟩ := balance_ok key value exactNew exactRight
    obtain ⟨level', atLeast, atMost, still, -⟩ :=
      balanced.rightHeavy leveledRight (by omega) (by omega)
    refine ⟨t, ?_, balanced.exact exactNew exactRight, ?_, ?_⟩
    · rw [removeMinBinding, removed]
      exact done
    · rw [level', level, MinSlips, removed, not_or]
      simp
    · rw [depth]
      by_cases near' : right.depth ≤ left'.depth + 2
      · rw [still near', depth]
        omega
      · omega

/-- The merged tree is as high as a node over the two trees, or lower by one. -/
theorem merge_leveled {t1 t2 : TreeNode K V} (first : t1.Exact) (second : t2.Exact)
    (leveled1 : t1.Leveled) (leveled2 : t2.Leveled) (near1 : t1.depth ≤ t2.depth + 2)
    (near2 : t2.depth ≤ t1.depth + 2) :
    ∃ t, merge t1 t2 = .ok t ∧ t.Exact ∧ (t.Leveled ↔ ¬(t1 ≠ null ∧ MinSlips t2)) ∧
      max t1.depth t2.depth ≤ t.depth ∧ t.depth ≤ max t1.depth t2.depth + 1 := by
  unfold merge
  split
  · refine ⟨t2, rfl, second, iff_of_true leveled2 (by simp), ?_⟩
    simp only [depth]
    omega
  · refine ⟨t1, rfl, first, iff_of_true leveled1 (by simp [MinSlips]), ?_⟩
    simp only [depth]
    omega
  · next empty filled =>
    cases t2 with
    | null => exact absurd rfl filled
    | node left key value right height =>
      obtain ⟨b, -, least, -⟩ := removeMin_ok second
      obtain ⟨t, removed, exactRest, level, low, high⟩ := removeMin_leveled second leveled2
      obtain ⟨t', done, balanced⟩ := balance_ok b.1 b.2 first exactRest
      obtain ⟨level', atLeast, atMost, still, -⟩ :=
        balanced.leftHeavy leveled1 (by omega) (by omega)
      refine ⟨t', ?_, balanced.exact first exactRest, ?_, ?_⟩
      · rw [least, removed]
        exact done
      · rw [level', level]
        simp [show t1 ≠ null from empty]
      · by_cases near' : t1.depth ≤ t.depth + 2
        · have same : t'.depth = max t1.depth t.depth + 1 := congrArg depth (still near')
          omega
        · omega

theorem removeLoop_leveled (k : K) {t : TreeNode K V} (exact_ : t.Exact) (leveled : t.Leveled) :
    removeLoop compare k t = .error .notFound ∨
    ∃ t', removeLoop compare k t = .ok t' ∧ t'.Exact ∧
      (t'.Leveled ↔ ¬RemoveSlips compare k t) ∧ t'.depth ≤ t.depth ∧ t.depth ≤ t'.depth + 1 := by
  induction t with
  | null => exact .inl rfl
  | node left key value right height ihLeft ihRight =>
    obtain ⟨exactLeft, exactRight, stored⟩ := exact_
    obtain ⟨leveledLeft, leveledRight, near⟩ := leveled
    unfold removeLoop RemoveSlips
    dsimp only
    split_ifs with equal less
    · obtain ⟨t, done, exactNew, level, low, high⟩ :=
        merge_leveled exactLeft exactRight leveledLeft leveledRight near.1 near.2
      refine .inr ⟨t, done, exactNew, level, ?_⟩
      simp only [depth]
      omega
    · rcases ihLeft exactLeft leveledLeft with failed | ⟨left', removed, exactNew, level, low, high⟩
      · refine .inl ?_
        rw [failed]
        rfl
      · obtain ⟨t', done, balanced⟩ := balance_ok key value exactNew exactRight
        obtain ⟨level', atLeast, atMost, still, -⟩ :=
          balanced.rightHeavy leveledRight (by omega) (by omega)
        refine .inr ⟨t', ?_, balanced.exact exactNew exactRight, ?_, ?_⟩
        · rw [removed]
          exact done
        · rw [level', level, removed, not_or]
          simp
        · by_cases near' : right.depth ≤ left'.depth + 2
          · rw [still near']
            simp only [depth]
            omega
          · simp only [depth]
            omega
    · rcases ihRight exactRight leveledRight with
        failed | ⟨right', removed, exactNew, level, low, high⟩
      · refine .inl ?_
        rw [failed]
        rfl
      · obtain ⟨t', done, balanced⟩ := balance_ok key value exactLeft exactNew
        obtain ⟨level', atLeast, atMost, still, -⟩ :=
          balanced.leftHeavy leveledLeft (by omega) (by omega)
        refine .inr ⟨t', ?_, balanced.exact exactLeft exactNew, level'.trans level, ?_⟩
        · rw [removed]
          exact done
        · by_cases near' : left.depth ≤ right'.depth + 2
          · rw [still near']
            simp only [depth]
            omega
          · simp only [depth]
            omega

end Haxe.Source.BalancedTree
