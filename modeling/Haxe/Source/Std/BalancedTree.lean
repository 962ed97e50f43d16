import Mathlib.Data.List.Basic
import Haxe.Theory.SortedBindings

/-!
# Balanced trees

`haxe.ds.BalancedTree`. No field of a node is assigned after the node is made, so that a tree is
a value, which several trees can share.
-/

namespace Haxe.Source.BalancedTree

/-- `TreeNode`, or `null`. -/
inductive TreeNode (K V : Type) where
  | null
  | node (left : TreeNode K V) (key : K) (value : V) (right : TreeNode K V) (height : Int)
  deriving DecidableEq, Repr

/-- A field of `null` is read, or "Not_found" is thrown. -/
inductive Failure where
  | nullAccess
  | notFound
  deriving DecidableEq, Repr

variable {K V : Type}

namespace TreeNode

/-- `get_height` -/
@[grind =] def getHeight : TreeNode K V → Int
  | null => 0
  | node _ _ _ _ height => height

/-- `new`, where `-1` stands for no height. -/
def new (l : TreeNode K V) (k : K) (v : V) (r : TreeNode K V) (h : Int := -1) : TreeNode K V :=
  if h = -1 then
    node l k v r ((if l.getHeight > r.getHeight then l.getHeight else r.getHeight) + 1)
  else node l k v r h

end TreeNode

open TreeNode

def balance (l : TreeNode K V) (k : K) (v : V) (r : TreeNode K V) :
    Except Failure (TreeNode K V) :=
  let hl := l.getHeight
  let hr := r.getHeight
  if hl > hr + 2 then
    match l with
    | null => .error .nullAccess
    | node lleft lkey lvalue lright _ =>
      if lleft.getHeight ≥ lright.getHeight then
        .ok (new lleft lkey lvalue (new lright k v r))
      else match lright with
        | null => .error .nullAccess
        | node left key value right _ =>
          .ok (new (new lleft lkey lvalue left) key value (new right k v r))
  else if hr > hl + 2 then
    match r with
    | null => .error .nullAccess
    | node rleft rkey rvalue rright _ =>
      if rright.getHeight > rleft.getHeight then
        .ok (new (new l k v rleft) rkey rvalue rright)
      else match rleft with
        | null => .error .nullAccess
        | node left key value right _ =>
          .ok (new (new l k v left) key value (new right rkey rvalue rright))
  else
    .ok (new l k v r ((if hl > hr then hl else hr) + 1))

/-- The key and the value of the node that `minBinding` returns. -/
def minBinding : TreeNode K V → Except Failure (K × V)
  | null => .error .notFound
  | node null key value _ _ => .ok (key, value)
  | node (node left key value right height) _ _ _ _ =>
    minBinding (node left key value right height)

def removeMinBinding : TreeNode K V → Except Failure (TreeNode K V)
  | null => .error .nullAccess
  | node null _ _ right _ => .ok right
  | node (node left key value right height) tkey tvalue tright _ => do
    balance (← removeMinBinding (node left key value right height)) tkey tvalue tright

def merge (t1 t2 : TreeNode K V) : Except Failure (TreeNode K V) :=
  match t1, t2 with
  | null, t2 => .ok t2
  | t1, null => .ok t1
  | t1, t2 => do
    let t ← minBinding t2
    balance t1 t.1 t.2 (← removeMinBinding t2)

section Compare

variable (compare : K → K → Int)

def setLoop (k : K) (v : V) : TreeNode K V → Except Failure (TreeNode K V)
  | null => .ok (new null k v null)
  | node left key value right height =>
    let c := compare k key
    if c = 0 then .ok (new left k v right height)
    else if c < 0 then do balance (← setLoop k v left) key value right
    else do balance left key value (← setLoop k v right)

def removeLoop (k : K) : TreeNode K V → Except Failure (TreeNode K V)
  | null => .error .notFound
  | node left key value right _ =>
    let c := compare k key
    if c = 0 then merge left right
    else if c < 0 then do balance (← removeLoop k left) key value right
    else do balance left key value (← removeLoop k right)

/-- `remove` on the root of a tree, which catches "Not_found". -/
def remove (k : K) (root : TreeNode K V) : Except Failure (TreeNode K V × Bool) :=
  match removeLoop compare k root with
  | .ok root' => .ok (root', true)
  | .error .notFound => .ok (root, false)
  | .error .nullAccess => .error .nullAccess

def get (k : K) : TreeNode K V → Option V
  | null => none
  | node left key value right _ =>
    let c := compare k key
    if c = 0 then some value else if c < 0 then get k left else get k right

def exists_ (k : K) : TreeNode K V → Bool
  | null => false
  | node left key _ right _ =>
    let c := compare k key
    if c = 0 then true else if c < 0 then exists_ k left else exists_ k right

end Compare

/-- The values that `iterator` lists, behind the ones that are listed already. -/
def iteratorLoop : TreeNode K V → List V → List V
  | null, acc => acc
  | node left _ value right _, acc => iteratorLoop right (iteratorLoop left acc ++ [value])

def keysLoop : TreeNode K V → List K → List K
  | null, acc => acc
  | node left key _ right _, acc => keysLoop right (keysLoop left acc ++ [key])

def iterator (root : TreeNode K V) : List V := iteratorLoop root []

def keys (root : TreeNode K V) : List K := keysLoop root []

/-- An operation on one of the trees, which are numbered in the order in which they are made. -/
inductive Operation (K V : Type) where
  | new
  | set (tree : Nat) (key : K) (value : V)
  | remove (tree : Nat) (key : K)
  | copy (tree : Nat)
  | clear (tree : Nat)

/-- One operation on the roots of the trees, with the result of `remove`. -/
@[grind =] def step (compare : K → K → Int) (roots : List (TreeNode K V)) :
    Operation K V → Except Failure (List (TreeNode K V) × Option Bool)
  | .new => .ok (roots ++ [null], none)
  | .set tree key value =>
    (roots[tree]?).elim (.ok (roots, none)) fun root => do
      return (roots.set tree (← setLoop compare key value root), none)
  | .remove tree key =>
    (roots[tree]?).elim (.ok (roots, none)) fun root => do
      let (root', found) ← remove compare key root
      return (roots.set tree root', some found)
  | .copy tree => .ok (roots ++ (roots[tree]?).toList, none)
  | .clear tree => .ok (roots.set tree null, none)

/-- The roots of the trees after some operations, with the results. -/
def run (compare : K → K → Int) (roots : List (TreeNode K V)) :
    List (Operation K V) → Except Failure (List (TreeNode K V) × List (Option Bool))
  | [] => .ok (roots, [])
  | operation :: operations => do
    let (roots', result) ← step compare roots operation
    let (final, results) ← run compare roots' operations
    return (final, result :: results)

end Haxe.Source.BalancedTree

/-!
## Bindings of a balanced tree

What the operations of a tree do to the list of its bindings. That every node stores its height
is all that the rotations need.
-/

namespace Haxe.Source.BalancedTree

open Theory.SortedBindings TreeNode

variable {K V : Type} {compare : K → K → Int}

namespace TreeNode

@[grind =] def depth : TreeNode K V → Nat
  | null => 0
  | node left _ _ right _ => max left.depth right.depth + 1

/-- Every node stores its height. -/
def Exact : TreeNode K V → Prop
  | null => True
  | node left _ _ right height =>
    left.Exact ∧ right.Exact ∧ height = (max left.depth right.depth + 1 : Nat)

/-- The bindings from left to right. -/
@[grind =] def bindings : TreeNode K V → List (K × V)
  | null => []
  | node left key value right _ => left.bindings ++ (key, value) :: right.bindings

theorem bindings_node (left : TreeNode K V) (key : K) (value : V) (right : TreeNode K V)
    (height : Int) : (node left key value right height).bindings =
      left.bindings ++ (key, value) :: right.bindings := rfl

theorem Exact.getHeight {t : TreeNode K V} (exact_ : t.Exact) : t.getHeight = t.depth := by
  cases t with
  | null => rfl
  | node left key value right height => exact exact_.2.2

theorem new_eq {l r : TreeNode K V} (k : K) (v : V) (left : l.Exact) (right : r.Exact) :
    new l k v r = node l k v r (max l.depth r.depth + 1 : Nat) := by
  unfold new
  rw [if_pos rfl, left.getHeight, right.getHeight]
  congr 1
  split_ifs <;> omega

theorem exact_new {l r : TreeNode K V} (k : K) (v : V) (left : l.Exact) (right : r.Exact) :
    (new l k v r).Exact := by
  rw [new_eq k v left right]
  exact ⟨left, right, rfl⟩

@[simp] theorem bindings_new (l : TreeNode K V) (k : K) (v : V) (r : TreeNode K V) (h : Int) :
    (new l k v r h).bindings = l.bindings ++ (k, v) :: r.bindings := by
  unfold new
  split_ifs <;> rfl

end TreeNode

/-- The tree that `balance` makes, by the rotation that it chooses. -/
inductive Balanced (l : TreeNode K V) (k : K) (v : V) (r : TreeNode K V) : TreeNode K V → Prop
  | same (near : l.depth ≤ r.depth + 2 ∧ r.depth ≤ l.depth + 2) :
      Balanced l k v r (node l k v r (max l.depth r.depth + 1 : Nat))
  | rightOnce (lleft : TreeNode K V) (lkey : K) (lvalue : V) (lright : TreeNode K V) (h : Int)
      (left : l = node lleft lkey lvalue lright h) (heavy : r.depth + 2 < l.depth)
      (outer : lright.depth ≤ lleft.depth) :
      Balanced l k v r (new lleft lkey lvalue (new lright k v r))
  | rightTwice (lleft : TreeNode K V) (lkey : K) (lvalue : V) (h : Int) (a : TreeNode K V)
      (key : K) (value : V) (b : TreeNode K V) (h' : Int)
      (left : l = node lleft lkey lvalue (node a key value b h') h)
      (heavy : r.depth + 2 < l.depth)
      (inner : lleft.depth < max a.depth b.depth + 1) :
      Balanced l k v r (new (new lleft lkey lvalue a) key value (new b k v r))
  | leftOnce (rleft : TreeNode K V) (rkey : K) (rvalue : V) (rright : TreeNode K V) (h : Int)
      (right : r = node rleft rkey rvalue rright h) (heavy : l.depth + 2 < r.depth)
      (outer : rleft.depth < rright.depth) :
      Balanced l k v r (new (new l k v rleft) rkey rvalue rright)
  | leftTwice (a : TreeNode K V) (key : K) (value : V) (b : TreeNode K V) (h' : Int) (rkey : K)
      (rvalue : V) (rright : TreeNode K V) (h : Int)
      (right : r = node (node a key value b h') rkey rvalue rright h)
      (heavy : l.depth + 2 < r.depth)
      (inner : rright.depth ≤ max a.depth b.depth + 1) :
      Balanced l k v r (new (new l k v a) key value (new b rkey rvalue rright))

/-- A rotation finds the subtrees that it takes apart. -/
theorem balance_ok {l r : TreeNode K V} (k : K) (v : V) (left : l.Exact) (right : r.Exact) :
    ∃ t, balance l k v r = .ok t ∧ Balanced l k v r t := by
  unfold balance
  dsimp only
  rw [left.getHeight, right.getHeight]
  by_cases leftHeavy : (l.depth : Int) > r.depth + 2
  · rw [if_pos leftHeavy]
    cases l with
    | null => simp only [depth] at leftHeavy; omega
    | node lleft lkey lvalue lright h =>
      obtain ⟨outerExact, innerExact, -⟩ := left
      dsimp only
      rw [outerExact.getHeight, innerExact.getHeight]
      by_cases outer : (lleft.depth : Int) ≥ lright.depth
      · rw [if_pos outer]
        exact ⟨_, rfl, .rightOnce lleft lkey lvalue lright h rfl (by omega) (by omega)⟩
      · rw [if_neg outer]
        cases lright with
        | null => simp only [depth] at outer; omega
        | node a key value b h' =>
          refine ⟨_, rfl, .rightTwice lleft lkey lvalue h a key value b h' rfl (by omega) ?_⟩
          simp only [depth] at outer
          omega
  · rw [if_neg leftHeavy]
    by_cases rightHeavy : (r.depth : Int) > l.depth + 2
    · rw [if_pos rightHeavy]
      cases r with
      | null => simp only [depth] at rightHeavy; omega
      | node rleft rkey rvalue rright h =>
        obtain ⟨innerExact, outerExact, -⟩ := right
        dsimp only
        rw [outerExact.getHeight, innerExact.getHeight]
        by_cases outer : (rright.depth : Int) > rleft.depth
        · rw [if_pos outer]
          exact ⟨_, rfl, .leftOnce rleft rkey rvalue rright h rfl (by omega) (by omega)⟩
        · rw [if_neg outer]
          cases rleft with
          | null =>
            simp only [depth] at outer rightHeavy
            omega
          | node a key value b h' =>
            refine ⟨_, rfl, .leftTwice a key value b h' rkey rvalue rright h rfl (by omega) ?_⟩
            simp only [depth] at outer
            omega
    · rw [if_neg rightHeavy]
      refine ⟨_, rfl, ?_⟩
      have stored :
          new l k v r ((if (l.depth : Int) > r.depth then (l.depth : Int) else r.depth) + 1) =
            node l k v r (max l.depth r.depth + 1 : Nat) := by
        unfold new
        rw [if_neg (by split_ifs <;> omega)]
        congr 1
        split_ifs <;> omega
      rw [stored]
      exact .same ⟨by omega, by omega⟩

theorem Balanced.exact {l r t : TreeNode K V} {k : K} {v : V} (balanced : Balanced l k v r t)
    (left : l.Exact) (right : r.Exact) : t.Exact := by
  cases balanced with
  | same => exact ⟨left, right, rfl⟩
  | rightOnce lleft lkey lvalue lright h shape =>
    subst shape
    exact exact_new _ _ left.1 (exact_new _ _ left.2.1 right)
  | rightTwice lleft lkey lvalue h a key value b h' shape =>
    subst shape
    exact exact_new _ _ (exact_new _ _ left.1 left.2.1.1) (exact_new _ _ left.2.1.2.1 right)
  | leftOnce rleft rkey rvalue rright h shape =>
    subst shape
    exact exact_new _ _ (exact_new _ _ left right.1) right.2.1
  | leftTwice a key value b h' rkey rvalue rright h shape =>
    subst shape
    exact exact_new _ _ (exact_new _ _ left right.1.1) (exact_new _ _ right.1.2.1 right.2.1)

theorem Balanced.bindings {l r t : TreeNode K V} {k : K} {v : V}
    (balanced : Balanced l k v r t) : t.bindings = l.bindings ++ (k, v) :: r.bindings := by
  cases balanced with
  | same => rfl
  | rightOnce lleft lkey lvalue lright h shape =>
    subst shape
    simp [TreeNode.bindings]
  | rightTwice lleft lkey lvalue h a key value b h' shape =>
    subst shape
    simp [TreeNode.bindings]
  | leftOnce rleft rkey rvalue rright h shape =>
    subst shape
    simp [TreeNode.bindings]
  | leftTwice a key value b h' rkey rvalue rright h shape =>
    subst shape
    simp [TreeNode.bindings]

/-- The first binding is taken off. -/
theorem removeMin_ok {left : TreeNode K V} {key : K} {value : V} {right : TreeNode K V}
    {height : Int} (exact_ : (node left key value right height).Exact) :
    ∃ b t, minBinding (node left key value right height) = .ok b ∧
      removeMinBinding (node left key value right height) = .ok t ∧ t.Exact ∧
      (node left key value right height).bindings = b :: t.bindings := by
  induction left generalizing key value right height with
  | null => exact ⟨(key, value), right, rfl, rfl, exact_.2.1, rfl⟩
  | node l k v r h ih =>
    obtain ⟨b, t, least, removed, exactLeft, split⟩ := ih exact_.1
    obtain ⟨t', done, balanced⟩ := balance_ok key value exactLeft exact_.2.1
    refine ⟨b, t', ?_, ?_, balanced.exact exactLeft exact_.2.1, ?_⟩
    · rw [minBinding, least]
    · rw [removeMinBinding, removed]
      exact done
    · rw [balanced.bindings, TreeNode.bindings, split]
      rfl

theorem merge_ok {t1 t2 : TreeNode K V} (first : t1.Exact) (second : t2.Exact) :
    ∃ t, merge t1 t2 = .ok t ∧ t.Exact ∧ t.bindings = t1.bindings ++ t2.bindings := by
  unfold merge
  split
  · exact ⟨t2, rfl, second, rfl⟩
  · exact ⟨t1, rfl, first, (List.append_nil _).symm⟩
  · next filled =>
    cases t2 with
    | null => exact absurd rfl filled
    | node left key value right height =>
      obtain ⟨b, t, least, removed, exactRest, split⟩ := removeMin_ok second
      obtain ⟨t', done, balanced⟩ := balance_ok b.1 b.2 first exactRest
      refine ⟨t', ?_, balanced.exact first exactRest, ?_⟩
      · rw [least, removed]
        exact done
      · rw [balanced.bindings, split]

variable (order : TotalOrder compare)

include order

theorem setLoop_ok (k : K) (v : V) {t : TreeNode K V} (exact_ : t.Exact)
    (sorted : Sorted compare t.bindings) :
    ∃ t', setLoop compare k v t = .ok t' ∧ t'.Exact ∧
      t'.bindings = insert compare k v t.bindings := by
  induction t with
  | null => exact ⟨_, rfl, exact_new k v trivial trivial, bindings_new _ _ _ _ _⟩
  | node left key value right height ihLeft ihRight =>
    obtain ⟨exactLeft, exactRight, stored⟩ := exact_
    obtain ⟨sortedLeft, sortedRight, -⟩ := sorted_append.mp sorted
    unfold setLoop
    rw [bindings_node]
    dsimp only
    split_ifs with equal less
    · refine ⟨_, rfl, ?_, ?_⟩
      · unfold new
        rw [if_neg (by omega)]
        exact ⟨exactLeft, exactRight, stored⟩
      · rw [bindings_new, insert_middle order sorted v equal]
    · obtain ⟨t, set, exactNew, split⟩ := ihLeft exactLeft sortedLeft
      obtain ⟨t', done, balanced⟩ := balance_ok key value exactNew exactRight
      refine ⟨t', ?_, balanced.exact exactNew exactRight, ?_⟩
      · rw [set]
        exact done
      · rw [balanced.bindings, split, insert_front v less]
    · obtain ⟨t, set, exactNew, split⟩ := ihRight exactRight sortedRight
      obtain ⟨t', done, balanced⟩ := balance_ok key value exactLeft exactNew
      refine ⟨t', ?_, balanced.exact exactLeft exactNew, ?_⟩
      · rw [set]
        exact done
      · have more : 0 < compare k key := by omega
        rw [balanced.bindings, split, insert_back order sorted v more]

/-- A key is removed, or not found. -/
theorem removeLoop_ok (k : K) {t : TreeNode K V} (exact_ : t.Exact)
    (sorted : Sorted compare t.bindings) :
    (lookup compare k t.bindings = none ∧ removeLoop compare k t = .error .notFound) ∨
    ((lookup compare k t.bindings).isSome ∧ ∃ t', removeLoop compare k t = .ok t' ∧ t'.Exact ∧
      t'.bindings = erase compare k t.bindings) := by
  induction t with
  | null => exact .inl ⟨rfl, rfl⟩
  | node left key value right height ihLeft ihRight =>
    obtain ⟨exactLeft, exactRight, stored⟩ := exact_
    obtain ⟨sortedLeft, sortedRight, -⟩ := sorted_append.mp sorted
    unfold removeLoop
    rw [bindings_node]
    dsimp only
    split_ifs with equal less
    · obtain ⟨t, done, exactNew, split⟩ := merge_ok exactLeft exactRight
      rw [lookup_middle order sorted equal, erase_middle order sorted equal]
      exact .inr ⟨rfl, t, done, exactNew, split⟩
    · rw [lookup_front order sorted less, erase_front order sorted less]
      rcases ihLeft exactLeft sortedLeft with ⟨unbound, failed⟩ | ⟨bound, t, done, exactNew, split⟩
      · refine .inl ⟨unbound, ?_⟩
        rw [failed]
        rfl
      · obtain ⟨t', done', balanced⟩ := balance_ok key value exactNew exactRight
        refine .inr ⟨bound, t', ?_, balanced.exact exactNew exactRight, ?_⟩
        · rw [done]
          exact done'
        · rw [balanced.bindings, split]
    · have more : 0 < compare k key := by omega
      rw [lookup_back order sorted more, erase_back order sorted more]
      rcases ihRight exactRight sortedRight with
        ⟨unbound, failed⟩ | ⟨bound, t, done, exactNew, split⟩
      · refine .inl ⟨unbound, ?_⟩
        rw [failed]
        rfl
      · obtain ⟨t', done', balanced⟩ := balance_ok key value exactLeft exactNew
        refine .inr ⟨bound, t', ?_, balanced.exact exactLeft exactNew, ?_⟩
        · rw [done]
          exact done'
        · rw [balanced.bindings, split]

theorem get_eq (k : K) {t : TreeNode K V} (sorted : Sorted compare t.bindings) :
    get compare k t = (lookup compare k t.bindings).map Prod.snd := by
  induction t with
  | null => rfl
  | node left key value right height ihLeft ihRight =>
    obtain ⟨sortedLeft, sortedRight, -⟩ := sorted_append.mp sorted
    unfold get
    rw [bindings_node]
    dsimp only
    split_ifs with equal less
    · rw [lookup_middle order sorted equal]
      rfl
    · rw [lookup_front order sorted less]
      exact ihLeft sortedLeft
    · rw [lookup_back order sorted (by dsimp only; omega)]
      exact ihRight sortedRight

theorem exists_eq (k : K) {t : TreeNode K V} (sorted : Sorted compare t.bindings) :
    exists_ compare k t = (lookup compare k t.bindings).isSome := by
  induction t with
  | null => rfl
  | node left key value right height ihLeft ihRight =>
    obtain ⟨sortedLeft, sortedRight, -⟩ := sorted_append.mp sorted
    unfold exists_
    rw [bindings_node]
    dsimp only
    split_ifs with equal less
    · rw [lookup_middle order sorted equal]
      rfl
    · rw [lookup_front order sorted less]
      exact ihLeft sortedLeft
    · rw [lookup_back order sorted (by dsimp only; omega)]
      exact ihRight sortedRight

omit order in
theorem keysLoop_eq (t : TreeNode K V) (acc : List K) :
    keysLoop t acc = acc ++ t.bindings.map Prod.fst := by
  induction t generalizing acc with
  | null => exact (List.append_nil acc).symm
  | node left key value right height ihLeft ihRight =>
    rw [keysLoop, ihLeft, ihRight]
    simp [TreeNode.bindings]

omit order in
theorem iteratorLoop_eq (t : TreeNode K V) (acc : List V) :
    iteratorLoop t acc = acc ++ t.bindings.map Prod.snd := by
  induction t generalizing acc with
  | null => exact (List.append_nil acc).symm
  | node left key value right height ihLeft ihRight =>
    rw [iteratorLoop, ihLeft, ihRight]
    simp [TreeNode.bindings]

end Haxe.Source.BalancedTree
