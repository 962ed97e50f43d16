import Haxe.Theory.BestCandidates

/-!
# Overload resolution

`reduce_compatible` of `overloads.ml` and what it calls. The types, how they are compared and how
an argument is rated are parameters.
-/

namespace Haxe.Source.Overloads

open Theory BestCandidates

/-- A rate of `rate_conv`: the casts, and the distance between classes. -/
abbrev Rate := Int × Int

/-- An argument of a function type: its name, whether it is optional, and its type. -/
structure Arg (Ty : Type) where
  name : String
  opt : Bool
  type : Ty
  deriving DecidableEq, Repr

/-- What is known of types and of the expressions that are passed. -/
structure Types (Ty Expr : Type) where
  /-- `type_iseq` -/
  iseq : Ty → Ty → Bool
  /-- The arguments of a `TFun`. -/
  tfun : Ty → Option (List (Arg Ty))
  follow : Ty → Ty
  /-- `ExtType.is_rest` -/
  isRest : Ty → Bool
  /-- The parameter of `haxe.Rest`. -/
  restParam : Ty → Option Ty
  /-- `rate_arg`; `Not_found` is `none`. -/
  rateArg : Ty → Expr → Option Rate

/-- `field_call_candidate` -/
structure Candidate (Ty Expr : Type) where
  fcArgs : List Expr
  fcType : Ty
  deriving DecidableEq, Repr

inductive Raised where
  | notFound
  | die
  deriving DecidableEq, Repr

/-- The comparison of pairs. -/
def Rate.le (a b : Rate) : Bool := a.1 < b.1 || a.1 = b.1 && a.2 ≤ b.2

def Rate.lt (a b : Rate) : Bool := a.1 < b.1 || a.1 = b.1 && a.2 < b.2

/-- `Ast.safe_for_all2` -/
@[grind =] def safeForAll2 (f : Rate → Rate → Bool) : List Rate → List Rate → Bool
  | [], [] => true
  | a :: as, b :: bs => f a b && safeForAll2 f as bs
  | _, _ => false

/-- `List.exists2`, of lists as long as each other. -/
@[grind =] def exists2 (f : Rate → Rate → Bool) : List Rate → List Rate → Bool
  | a :: as, b :: bs => f a b || exists2 f as bs
  | _, _ => false

def isBest (arg1 arg2 : List Rate) : Bool :=
  safeForAll2 Rate.le arg1 arg2 && exists2 Rate.lt arg1 arg2

section

variable {Ty Expr : Type} (types : Types Ty Expr)

@[grind =] def rmDuplicates (acc : List (Candidate Ty Expr)) :
    List (Candidate Ty Expr) → List (Candidate Ty Expr)
  | [] => acc
  | fcc :: ret =>
    if acc.any fun fcc2 => types.iseq fcc.fcType fcc2.fcType then rmDuplicates acc ret
    else rmDuplicates (fcc :: acc) ret

def countOptionals (t : Ty) : Nat :=
  match types.tfun (types.follow t) with
  | some args => args.countP Arg.opt
  | none => 0

@[grind =] def fewerOptionals (acc : List (Candidate Ty Expr)) :
    List (Candidate Ty Expr) → List (Candidate Ty Expr)
  | [] => acc
  | fcc :: comp =>
    match acc with
    | [] => fewerOptionals [fcc] comp
    | fccAcc :: _ =>
      let accOpt := countOptionals types fccAcc.fcType
      let compOpt := countOptionals types fcc.fcType
      if accOpt = compOpt then fewerOptionals (fcc :: acc) comp
      else if accOpt < compOpt then fewerOptionals acc comp
      else fewerOptionals [fcc] comp

/-- The candidates that the tie-breaks leave. -/
def survivors (compatible : List (Candidate Ty Expr)) : List (Candidate Ty Expr) :=
  fewerOptionals types [] (rmDuplicates types [] compatible)

@[grind =] def rated (rate : Option Rate) : Except Raised Rate :=
  match rate with
  | some rate => .ok rate
  | none => .error .notFound

/-- `List.map (rate_arg t) elist` -/
def rateRest (t : Ty) : List Expr → Except Raised (List Rate)
  | [] => .ok []
  | e :: elist => do
    let rate ← rated (types.rateArg t e)
    return rate :: (← rateRest t elist)

def mkRate (acc : List Rate) : List Expr → List (Arg Ty) → Except Raised (List Rate)
  | [], [] => .ok acc
  | elist, arg :: args =>
    if elist ≠ [] ∧ arg.opt then mkRate acc elist.tail args
    else if args = [] ∧ types.isRest (types.follow arg.type) then
      match types.restParam (types.follow arg.type) with
      -- behind the rates so far, which are there the last one first
      | some t => do return acc ++ (← rateRest types t elist)
      | none => .error .die
    else
      match elist with
      | e :: elist => do mkRate ((← rated (types.rateArg arg.type e)) :: acc) elist args
      | [] => .error .die
  | _ :: _, [] => .error .die

abbrev Rated (Ty Expr : Type) := Candidate Ty Expr × List Rate

/-- The iteration over the candidates: those without a rate are left out. -/
def rateAll : List (Candidate Ty Expr) → List (Rated Ty Expr) →
    Except Raised (List (Rated Ty Expr))
  | [], rated => .ok rated
  | fcc :: compatible, rated =>
    match types.tfun fcc.fcType with
    | none => .error .die
    | some args =>
      match mkRate types [] fcc.fcArgs args with
      | .ok rate => rateAll compatible ((fcc, rate) :: rated)
      | .error .notFound => rateAll compatible rated
      | .error .die => .error .die

end

theorem shorter_best {α : Type} (rem best : List α) :
    Prod.Lex (· < ·) (· < ·) (1, best.length) (rem.length + 1, best.length + 1) := by
  rw [Prod.lex_def]
  dsimp only
  omega

/-- `loop` of `reduce_compatible` -/
def loop {Ty Expr : Type} (best rem : List (Rated Ty Expr)) : List (Rated Ty Expr) :=
  match best, rem with
  | best, [] => best
  | [], r1 :: rem => loop [r1] rem
  | b :: b1, r :: rem =>
    if isBest b.2 r.2 then loop (b :: b1) rem
    else if isBest r.2 b.2 then loop (loop b1 [r]) rem
    else loop (r :: b :: b1) rem
termination_by (rem.length, best.length)
decreasing_by
  · exact Prod.Lex.left _ _ (Nat.lt_succ_self _)
  · exact Prod.Lex.left _ _ (Nat.lt_succ_self _)
  · exact shorter_best rem b1
  · exact Prod.Lex.left _ _ (Nat.lt_succ_self _)
  · exact Prod.Lex.left _ _ (Nat.lt_succ_self _)

/-- `reduce_compatible`; `die` is `none`. -/
def reduceCompatible {Ty Expr : Type} (types : Types Ty Expr)
    (compatible : List (Candidate Ty Expr)) : Option (List (Candidate Ty Expr)) :=
  match survivors types compatible with
  | [] => some []
  | [v] => some [v]
  | compatible =>
    match rateAll types compatible [] with
    | .ok rated => some ((loop [] rated).map Prod.fst)
    | .error _ => none

/-! ## Being better is a strict order -/

theorem Rate.le_trans {a b c : Rate} (first : a.le b) (second : b.le c) : a.le c := by
  simp [Rate.le] at *
  omega

theorem Rate.lt_of_lt_of_le {a b c : Rate} (first : a.lt b) (second : b.le c) : a.lt c := by
  simp [Rate.le, Rate.lt] at *
  omega

theorem Rate.lt_irrefl (a : Rate) : a.lt a = false := by
  simp [Rate.lt]

theorem safeForAll2_trans {as bs cs : List Rate} (first : safeForAll2 Rate.le as bs)
    (second : safeForAll2 Rate.le bs cs) : safeForAll2 Rate.le as cs := by
  induction as generalizing bs cs with
  | nil =>
    cases bs with
    | nil => exact second
    | cons => cases first
  | cons a as ih =>
    cases bs with
    | nil => cases first
    | cons b bs =>
      cases cs with
      | nil => cases second
      | cons c cs =>
        rw [safeForAll2, Bool.and_eq_true] at *
        exact ⟨Rate.le_trans first.1 second.1, ih first.2 second.2⟩

theorem exists2_trans {as bs cs : List Rate} (first : exists2 Rate.lt as bs)
    (second : safeForAll2 Rate.le bs cs) : exists2 Rate.lt as cs := by
  induction as generalizing bs cs with
  | nil => cases first
  | cons a as ih =>
    cases bs with
    | nil => cases first
    | cons b bs =>
      cases cs with
      | nil => cases second
      | cons c cs =>
        rw [exists2, Bool.or_eq_true] at *
        rw [safeForAll2, Bool.and_eq_true] at second
        exact first.imp (fun less => Rate.lt_of_lt_of_le less second.1)
          fun later => ih later second.2

theorem isBest_irrefl (rates : List Rate) : isBest rates rates = false := by
  have none : exists2 Rate.lt rates rates = false := by
    induction rates with
    | nil => rfl
    | cons rate rates ih => rw [exists2, Rate.lt_irrefl, ih]; rfl
  rw [isBest, none, Bool.and_false]

theorem isBest_trans {as bs cs : List Rate} (first : isBest as bs) (second : isBest bs cs) :
    isBest as cs := by
  unfold isBest at *
  rw [Bool.and_eq_true] at *
  exact ⟨safeForAll2_trans first.1 second.1, exists2_trans first.2 second.1⟩

/-! ## The rates of a candidate -/

section

variable {Ty Expr : Type} (types : Types Ty Expr)

/-- The rates in the order in which the arguments are declared, the rest last. -/
def declaredRates : List Expr → List (Arg Ty) → Except Raised (List Rate)
  | [], [] => .ok []
  | elist, arg :: args =>
    if elist ≠ [] ∧ arg.opt then declaredRates elist.tail args
    else if args = [] ∧ types.isRest (types.follow arg.type) then
      match types.restParam (types.follow arg.type) with
      | some t => rateRest types t elist
      | none => .error .die
    else
      match elist with
      | e :: elist => do
        let rate ← rated (types.rateArg arg.type e)
        return rate :: (← declaredRates elist args)
      | [] => .error .die
  | _ :: _, [] => .error .die

/-- The rates that the resolution compares. -/
def ratesOf (fcc : Candidate Ty Expr) : Except Raised (List Rate) :=
  match types.tfun fcc.fcType with
  | some args => mkRate types [] fcc.fcArgs args
  | none => .error .die

def declaredOf (fcc : Candidate Ty Expr) : Except Raised (List Rate) :=
  match types.tfun fcc.fcType with
  | some args => declaredRates types fcc.fcArgs args
  | none => .error .die

/-- What is rated; without a rate nothing. -/
def ratesIn (rates : Except Raised (List Rate)) : List Rate := rates.toOption.getD []

/-- One candidate is better than another by rates in some order. -/
def Beats (rates : Candidate Ty Expr → Except Raised (List Rate)) (x y : Candidate Ty Expr) :
    Prop :=
  isBest (ratesIn (rates x)) (ratesIn (rates y)) = true

instance (rates : Candidate Ty Expr → Except Raised (List Rate)) : DecidableRel (Beats rates) :=
  fun _ _ => inferInstanceAs (Decidable (_ = true))

theorem beats_strict (rates : Candidate Ty Expr → Except Raised (List Rate)) :
    Strict (Beats rates) where
  irrefl _ beats := Bool.false_ne_true ((isBest_irrefl _).symm.trans beats)
  trans _ _ _ first second := isBest_trans first second

end

/-! ## The tie-breaks -/

section

variable {Ty Expr : Type} {types : Types Ty Expr} {acc rest : List (Candidate Ty Expr)}

/-- The types of two candidates differ. -/
def Apart (types : Types Ty Expr) (x y : Candidate Ty Expr) : Prop :=
  types.iseq x.fcType y.fcType = false

theorem rmDuplicates_apart (apart : acc.Pairwise (Apart types)) :
    (rmDuplicates types acc rest).Pairwise (Apart types) := by
  fun_induction rmDuplicates types acc rest with
  | case1 => exact apart
  | case2 acc fcc ret _ ih => exact ih apart
  | case3 acc fcc ret fresh ih =>
    refine ih (List.pairwise_cons.mpr ⟨fun y member => ?_, apart⟩)
    exact Bool.eq_false_iff.mpr fun same => fresh (List.any_eq_true.mpr ⟨y, member, same⟩)

/-- Without duplicates the candidates are turned round. -/
theorem rmDuplicates_of_apart (apart : (rest.reverse ++ acc).Pairwise (Apart types)) :
    rmDuplicates types acc rest = rest.reverse ++ acc := by
  induction rest generalizing acc with
  | nil => rfl
  | cons fcc rest ih =>
    rw [List.reverse_cons, List.append_assoc, List.singleton_append] at apart ⊢
    have fresh : (acc.any fun fcc2 => types.iseq fcc.fcType fcc2.fcType) = false := by
      refine List.any_eq_false.mpr fun y member => Bool.eq_false_iff.mp ?_
      exact (List.pairwise_cons.mp (List.pairwise_append.mp apart).2.1).1 y member
    rw [rmDuplicates, fresh, if_neg Bool.false_ne_true, ih apart]

/-- Candidates with as many optional arguments each. -/
def AsOptional (types : Types Ty Expr) (all : List (Candidate Ty Expr)) : Prop :=
  ∀ x ∈ all, ∀ y ∈ all, countOptionals types x.fcType = countOptionals types y.fcType

theorem fewerOptionals_asOptional (alike : AsOptional types acc) :
    AsOptional types (fewerOptionals types acc rest) := by
  have single : ∀ fcc : Candidate Ty Expr, AsOptional types [fcc] := by
    intro fcc x first y second
    rw [List.mem_singleton.mp first, List.mem_singleton.mp second]
  fun_induction fewerOptionals types acc rest with
  | case1 => exact alike
  | case2 fcc comp ih => exact ih (single fcc)
  | case3 fcc comp fccAcc accs accOpt compOpt same ih =>
    have first : ∀ x ∈ fcc :: fccAcc :: accs,
        countOptionals types x.fcType = countOptionals types fccAcc.fcType := by
      intro x member
      cases List.mem_cons.mp member with
      | inl new => rw [new]; exact same.symm
      | inr old => exact alike x old fccAcc List.mem_cons_self
    exact ih fun x member y other => (first x member).trans (first y other).symm
  | case4 _ _ _ _ _ _ _ _ ih => exact ih alike
  | case5 fcc _ _ _ _ _ _ _ ih => exact ih (single fcc)

theorem fewerOptionals_of_asOptional (alike : AsOptional types (rest.reverse ++ acc)) :
    fewerOptionals types acc rest = rest.reverse ++ acc := by
  induction rest generalizing acc with
  | nil => unfold fewerOptionals; rfl
  | cons fcc rest ih =>
    rw [List.reverse_cons, List.append_assoc, List.singleton_append] at alike ⊢
    cases acc with
    | nil => rw [fewerOptionals, ih alike]
    | cons fccAcc acc =>
      have same := alike fccAcc (by simp) fcc (by simp)
      unfold fewerOptionals
      dsimp only
      rw [if_pos same, ih alike]

theorem fewerOptionals_sublist :
    (fewerOptionals types acc rest).Sublist (rest.reverse ++ acc) := by
  fun_induction fewerOptionals types acc rest with
  | case1 acc => exact List.Sublist.refl _
  | case2 fcc comp ih =>
    rw [List.reverse_cons, List.append_assoc]
    exact ih
  | case3 fcc comp fccAcc accs _ _ _ ih =>
    rw [List.reverse_cons, List.append_assoc]
    exact ih
  | case4 fcc comp fccAcc accs _ _ _ _ ih =>
    rw [List.reverse_cons, List.append_assoc]
    exact ih.trans ((List.sublist_cons_self _ _).append_left _)
  | case5 fcc comp fccAcc accs _ _ _ _ ih =>
    rw [List.reverse_cons, List.append_assoc]
    exact ih.trans ((List.Sublist.cons_cons fcc (List.nil_sublist _)).append_left _)

/-- Type equality is symmetric. -/
def Symmetric (types : Types Ty Expr) : Prop := ∀ s t, types.iseq s t = types.iseq t s

theorem pairwise_apart_perm (symmetric : Symmetric types) {order all : List (Candidate Ty Expr)}
    (perm : order.Perm all) (apart : all.Pairwise (Apart types)) :
    order.Pairwise (Apart types) :=
  (perm.pairwise_iff fun {_ _} one => (symmetric _ _).trans one).mpr apart

theorem survivors_apart (symmetric : Symmetric types) (compatible : List (Candidate Ty Expr)) :
    (survivors types compatible).Pairwise (Apart types) := by
  have apart : (rmDuplicates types [] compatible).Pairwise (Apart types) :=
    rmDuplicates_apart .nil
  have sublist : (survivors types compatible).Sublist
      ((rmDuplicates types [] compatible).reverse ++ []) := fewerOptionals_sublist
  rw [List.append_nil] at sublist
  exact (pairwise_apart_perm symmetric (List.reverse_perm _) apart).sublist sublist

theorem survivors_asOptional (compatible : List (Candidate Ty Expr)) :
    AsOptional types (survivors types compatible) :=
  fewerOptionals_asOptional fun _ member => absurd member List.not_mem_nil

/-- Candidates that no tie-break concerns are all left. -/
theorem survivors_of_settled {all : List (Candidate Ty Expr)} (symmetric : Symmetric types)
    (apart : all.Pairwise (Apart types)) (alike : AsOptional types all) :
    survivors types all = all := by
  have back : (all.reverse ++ []).Pairwise (Apart types) := by
    rw [List.append_nil]
    exact pairwise_apart_perm symmetric (List.reverse_perm all) apart
  have alikeBack : AsOptional types (all.reverse.reverse ++ []) := by
    rw [List.reverse_reverse, List.append_nil]
    exact alike
  rw [survivors, rmDuplicates_of_apart back, List.append_nil,
    fewerOptionals_of_asOptional alikeBack, List.reverse_reverse, List.append_nil]

/-- Every order of the candidates that are left is left of some list of candidates. -/
theorem survivors_perm (symmetric : Symmetric types) {compatible order : List (Candidate Ty Expr)}
    (perm : order.Perm (survivors types compatible)) : survivors types order = order := by
  refine survivors_of_settled symmetric ?_ fun x member y other => ?_
  · exact pairwise_apart_perm symmetric perm (survivors_apart symmetric compatible)
  · exact survivors_asOptional compatible x (perm.mem_iff.mp member) y (perm.mem_iff.mp other)

end

/-! ## The loop -/

def BetterRated {Ty Expr : Type} (r s : Rated Ty Expr) : Prop := isBest r.2 s.2 = true

instance {Ty Expr : Type} : DecidableRel (@BetterRated Ty Expr) :=
  fun _ _ => inferInstanceAs (Decidable (_ = true))

theorem loop_keep {Ty Expr : Type} (best rem : List (Rated Ty Expr)) :
    loop best rem = keep BetterRated best rem := by
  fun_induction loop best rem with
  | case1 best => rfl
  | case2 r1 rem ih => exact ih
  | case3 b b1 r rem first ih =>
    have first : BetterRated b r := first
    rw [ih, keep, keep, List.foldl_cons, place, if_pos first]
  | case4 b b1 r rem first second ih₁ ih₂ =>
    have first : ¬BetterRated b r := first
    have second : BetterRated r b := second
    have placed : place BetterRated (b :: b1) r =
        loop b1 [r] := by
      rw [place, if_neg first, if_pos second, ih₁]
      rfl
    rw [ih₂, keep, keep, List.foldl_cons, placed]
  | case5 b b1 r rem first second ih =>
    have first : ¬BetterRated b r := first
    have second : ¬BetterRated r b := second
    rw [ih, keep, keep, List.foldl_cons, place, if_neg first, if_neg second]

section

variable {Ty Expr : Type} {types : Types Ty Expr}

/-- All candidates have been rated. -/
def AllRated (types : Types Ty Expr) (all : List (Candidate Ty Expr)) : Prop :=
  ∀ x ∈ all, ∃ rates, ratesOf types x = .ok rates

/-- A candidate with its rates. -/
def withRates (types : Types Ty Expr) (fcc : Candidate Ty Expr) : Rated Ty Expr :=
  (fcc, ratesIn (ratesOf types fcc))

theorem rateAll_of_rated {all : List (Candidate Ty Expr)} (every : AllRated types all)
    (before : List (Rated Ty Expr)) :
    rateAll types all before = .ok ((all.map (withRates types)).reverse ++ before) := by
  induction all generalizing before with
  | nil => rfl
  | cons fcc all ih =>
    obtain ⟨rates, rated⟩ := every fcc List.mem_cons_self
    have own : withRates types fcc = (fcc, rates) := by rw [withRates, rated]; rfl
    have later := ih fun x member => every x (List.mem_cons_of_mem fcc member)
    unfold ratesOf at rated
    rw [rateAll, List.map_cons, own, List.reverse_cons, List.append_assoc]
    cases args : types.tfun fcc.fcType with
    | none =>
      rw [args] at rated
      cases rated
    | some args' =>
      rw [args] at rated
      dsimp only at rated ⊢
      rw [rated]
      exact later _

theorem keep_withRates (all : List (Candidate Ty Expr)) :
    (keep BetterRated [] (all.map (withRates types))).map Prod.fst =
      keep (Beats (ratesOf types)) [] all := by
  have alike : ∀ x y, Beats (ratesOf types) x y ↔
      BetterRated (withRates types x) (withRates types y) := fun _ _ => Iff.rfl
  rw [← List.map_nil, ← keep_map (withRates types) alike, List.map_map]
  exact List.map_id _

/-- Rated candidates are kept one after another, the last one first. -/
theorem reduceCompatible_keep {compatible : List (Candidate Ty Expr)}
    (every : AllRated types (survivors types compatible)) :
    reduceCompatible types compatible =
      some (keep (Beats (ratesOf types)) [] (survivors types compatible).reverse) := by
  unfold reduceCompatible
  split
  · rename_i none
    rw [none]
    rfl
  · rename_i v single
    rw [single]
    rfl
  · rw [rateAll_of_rated every, List.append_nil, ← List.map_reverse]
    dsimp only
    rw [loop_keep, keep_withRates]

end

end Haxe.Source.Overloads
