import Mathlib.Data.List.Forall2
import Mathlib.Logic.Relation
import Haxe.Source.Generators.HlInterp
import Haxe.Theory.Raising

/-!
# What the HashLink interpreter accesses

The registers that `interp` gets and sets, against the table `opcode_fx`. Every opcode keeps to the
registers of the table, but for those of `unreported`, which it reads on every path.
-/

namespace Haxe.Source.HlInterp

open Theory Hl

/-! ## What is accessed -/

/-- What has been logged is allowed, and so is a write of the register of each new trap. -/
structure Allowed {Ctx : Type} (P : Access → Prop) (s t : State Ctx) : Prop where
  logged : ∃ more, t.accesses = s.accesses ++ more ∧ ∀ access ∈ more, P access
  trapped : ∀ trap ∈ t.traps, trap ∈ s.traps ∨ P (write trap.1)

section Allowed

variable {Ctx F : Type} {P Q : Access → Prop} {s t u : State Ctx}

theorem Allowed.of_eq (accesses : t.accesses = s.accesses) (traps : t.traps = s.traps) :
    Allowed P s t :=
  ⟨⟨[], accesses.trans (List.append_nil _).symm, fun _ member => nomatch member⟩,
    fun _ member => .inl (traps ▸ member)⟩

theorem Allowed.refl (s : State Ctx) : Allowed P s s := .of_eq rfl rfl

theorem Allowed.trans (first : Allowed P s t) (next : Allowed P t u) : Allowed P s u := by
  obtain ⟨⟨more, logged, allowed⟩, trapped⟩ := first
  obtain ⟨⟨more', logged', allowed'⟩, trapped'⟩ := next
  refine ⟨⟨more ++ more', by rw [logged', logged, List.append_assoc], ?_⟩, fun trap member => ?_⟩
  · intro access member
    rcases List.mem_append.mp member with here | later
    · exact allowed access here
    · exact allowed' access later
  · rcases trapped' trap member with before | new
    · exact trapped trap before
    · exact .inr new

theorem Allowed.mono (allowed : Allowed P s t) (imp : ∀ access, P access → Q access) :
    Allowed Q s t := by
  obtain ⟨⟨more, logged, all⟩, trapped⟩ := allowed
  exact ⟨⟨more, logged, fun access member => imp access (all access member)⟩,
    fun trap member => (trapped trap member).imp_right (imp _)⟩

/-- A computation accesses only what is allowed. -/
abbrev Within (P : Access → Prop) {α : Type} (x : M Ctx F α) : Prop := Respects (Allowed P) x

namespace Within

variable {α β : Type} {x : M Ctx F α} {f : α → M Ctx F β} {r a b : Reg}

theorem pure (v : α) : Within P (Pure.pure v : M Ctx F α) := Respects.pure Allowed.refl v

theorem throw (e : Raise F) : Within P (throw e : M Ctx F α) := Respects.throw Allowed.refl e

theorem bind (first : Within P x) (next : ∀ v, Within P (f v)) : Within P (x >>= f) :=
  Respects.bind Allowed.trans first next

theorem die : Within P (Frame.die : M Ctx F α) := throw .die

theorem error (message : String) : Within P (Frame.error message : M Ctx F α) := throw _

theorem nullAccess : Within P (Frame.nullAccess : M Ctx F α) := throw _

theorem lift (y : Comp Ctx F α) : Within P (Frame.lift y) := by
  intro s
  unfold Frame.lift
  cases y s.ctx with
  | ok v ctx => exact .of_eq rfl rfl
  | error e ctx => exact .of_eq rfl rfl

/-- A lifted computation, and what follows. -/
theorem lift_bind {y : Comp Ctx F α} (next : ∀ v, Within P (f v)) :
    Within P (Frame.lift y >>= f) := bind (lift y) next

variable (fr : Frame Ctx F)

theorem throwValue (v : Value F) : Within P (fr.throwValue v : M Ctx F α) :=
  fun _ => .of_eq rfl rfl

theorem throwMsg (message : String) : Within P (fr.throwMsg message : M Ctx F α) :=
  lift_bind fun _ => throwValue fr _

theorem check (v : Value F) (t : Ttype) (id : String) : Within P (fr.check v t id) := by
  unfold Frame.check
  split
  · exact lift_bind fun _ => error _
  · exact pure ()

theorem checkObj (v o : Value F) (fid : Nat) : Within P (fr.checkObj v o fid) := by
  unfold Frame.checkObj
  split
  · split
    · exact lift_bind fun _ => check fr _ _ _
    · exact lift_bind fun _ => check fr _ _ _
    · exact pure ()
  · exact pure ()

theorem logs {s t : State Ctx} {access : Access} (allowed : P access)
    (accesses : t.accesses = s.accesses ++ [access]) (traps : t.traps = s.traps) :
    Allowed P s t :=
  ⟨⟨[access], accesses, fun _ member => List.mem_singleton.mp member ▸ allowed⟩,
    fun _ member => .inl (traps ▸ member)⟩

theorem get (allowed : P (read r)) : Within P (fr.get r) := fun _ => logs allowed rfl rfl

theorem get_bind {g : Value F → M Ctx F β} (allowed : P (read r)) (next : ∀ v, Within P (g v)) :
    Within P (fr.get r >>= g) := bind (get fr allowed) next

theorem set (v : Value F) (allowed : P (write r)) : Within P (fr.set r v) :=
  bind (check fr _ _ _) fun _ _ => logs allowed rfl rfl

theorem assign {y : M Ctx F (Value F)} (value : Within P y) (allowed : P (write r)) :
    Within P (fr.assign r y) := bind value fun v => set fr v allowed

theorem gets {rl : List Reg} (allowed : ∀ r ∈ rl, P (read r)) : Within P (fr.gets rl) := by
  induction rl with
  | nil => exact pure []
  | cons r rl ih =>
    refine get_bind fr (allowed r List.mem_cons_self) fun _ => ?_
    exact bind (ih fun r member => allowed r (List.mem_cons_of_mem _ member)) fun _ => pure _

theorem getTyped {rl : List Reg} (allowed : ∀ r ∈ rl, P (read r)) :
    Within P (fr.getTyped rl) := by
  induction rl with
  | nil => exact pure []
  | cons r rl ih =>
    refine get_bind fr (allowed r List.mem_cons_self) fun _ => ?_
    exact bind (ih fun r member => allowed r (List.mem_cons_of_mem _ member)) fun _ => pure _

theorem getBoth (first : P (read a)) (second : P (read b)) : Within P (fr.getBoth a b) :=
  get_bind fr first fun v => get_bind fr second fun w => pure (v, w)

theorem getBoth_bind {g : Value F × Value F → M Ctx F β} (first : P (read a))
    (second : P (read b)) (next : ∀ both, Within P (g both)) : Within P (fr.getBoth a b >>= g) :=
  bind (getBoth fr first second) next

theorem numop (i : BitVec 32 → BitVec 32 → BitVec 32) (g : F → F → F) (first : P (read a))
    (second : P (read b)) : Within P (fr.numop i g a b) := by
  unfold Frame.numop
  split
  all_goals first
    | exact die
    | (refine getBoth_bind fr first second fun _ => ?_
       split
       · exact pure _
       · exact die)

theorem iop (g : BitVec 32 → BitVec 32 → BitVec 32) (first : P (read a)) (second : P (read b)) :
    Within P (fr.iop g a b) := by
  unfold Frame.iop
  split
  all_goals first
    | exact die
    | (refine getBoth_bind fr first second fun _ => ?_
       split
       · exact pure _
       · exact die)

theorem iunop (g : BitVec 32 → BitVec 32) (allowed : P (read r)) : Within P (fr.iunop g r) := by
  unfold Frame.iunop
  split
  all_goals first
    | exact die
    | (refine get_bind fr allowed fun _ => ?_
       split
       · exact pure _
       · exact die)

theorem ucompare (first : P (read a)) (second : P (read b)) : Within P (fr.ucompare a b) := by
  refine getBoth_bind fr first second fun _ => ?_
  split
  · exact pure _
  · exact die

theorem vcompare (op : Int → Bool) (first : P (read a)) (second : P (read b)) :
    Within P (fr.vcompare a b op) :=
  get_bind fr first fun _ => get_bind fr second fun _ => lift_bind fun _ => pure _

theorem jump (i : Int) : Within P (Frame.jump i : M Ctx F Unit) := fun _ => .of_eq rfl rfl

theorem jumpIf {condition : M Ctx F Bool} (value : Within P condition) (i : Int) :
    Within P (Frame.jumpIf condition i) := by
  refine bind value fun holds => ?_
  split
  · exact jump i
  · exact pure ()

theorem orDie (within : Within P x) : Within P (Frame.orDie x) := by
  intro s
  have here := within s
  unfold Frame.orDie
  split
  · next ran =>
    rw [ran] at here
    exact here
  · exact here

theorem pushTrap (j : Int) (allowed : P (write r)) :
    Within P (Frame.pushTrap r j : M Ctx F Unit) := by
  intro s
  refine ⟨⟨[], (List.append_nil _).symm, fun _ member => nomatch member⟩, fun trap member => ?_⟩
  rcases List.mem_cons.mp member with rfl | before
  · exact .inr allowed
  · exact .inl before

theorem popTrap : Within P (Frame.popTrap : M Ctx F Unit) := by
  intro s
  unfold Frame.popTrap
  split
  · exact .refl s
  · next traps eq =>
    refine ⟨⟨[], (List.append_nil _).symm, fun _ member => nomatch member⟩, fun trap member => ?_⟩
    rw [eq]
    exact .inl (List.mem_cons_of_mem _ member)

/-! Opcodes with a body of their own. -/

section Bodies

variable {d : Reg} {rl : List Reg}

theorem fcall_gets (f : Nat) (arguments : List (Value F) → List (Value F))
    (reads : ∀ r ∈ rl, P (read r)) :
    Within P (fr.gets rl >>= fun args => Frame.lift (fr.fcall f (arguments args))) :=
  bind (gets fr reads) fun _ => lift _

theorem dynCall_getTyped (v : Value F) (t : Ttype) (reads : ∀ r ∈ rl, P (read r)) :
    Within P (fr.getTyped rl >>= fun args => Frame.lift (fr.dynCall v args t)) :=
  bind (getTyped fr reads) fun _ => lift _

theorem callFun (f : Nat) (reads : ∀ r ∈ rl, P (read r)) (writes : P (write d)) :
    Within P (fr.callFun d f rl) :=
  assign fr (lift_bind fun g => fcall_gets fr g id reads) writes

theorem getField (fid : Nat) (reads : P (read a)) : Within P (fr.getField d a fid) := by
  refine get_bind fr reads fun v => ?_
  split
  · exact lift _
  · exact lift _
  · refine lift_bind fun index => ?_
    split
    · exact lift_bind fun _ => lift _
    · exact lift _
  · exact nullAccess
  · exact die

theorem setField (fid : Nat) (object : P (read a)) (value : P (read b)) :
    Within P (fr.setField a fid b) := by
  refine get_bind fr value fun v => get_bind fr object fun o => ?_
  split
  · exact bind (checkObj fr _ _ _) fun _ => lift _
  · exact bind (checkObj fr _ _ _) fun _ => lift _
  · refine lift_bind fun index => ?_
    split
    · exact lift_bind fun _ => lift _
    · exact bind (checkObj fr _ _ _) fun _ => lift _
  · exact nullAccess
  · exact die

theorem callMethod (m : Nat) (reads : ∀ r ∈ rl, P (read r)) (writes : P (write d)) :
    Within P (fr.callMethod d m rl) := by
  cases rl with
  | nil => exact throw _
  | cons hd tl =>
    have rest : ∀ r ∈ tl, P (read r) := fun r member => reads r (List.mem_cons_of_mem _ member)
    refine get_bind fr (reads hd List.mem_cons_self) fun o => ?_
    split
    · exact assign fr (lift_bind fun f => fcall_gets fr f id reads) writes
    · refine lift_bind fun field => lift_bind fun inner => ?_
      split
      · refine orDie (lift_bind fun m => assign fr ?_ writes)
        exact lift_bind fun f => dynCall_getTyped fr _ _ rest
      · exact assign fr (dynCall_getTyped fr _ _ rest) writes
      · exact die
    · exact nullAccess
    · exact die

theorem callClosure (f : P (read a)) (reads : ∀ r ∈ rl, P (read r)) (writes : P (write d)) :
    Within P (fr.callClosure d a rl) := by
  unfold Frame.callClosure
  split
  · exact assign fr (get_bind fr f fun v => dynCall_getTyped fr _ _ reads) writes
  · refine get_bind fr f fun v => ?_
    split
    · exact assign fr (fcall_gets fr _ id reads) writes
    · exact assign fr (fcall_gets fr _ (List.cons _) reads) writes
    · exact nullAccess
    · exact get_bind fr f fun v => lift_bind fun shown => throwMsg fr _

theorem virtualClosure (m : Nat) (object : P (read a)) (writes : P (write d)) :
    Within P (fr.virtualClosure d a m) := by
  refine get_bind fr object fun o => ?_
  split
  · refine lift_bind fun f => assign fr (lift_bind fun t => ?_) writes
    split
    · exact die
    · exact lift _
  · exact nullAccess
  · exact die

theorem getMem (bytes : P (read a)) (place : P (read b)) (writes : P (write d)) :
    Within P (fr.getMem d a b) := by
  refine getBoth_bind fr bytes place fun both => ?_
  split
  · refine assign fr ?_ writes
    split
    all_goals first
      | exact die
      | exact lift_bind fun _ => pure _
  · exact die

variable {c : Reg}

theorem setUI8 (bytes : P (read a)) (place : P (read b)) (value : P (read c)) :
    Within P (fr.setUI8 a b c) := by
  refine getBoth_bind fr bytes place fun both => get_bind fr value fun v => ?_
  split
  · exact lift _
  · exact die

theorem setUI16 (bytes : P (read a)) (place : P (read b)) (value : P (read c)) :
    Within P (fr.setUI16 a b c) := by
  refine getBoth_bind fr bytes place fun both => get_bind fr value fun v => ?_
  split
  · exact lift_bind fun _ => lift _
  · exact die

theorem setMem (bytes : P (read a)) (place : P (read b)) (value : P (read c)) :
    Within P (fr.setMem a b c) := by
  refine getBoth_bind fr bytes place fun both => ?_
  split
  · refine get_bind fr value fun v => ?_
    split
    all_goals first
      | exact die
      | exact lift _
  · exact die

theorem setArrayItem (array : P (read a)) (index : P (read b)) (value : P (read c)) :
    Within P (fr.setArrayItem a b c) := by
  refine getBoth_bind fr array index fun both => ?_
  split
  · refine get_bind fr value fun v => bind (check fr _ _ _) fun _ => lift_bind fun length => ?_
    split
    · exact lift_bind fun _ => error _
    · exact lift _
  · exact die

theorem getTypeOf (value : P (read a)) : Within P (fr.getTypeOf a) := by
  refine get_bind fr value fun v => bind ?_ fun inner => ?_
  · unfold Frame.unwrapped
    split
    · refine lift_bind fun inner => ?_
      split
      · exact die
      · exact pure _
    · exact pure _
  · split
    · exact pure _
    · refine lift_bind fun t => ?_
      split
      · exact die
      · exact pure _

theorem setEnumField (i : Nat) (enum : P (read a)) (value : P (read b)) :
    Within P (fr.setEnumField a i b) := by
  refine get_bind fr enum fun e => ?_
  split
  · refine get_bind fr value fun v => lift_bind fun fields => ?_
    split
    · exact throw _
    · exact bind (check fr _ _ _) fun _ => lift _
  · exact die

end Bodies

end Within

/-- A computation that begins with a read of the register. -/
abbrev Opens (P : Access → Prop) (r : Reg) {α : Type} (x : M Ctx F α) : Prop :=
  Respects (fun s t => Allowed P { s with accesses := s.accesses ++ [read r] } t) x

namespace Opens

variable {α β : Type} {x : M Ctx F α} {f : α → M Ctx F β} {d r a : Reg} {rl : List Reg}

theorem within (opens : Opens P r x) (allowed : P (read r)) : Within P x := by
  intro s
  refine .trans ?_ (opens s)
  exact Within.logs allowed rfl rfl

theorem bind (opens : Opens P r x) (next : ∀ v, Within P (f v)) : Opens P r (x >>= f) :=
  Respects.bind_left Allowed.trans opens next

variable (fr : Frame Ctx F)

theorem get_bind {g : Value F → M Ctx F β} (next : ∀ v, Within P (g v)) :
    Opens P r (fr.get r >>= g) :=
  bind (fun _ => .refl _) next

theorem getThis (fid : Nat) : Opens P 0 (fr.getThis fid) := by
  refine get_bind fr fun o => ?_
  split
  · exact .lift _
  · exact .lift _
  · exact .die

theorem setThis (fid : Nat) (value : P (read a)) : Opens P 0 (fr.setThis fid a) := by
  refine get_bind fr fun o => ?_
  have stores (v : Nat) (rv : Value F) :
      Within P (fr.checkObj rv o fid >>= fun _ => Frame.lift (fr.setOfields v fid rv)) :=
    .bind (.checkObj fr _ _ _) fun _ => .lift _
  split
  · exact .get_bind fr value fun rv => stores _ rv
  · exact .get_bind fr value fun rv => stores _ rv
  · exact .die

theorem callThis (m : Nat) (reads : ∀ r ∈ rl, P (read r)) (writes : P (write d)) :
    Opens P 0 (fr.callThis d m rl) := by
  refine get_bind fr fun o => ?_
  split
  · refine .assign fr (.lift_bind fun f => ?_) writes
    exact .fcall_gets fr f (List.cons _) reads
  · exact .die

theorem setReference (value : P (read a)) : Opens P r (fr.setReference r a) := by
  refine get_bind fr fun reference => ?_
  split
  · exact .get_bind fr value fun v => .bind (.check fr _ _ _) fun _ => .lift _
  · exact .die

end Opens

end Allowed

/-! ## The effects of an opcode -/

/-- What `interp` reads without the table saying so. -/
def unreported : Opcode → List Reg
  | .oSetref r _ => [r]
  | .oGetThis _ _ | .oSetThis _ _ | .oCallThis _ _ _ => [0]
  | _ => []

def Mentioned (op : Opcode) (access : Access) : Prop :=
  access ∈ opcodeFx op ∨ access ∈ (unreported op).map read

section Effects

variable {Ctx F : Type} (fr : Frame Ctx F)

/-- Of a call, the arguments and the result. -/
theorem mentioned_call (op : Opcode) (rl : List Reg) {d : Reg}
    (eq : opcodeFx op = rl.map read ++ [write d]) :
    (∀ r ∈ rl, Mentioned op (read r)) ∧ Mentioned op (write d) := by
  refine ⟨fun r member => .inl ?_, .inl ?_⟩
  · rw [eq]
    exact List.mem_append_left _ (List.mem_map_of_mem member)
  · rw [eq]
    exact List.mem_append_right _ (.head _)

open Within in
/-- Every opcode accesses the registers of the table and those that the table leaves out. -/
theorem interp_within (op : Opcode) : Within (Mentioned op) (fr.interp op) := by
  have first : ∀ {access l}, opcodeFx op = access :: l → Mentioned op access :=
    fun eq => .inl (eq ▸ .head _)
  have second : ∀ {a access l}, opcodeFx op = a :: access :: l → Mentioned op access :=
    fun eq => .inl (eq ▸ .tail _ (.head _))
  have third : ∀ {a b access l}, opcodeFx op = a :: b :: access :: l → Mentioned op access :=
    fun eq => .inl (eq ▸ .tail _ (.tail _ (.head _)))
  have missed : ∀ {r}, unreported op = [r] → Mentioned op (read r) :=
    fun eq => .inr (eq ▸ .head _)
  cases op with
  | oMov d a | oUnsafeCast d a => exact assign fr (get fr (first rfl)) (second rfl)
  | oInt d i | oFloat d i | oBytes d i | oString d i | oStaticClosure d i =>
    exact assign fr (lift_bind fun _ => pure _) (first rfl)
  | oGetGlobal d g => exact assign fr (lift _) (first rfl)
  | oNew d => exact assign fr (lift _) (first rfl)
  | oBool d value => exact set fr _ (first rfl)
  | oType d t => exact set fr _ (first rfl)
  | oNull d => exact set fr _ (first rfl)
  | oRef d a => exact set fr _ (third rfl)
  | oAdd d a b | oSub d a b | oMul d a b | oSDiv d a b | oSMod d a b =>
    exact assign fr (numop fr _ _ (first rfl) (second rfl)) (third rfl)
  | oUDiv d a b | oUMod d a b | oShl d a b | oSShr d a b | oUShr d a b | oAnd d a b | oOr d a b
  | oXor d a b => exact assign fr (iop fr _ (first rfl) (second rfl)) (third rfl)
  | oNeg d a =>
    refine assign fr (get_bind fr (first rfl) fun v => ?_) (second rfl)
    cases v
    all_goals first
      | exact pure _
      | exact die
  | oNot d a =>
    refine assign fr (get_bind fr (first rfl) fun v => ?_) (second rfl)
    split
    · exact pure _
    · exact die
  | oToSFloat d a | oToUFloat d a =>
    refine assign fr (get_bind fr (first rfl) fun v => ?_) (second rfl)
    split
    · exact pure _
    · exact pure _
    · exact die
  | oToInt d a =>
    refine assign fr (get_bind fr (first rfl) fun v => ?_) (second rfl)
    split
    · exact pure _
    · exact pure _
    · exact pure _
    · exact die
  | oGetTID d a =>
    refine assign fr (get_bind fr (first rfl) fun v => ?_) (second rfl)
    split
    · exact pure _
    · exact die
  | oUnref d a =>
    refine assign fr (get_bind fr (first rfl) fun v => ?_) (second rfl)
    split
    · exact lift _
    · exact die
  | oToVirtual d a =>
    refine assign fr (get_bind fr (first rfl) fun v => ?_) (second rfl)
    split
    · exact lift _
    · exact die
  | oIncr a | oDecr a => exact assign fr (iunop fr _ (first rfl)) (second rfl)
  | oToDyn d a => exact assign fr (get_bind fr (first rfl) fun v => pure _) (second rfl)
  | oSafeCast d a => exact assign fr (get_bind fr (first rfl) fun v => lift _) (second rfl)
  | oGetType d a => exact assign fr (getTypeOf fr (first rfl)) (second rfl)
  | oCall0 d f =>
    obtain ⟨reads, writes⟩ := mentioned_call (.oCall0 d f) [] rfl
    exact callFun fr f reads writes
  | oCall1 d f a =>
    obtain ⟨reads, writes⟩ := mentioned_call (.oCall1 d f a) [a] rfl
    exact callFun fr f reads writes
  | oCall2 d f a b =>
    obtain ⟨reads, writes⟩ := mentioned_call (.oCall2 d f a b) [a, b] rfl
    exact callFun fr f reads writes
  | oCall3 d f a b c =>
    obtain ⟨reads, writes⟩ := mentioned_call (.oCall3 d f a b c) [a, b, c] rfl
    exact callFun fr f reads writes
  | oCall4 d f a b c k =>
    obtain ⟨reads, writes⟩ := mentioned_call (.oCall4 d f a b c k) [a, b, c, k] rfl
    exact callFun fr f reads writes
  | oCallN d f rl =>
    obtain ⟨reads, writes⟩ := mentioned_call (.oCallN d f rl) rl rfl
    exact callFun fr f reads writes
  | oCallMethod d m rl =>
    obtain ⟨reads, writes⟩ := mentioned_call (.oCallMethod d m rl) rl rfl
    exact callMethod fr m reads writes
  | oCallThis d m rl =>
    obtain ⟨reads, writes⟩ := mentioned_call (.oCallThis d m rl) rl rfl
    exact (Opens.callThis fr m reads writes).within (missed rfl)
  | oCallClosure d a rl =>
    obtain ⟨reads, writes⟩ := mentioned_call (.oCallClosure d a rl) (a :: rl) rfl
    exact callClosure fr (reads a List.mem_cons_self)
      (fun r member => reads r (List.mem_cons_of_mem _ member)) writes
  | oMakeEnum d e rl =>
    obtain ⟨reads, writes⟩ := mentioned_call (.oMakeEnum d e rl) rl rfl
    refine assign fr (bind (gets fr reads) fun vals => ?_) writes
    split
    · exact lift_bind fun _ => pure _
    · exact die
  | oInstanceClosure d f a =>
    exact assign fr (lift_bind fun _ => get_bind fr (first rfl) fun _ => pure _) (second rfl)
  | oVirtualClosure d a m => exact virtualClosure fr m (first rfl) (second rfl)
  | oSetGlobal g a =>
    refine get_bind fr (first rfl) fun v => lift_bind fun t => ?_
    exact bind (check fr _ _ _) fun _ => lift _
  | oField d a fid => exact assign fr (getField fr fid (first rfl)) (second rfl)
  | oSetField a fid b => exact setField fr fid (first rfl) (second rfl)
  | oGetThis d fid => exact assign fr ((Opens.getThis fr fid).within (missed rfl)) (first rfl)
  | oSetThis fid a => exact (Opens.setThis fr fid (first rfl)).within (missed rfl)
  | oDynGet d a fid =>
    refine assign fr (get_bind fr (first rfl) fun o => ?_) (second rfl)
    exact lift_bind fun _ => lift _
  | oDynSet a fid b =>
    refine get_bind fr (first rfl) fun o => get_bind fr (second rfl) fun v => ?_
    exact lift_bind fun _ => lift _
  | oJTrue r i | oJFalse r i | oJNull r i | oJNotNull r i =>
    exact jumpIf (get_bind fr (first rfl) fun _ => pure _) i
  | oJSLt a b i | oJSGte a b i | oJSGt a b i | oJSLte a b i | oJEq a b i =>
    exact jumpIf (vcompare fr _ (first rfl) (second rfl)) i
  | oJNotLt a b i | oJNotGte a b i | oJNotEq a b i =>
    exact jumpIf (bind (vcompare fr _ (first rfl) (second rfl)) fun _ => pure _) i
  | oJULt a b i | oJUGte a b i =>
    exact jumpIf (bind (ucompare fr (first rfl) (second rfl)) fun _ => pure _) i
  | oJAlways i => exact jump i
  | oLabel unused => exact pure ()
  | oNop why => exact pure ()
  | oRet r => exact get_bind fr (first rfl) fun _ => throw _
  | oThrow r => exact get_bind fr (first rfl) fun _ => throwValue fr _
  | oRethrow r =>
    have prepared : Within (Mentioned (.oRethrow r)) (modify fun s : State Ctx =>
        { s with ctx := fr.rethrown s.ctx } : M Ctx F PUnit) := fun _ => .of_eq rfl rfl
    exact bind prepared fun _ => get_bind fr (first rfl) fun _ => throwValue fr _
  | oSwitch r indexes send =>
    refine get_bind fr (first rfl) fun v => ?_
    split
    · split
      · exact pure ()
      · split
        · exact jump _
        · exact pure ()
    · exact die
  | oNullCheck r =>
    refine get_bind fr (first rfl) fun v => ?_
    split
    · exact throwMsg fr _
    · exact pure ()
  | oTrap r j => exact pushTrap j (first rfl)
  | oEndTrap last => exact popTrap
  | oGetUI8 d a b =>
    refine getBoth_bind fr (first rfl) (second rfl) fun both => ?_
    split
    · exact assign fr (lift_bind fun _ => pure _) (third rfl)
    · exact die
  | oGetUI16 d a b =>
    refine getBoth_bind fr (first rfl) (second rfl) fun both => ?_
    split
    · exact lift_bind fun _ => lift_bind fun _ => set fr _ (third rfl)
    · exact die
  | oGetMem d a b => exact getMem fr (first rfl) (second rfl) (third rfl)
  | oGetArray d a b =>
    refine getBoth_bind fr (first rfl) (second rfl) fun both => ?_
    split
    · exact assign fr (lift _) (third rfl)
    · exact die
  | oSetUI8 a b c => exact setUI8 fr (first rfl) (second rfl) (third rfl)
  | oSetUI16 a b c => exact setUI16 fr (first rfl) (second rfl) (third rfl)
  | oSetMem a b c => exact setMem fr (first rfl) (second rfl) (third rfl)
  | oSetArray a b c => exact setArrayItem fr (first rfl) (second rfl) (third rfl)
  | oArraySize d a =>
    refine get_bind fr (first rfl) fun v => ?_
    split
    · exact assign fr (lift_bind fun _ => pure _) (second rfl)
    · exact die
  | oSetref d a => exact (Opens.setReference fr (first rfl)).within (missed rfl)
  | oEnumAlloc d e =>
    rw [Frame.interp]
    split
    · exact assign fr (lift_bind fun _ => lift_bind fun _ => pure _) (first rfl)
    · exact die
  | oEnumIndex d a =>
    refine get_bind fr (first rfl) fun v => ?_
    split
    · exact set fr _ (second rfl)
    · exact die
  | oEnumField d a cs idx =>
    refine get_bind fr (first rfl) fun v => ?_
    split
    · exact assign fr (lift _) (second rfl)
    · exact die
  | oSetEnumField a f b => exact setEnumField fr f (first rfl) (second rfl)
  | oAssert unused => exact throwMsg fr _
  | oRefData r d =>
    refine get_bind fr (first rfl) fun v => ?_
    split
    · exact set fr _ (second rfl)
    · exact die
  | oRefOffset r r2 off =>
    refine getBoth_bind fr (first rfl) (second rfl) fun both => ?_
    split
    · exact set fr _ (third rfl)
    · exact die

/-- What is unreported is read before all else. -/
theorem interp_opens {op : Opcode} {r : Reg} (missed : r ∈ unreported op) :
    Opens (Mentioned op) r (fr.interp op) := by
  have first : ∀ {access l}, opcodeFx op = access :: l → Mentioned op access :=
    fun eq => .inl (eq ▸ .head _)
  cases op with
  | oSetref d a =>
    obtain rfl := List.mem_singleton.mp missed
    exact .setReference fr (first rfl)
  | oGetThis d fid =>
    obtain rfl := List.mem_singleton.mp missed
    exact .bind (.getThis fr fid) fun v => .set fr v (first rfl)
  | oSetThis fid a =>
    obtain rfl := List.mem_singleton.mp missed
    exact .setThis fr fid (first rfl)
  | oCallThis d m rl =>
    obtain rfl := List.mem_singleton.mp missed
    obtain ⟨reads, writes⟩ := mentioned_call (.oCallThis d m rl) rl rfl
    exact .callThis fr m reads writes
  | _ => nomatch missed

end Effects

/-! ## What is mapped -/

/-- An operand that is not a register. -/
inductive Operand where
  | index (i : Nat)
  | offset (d : Int)
  | offsets (cases : List Int)
  | flag (b : Bool)
  | type (t : Ttype)
  | text (s : String)

/-- The registers of an opcode, as they are written. -/
def registers : Opcode → List Reg
  | .oInt d _ | .oFloat d _ | .oBool d _ | .oBytes d _ | .oString d _ | .oNull d | .oIncr d
  | .oDecr d | .oCall0 d _ | .oStaticClosure d _ | .oGetGlobal d _ | .oSetGlobal _ d
  | .oGetThis d _ | .oSetThis _ d | .oJTrue d _ | .oJFalse d _ | .oJNull d _ | .oJNotNull d _
  | .oRet d | .oThrow d | .oRethrow d | .oSwitch d _ _ | .oNullCheck d | .oTrap d _ | .oNew d
  | .oType d _ | .oEnumAlloc d _ => [d]
  | .oMov a b | .oNeg a b | .oNot a b | .oCall1 a _ b | .oInstanceClosure a _ b
  | .oVirtualClosure a b _ | .oField a b _ | .oSetField a _ b | .oDynGet a b _ | .oDynSet a _ b
  | .oJSLt a b _ | .oJSGte a b _ | .oJSGt a b _ | .oJSLte a b _ | .oJULt a b _ | .oJUGte a b _
  | .oJNotLt a b _ | .oJNotGte a b _ | .oJEq a b _ | .oJNotEq a b _ | .oToDyn a b
  | .oToSFloat a b | .oToUFloat a b | .oToInt a b | .oSafeCast a b | .oUnsafeCast a b
  | .oToVirtual a b | .oArraySize a b | .oGetType a b | .oGetTID a b | .oRef a b | .oUnref a b
  | .oSetref a b | .oEnumIndex a b | .oEnumField a b _ _ | .oSetEnumField a _ b
  | .oRefData a b => [a, b]
  | .oAdd a b c | .oSub a b c | .oMul a b c | .oSDiv a b c | .oUDiv a b c | .oSMod a b c
  | .oUMod a b c | .oShl a b c | .oSShr a b c | .oUShr a b c | .oAnd a b c | .oOr a b c
  | .oXor a b c | .oCall2 a _ b c | .oGetUI8 a b c | .oGetUI16 a b c | .oGetMem a b c
  | .oGetArray a b c | .oSetUI8 a b c | .oSetUI16 a b c | .oSetMem a b c | .oSetArray a b c
  | .oRefOffset a b c => [a, b, c]
  | .oCall3 d _ a b c => [d, a, b, c]
  | .oCall4 d _ a b c k => [d, a, b, c, k]
  | .oCallN d _ rl | .oCallMethod d _ rl | .oCallThis d _ rl | .oMakeEnum d _ rl => d :: rl
  | .oCallClosure d f rl => d :: f :: rl
  | .oJAlways _ | .oLabel _ | .oEndTrap _ | .oAssert _ | .oNop _ => []

def others : Opcode → List Operand
  | .oInt _ i | .oFloat _ i | .oBytes _ i | .oString _ i | .oCall0 _ i | .oCall1 _ i _
  | .oCall2 _ i _ _ | .oCall3 _ i _ _ _ | .oCall4 _ i _ _ _ _ | .oCallN _ i _
  | .oCallMethod _ i _ | .oCallThis _ i _ | .oStaticClosure _ i | .oInstanceClosure _ i _
  | .oVirtualClosure _ _ i | .oGetGlobal _ i | .oSetGlobal i _ | .oField _ _ i
  | .oSetField _ i _ | .oGetThis _ i | .oSetThis i _ | .oDynGet _ _ i | .oDynSet _ i _
  | .oMakeEnum _ i _ | .oEnumAlloc _ i | .oSetEnumField _ i _ => [.index i]
  | .oEnumField _ _ cs idx => [.index cs, .index idx]
  | .oBool _ b | .oEndTrap b => [.flag b]
  | .oJTrue _ d | .oJFalse _ d | .oJNull _ d | .oJNotNull _ d | .oJSLt _ _ d | .oJSGte _ _ d
  | .oJSGt _ _ d | .oJSLte _ _ d | .oJULt _ _ d | .oJUGte _ _ d | .oJNotLt _ _ d
  | .oJNotGte _ _ d | .oJEq _ _ d | .oJNotEq _ _ d | .oJAlways d | .oTrap _ d | .oLabel d
  | .oAssert d => [.offset d]
  | .oSwitch _ cases send => [.offsets cases, .offset send]
  | .oType _ t => [.type t]
  | .oNop why => [.text why]
  | .oMov _ _ | .oNull _ | .oNeg _ _ | .oNot _ _ | .oIncr _ | .oDecr _ | .oAdd _ _ _
  | .oSub _ _ _ | .oMul _ _ _ | .oSDiv _ _ _ | .oUDiv _ _ _ | .oSMod _ _ _ | .oUMod _ _ _
  | .oShl _ _ _ | .oSShr _ _ _ | .oUShr _ _ _ | .oAnd _ _ _ | .oOr _ _ _ | .oXor _ _ _
  | .oCallClosure _ _ _ | .oToDyn _ _ | .oToSFloat _ _ | .oToUFloat _ _ | .oToInt _ _
  | .oSafeCast _ _ | .oUnsafeCast _ _ | .oToVirtual _ _ | .oRet _ | .oThrow _ | .oRethrow _
  | .oNullCheck _ | .oGetUI8 _ _ _ | .oGetUI16 _ _ _ | .oGetMem _ _ _ | .oGetArray _ _ _
  | .oSetUI8 _ _ _ | .oSetUI16 _ _ _ | .oSetMem _ _ _ | .oSetArray _ _ _ | .oNew _
  | .oArraySize _ _ | .oGetType _ _ | .oGetTID _ _ | .oRef _ _ | .oUnref _ _ | .oSetref _ _
  | .oEnumIndex _ _ | .oRefData _ _ | .oRefOffset _ _ _ => []

/-- A register that is read is mapped by `f`, and one that is written by `g`. -/
def Mapped (f g : Reg → Reg) (op : Opcode) (r r' : Reg) : Prop :=
  (read r ∈ opcodeFx op ∧ r' = f r) ∨ (write r ∈ opcodeFx op ∧ r' = g r)

structure Maps (f g : Reg → Reg) (op mapped : Opcode) : Prop where
  kind : mapped.ctorIdx = op.ctorIdx
  registers : List.Forall₂ (Mapped f g op) (registers op) (registers mapped)
  others : others mapped = others op

section Mapping

variable {f g : Reg → Reg} {op : Opcode}

theorem mapped_reads {rl : List Reg} (reads : ∀ r ∈ rl, read r ∈ opcodeFx op) :
    List.Forall₂ (Mapped f g op) rl (rl.map f) := by
  rw [List.forall₂_map_right_iff, List.forall₂_same]
  exact fun r member => .inl ⟨reads r member, rfl⟩

theorem mapped_reading (rl : List Reg) (eq : opcodeFx op = rl.map read) :
    List.Forall₂ (Mapped f g op) rl (rl.map f) :=
  mapped_reads fun _ member => eq ▸ List.mem_map_of_mem member

/-- The result stands in front of the operands. -/
theorem mapped_assigning {d : Reg} (rl : List Reg) (eq : opcodeFx op = rl.map read ++ [write d]) :
    List.Forall₂ (Mapped f g op) (d :: rl) (g d :: rl.map f) := by
  refine .cons (.inr ⟨?_, rfl⟩) (mapped_reads fun r member => ?_)
  · rw [eq]
    exact List.mem_append_right _ (.head _)
  · rw [eq]
    exact List.mem_append_left _ (List.mem_map_of_mem member)

theorem opcodeMap_registers :
    List.Forall₂ (Mapped f g op) (registers op) (registers (opcodeMap f g op)) := by
  cases op with
  | oIncr a | oDecr a => exact .cons (.inr ⟨.tail _ (.head _), rfl⟩) .nil
  | oRef d a =>
    refine .cons (.inr ⟨.tail _ (.tail _ (.head _)), rfl⟩) ?_
    exact .cons (.inl ⟨.head _, rfl⟩) .nil
  | oInt d _ | oFloat d _ | oBool d _ | oBytes d _ | oString d _ | oNull d | oCall0 d _
  | oStaticClosure d _ | oGetGlobal d _ | oGetThis d _ | oTrap d _ | oNew d | oType d _
  | oEnumAlloc d _ => exact mapped_assigning [] rfl
  | oMov d a | oNeg d a | oNot d a | oCall1 d _ a | oInstanceClosure d _ a
  | oVirtualClosure d a _ | oField d a _ | oDynGet d a _ | oToDyn d a | oToSFloat d a
  | oToUFloat d a | oToInt d a | oSafeCast d a | oUnsafeCast d a | oToVirtual d a
  | oArraySize d a | oGetType d a | oGetTID d a | oUnref d a | oSetref d a | oEnumIndex d a
  | oEnumField d a _ _ | oRefData d a => exact mapped_assigning [a] rfl
  | oAdd d a b | oSub d a b | oMul d a b | oSDiv d a b | oUDiv d a b | oSMod d a b | oUMod d a b
  | oShl d a b | oSShr d a b | oUShr d a b | oAnd d a b | oOr d a b | oXor d a b
  | oCall2 d _ a b | oGetUI8 d a b | oGetUI16 d a b | oGetMem d a b | oGetArray d a b
  | oRefOffset d a b => exact mapped_assigning [a, b] rfl
  | oCall3 d _ a b c => exact mapped_assigning [a, b, c] rfl
  | oCall4 d _ a b c k => exact mapped_assigning [a, b, c, k] rfl
  | oCallN d _ rl | oCallMethod d _ rl | oCallThis d _ rl | oMakeEnum d _ rl =>
    exact mapped_assigning rl rfl
  | oCallClosure d a rl => exact mapped_assigning (a :: rl) rfl
  | oSetGlobal _ a | oSetThis _ a | oJTrue a _ | oJFalse a _ | oJNull a _ | oJNotNull a _
  | oRet a | oThrow a | oRethrow a | oSwitch a _ _ | oNullCheck a => exact mapped_reading [a] rfl
  | oSetField a _ b | oDynSet a _ b | oJSLt a b _ | oJSGte a b _ | oJSGt a b _ | oJSLte a b _
  | oJULt a b _ | oJUGte a b _ | oJNotLt a b _ | oJNotGte a b _ | oJEq a b _ | oJNotEq a b _
  | oSetEnumField a _ b => exact mapped_reading [a, b] rfl
  | oSetUI8 a b c | oSetUI16 a b c | oSetMem a b c | oSetArray a b c =>
    exact mapped_reading [a, b, c] rfl
  | oJAlways _ | oLabel _ | oEndTrap _ | oAssert _ | oNop _ => exact .nil

theorem opcodeMap_maps (f g : Reg → Reg) (op : Opcode) : Maps f g op (opcodeMap f g op) where
  kind := by cases op <;> rfl
  registers := opcodeMap_registers
  others := by cases op <;> rfl

end Mapping

/-! ## Where the table agrees -/

/-- Every read is reported. -/
def Reported : Opcode → Prop
  | .oSetref r v => r = v
  | .oGetThis _ _ => False
  | .oSetThis _ r => r = 0
  | .oCallThis _ _ rl => 0 ∈ rl
  | _ => True

@[simp] theorem read_inj {r r' : Reg} : Hl.read r = Hl.read r' ↔ r = r' := by
  simp [Hl.read]

@[simp] theorem read_ne_write {r r' : Reg} : Hl.read r ≠ write r' := by
  simp [Hl.read, write]

theorem reported_iff {op : Opcode} :
    Reported op ↔ ∀ r ∈ unreported op, read r ∈ opcodeFx op := by
  cases op with
  | oSetref r v => simp [Reported, unreported, opcodeFx]
  | oGetThis r fid => simp [Reported, unreported, opcodeFx]
  | oSetThis fid r => simp [Reported, unreported, opcodeFx, eq_comm]
  | oCallThis r m rl => simp [Reported, unreported, opcodeFx]
  | _ => exact ⟨fun _ _ member => absurd member List.not_mem_nil, fun _ => trivial⟩

theorem Mentioned.reported {op : Opcode} {access : Access} (mentioned : Mentioned op access)
    (reported : Reported op) : access ∈ opcodeFx op := by
  rcases mentioned with here | missed
  · exact here
  · obtain ⟨r, member, rfl⟩ := List.mem_map.mp missed
    exact reported_iff.mp reported r member

section Runs

open Relation (ReflTransGen)

variable {Ctx F : Type} {fr : Frame Ctx F} {s t : State Ctx}

/-- What was accessed, and what the handlers will write, belongs to opcodes of the function. -/
structure Logged (fr : Frame Ctx F) (s : State Ctx) : Prop where
  accesses : ∀ access ∈ s.accesses, ∃ op ∈ fr.f.code, Mentioned op access
  traps : ∀ trap ∈ s.traps, ∃ op ∈ fr.f.code, Mentioned op (write trap.1)

theorem Logged.extended {P : Access → Prop} (logged : Logged fr s) (allowed : Allowed P s t)
    (known : ∀ access, P access → ∃ op ∈ fr.f.code, Mentioned op access) : Logged fr t := by
  obtain ⟨⟨more, eq, all⟩, trapped⟩ := allowed
  constructor
  · intro access member
    rw [eq] at member
    rcases List.mem_append.mp member with before | new
    · exact logged.accesses access before
    · exact known access (all access new)
  · intro trap member
    rcases trapped trap member with before | new
    · exact logged.traps trap before
    · exact known _ new

theorem opcodeAt_mem {op : Opcode} {pos : Int} (found : fr.opcodeAt pos = some op) :
    op ∈ fr.f.code := by
  unfold Frame.opcodeAt at found
  split at found
  · exact absurd found (by simp)
  · exact List.mem_of_getElem? found

theorem ofResult_running {result : EStateM.Result (Raise F) (State Ctx) Unit}
    (eq : Frame.Turn.ofResult result = .running t) : final result = t := by
  cases result with
  | ok _ u =>
    cases eq
    rfl
  | error e u => nomatch eq

/-- The handler writes the register of the trap that it takes. -/
theorem handle_logged {result : EStateM.Result (Raise F) (State Ctx) Unit}
    (logged : Logged fr (final result)) (handled : fr.handle result = .running t) :
    Logged fr t := by
  unfold Frame.handle at handled
  split at handled
  · cases handled
    exact logged
  · split at handled
    · cases handled
    · split at handled
      · cases handled
      · cases handled
  · next v u =>
    split at handled
    · cases handled
    · next r target traps eq =>
      have known : ∃ op ∈ fr.f.code, Mentioned op (write r) :=
        logged.traps (r, target) (by rw [final, eq]; exact .head _)
      have popped : Logged fr
          { u with ctx := fr.caught u.pos u.ctx, pos := target, traps := traps } :=
        ⟨logged.accesses, fun trap member => logged.traps trap (by
          rw [final, eq]
          exact List.mem_cons_of_mem _ member)⟩
      rw [← ofResult_running handled]
      exact popped.extended (Within.set (P := fun a => a = write r) fr v rfl _)
        fun access eq => eq ▸ known
  · cases handled

theorem turn_logged (logged : Logged fr s) (turned : fr.turn s = some (.running t)) :
    Logged fr t := by
  obtain ⟨op, found, handled⟩ := Option.map_eq_some_iff.mp turned
  refine handle_logged ?_ handled
  have ran := interp_within fr op { s with pos := s.pos + 1 }
  have moved : Logged fr { s with pos := s.pos + 1 } := ⟨logged.accesses, logged.traps⟩
  exact moved.extended ran fun access mentioned => ⟨op, opcodeAt_mem found, mentioned⟩

/-- In a run, every access belongs to an opcode of the function. -/
theorem run_logged (logged : Logged fr s)
    (run : ReflTransGen (fun s t => fr.turn s = some (.running t)) s t) : Logged fr t := by
  induction run with
  | refl => exact logged
  | tail _ turned ih => exact turn_logged ih turned

end Runs

end Haxe.Source.HlInterp
