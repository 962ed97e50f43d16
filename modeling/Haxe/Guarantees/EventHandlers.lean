import Mathlib.Data.List.Perm.Subperm
import Haxe.Source.Std.EventLoopSteps

/-!
# Cancelling a regular event

`cancel` unlinks an event by the pointers that are stored in it and leaves them there. A second call
puts its former neighbours next to each other again, and one of them may have been cancelled since.
A callback that a pass has collected is started even where its event is cancelled before. Without
these two kinds of calls, the regular events are the registered ones at any time, and a cancelled
one is never started again.
-/

namespace Haxe.Guarantees.EventHandlers

open Haxe.Source.Thread Haxe.Theory.LinkedChains

/-- The callbacks that the running pass has still to start. -/
@[grind =] def toRun (s : System) : List Handler :=
  match s.phase with
  | .regular eventsToRun _ => eventsToRun
  | _ => []

/-- The regular events are a list of the registered handlers, each of them once. -/
def WellLinked (s : System) : Prop :=
  Linked s.loop.nexts s.loop.previouses s.loop.regularEvents s.registered ∧ s.registered.Nodup

/-- What is stored in an event agrees with the pointers of the registered ones. -/
def Agreeing (s : System) (handler : Handler) : Prop :=
  (∀ e ∈ s.registered, s.loop.nexts handler = some e →
    s.loop.previouses e = s.loop.previouses handler) ∧
  ∀ p ∈ s.registered, s.loop.previouses handler = some p →
    s.loop.nexts p = s.loop.nexts handler

/-- A cancelled event is registered or harmless, and the running pass does not start it. -/
def Careful (s : System) : Action → Prop
  | .cancel handler =>
    (handler ∈ s.registered ∨ Agreeing s handler) ∧ handler ∉ toRun s
  | _ => True

structure Orderly (s : System) : Prop where
  linked : WellLinked s
  made : ∀ h ∈ s.registered, h < s.loop.allocated
  pending : ∀ h ∈ toRun s, h ∈ s.registered

theorem orderly_create : Orderly System.create where
  linked := ⟨⟨rfl, trivial⟩, List.nodup_nil⟩
  made := by simp [System.create]
  pending := by simp [System.create, toRun]

theorem Orderly.length_le {s : System} (orderly : Orderly s) :
    s.registered.length ≤ s.loop.allocated := by
  have within : s.registered ⊆ List.range s.loop.allocated := fun h member =>
    List.mem_range.mpr (orderly.made h member)
  have := (List.subperm_of_subset orderly.linked.2 within).length_le
  rwa [List.length_range] at this

/-- The list behind a call of `cancel`, just where its pointers agree with it. -/
theorem linked_cancel_iff {s : System} (orderly : Orderly s) (handler : Handler) :
    Linked (s.loop.cancel handler).nexts (s.loop.cancel handler).previouses
        (s.loop.cancel handler).regularEvents (s.registered.erase handler) ↔
      handler ∈ s.registered ∨ Agreeing s handler := by
  rw [EventLoop.nexts_cancel, EventLoop.previouses_cancel, EventLoop.regularEvents_cancel]
  by_cases member : handler ∈ s.registered
  · exact iff_of_true (orderly.linked.1.erase orderly.linked.2 member) (.inl member)
  rw [List.erase_of_not_mem member, or_iff_right member]
  have other : s.loop.regularEvents ≠ some handler := by
    rw [orderly.linked.1.head]
    intro first
    exact member (List.mem_of_head? first)
  rw [if_neg other]
  constructor
  · intro linked
    have same := orderly.linked.1.unique linked
    constructor
    · intro e listed next
      have kept := (same e listed).2
      rw [next] at kept
      exact kept.symm.trans (Function.update_self ..)
    · intro p listed previous
      have kept := (same p listed).1
      rw [previous] at kept
      exact kept.symm.trans (Function.update_self ..)
  · rintro ⟨behind, before⟩
    apply orderly.linked.1.congr
    · intro p listed
      by_cases previous : s.loop.previouses handler = some p
      · rw [before p listed previous, previous]
        exact Function.update_self ..
      · exact relink_of_ne previous
    · intro e listed
      by_cases next : s.loop.nexts handler = some e
      · rw [behind e listed next, next]
        exact Function.update_self ..
      · exact relink_of_ne next

theorem Orderly.congr {s t : System} (orderly : Orderly s) (nexts : t.loop.nexts = s.loop.nexts)
    (previouses : t.loop.previouses = s.loop.previouses)
    (regularEvents : t.loop.regularEvents = s.loop.regularEvents)
    (allocated : t.loop.allocated = s.loop.allocated) (registered : t.registered = s.registered)
    (running : ∀ h ∈ toRun t, h ∈ s.registered) : Orderly t where
  linked := by
    unfold WellLinked
    rw [nexts, previouses, regularEvents, registered]
    exact orderly.linked
  made := by
    rw [registered, allocated]
    exact orderly.made
  pending := by
    rw [registered]
    exact running

theorem Orderly.repeat_ {s : System} (orderly : Orderly s) (now : Nat) (interval : Int) :
    Orderly { s with
      loop := s.loop.repeat_ now interval
      registered := s.loop.allocated :: s.registered } := by
  have linked := orderly.linked
  have fresh : s.loop.allocated ∉ s.registered := fun member =>
    Nat.lt_irrefl _ (orderly.made _ member)
  refine ⟨⟨?_, List.nodup_cons.mpr ⟨fresh, linked.2⟩⟩, ?_, ?_⟩
  · dsimp only
    rw [EventLoop.nexts_repeat, EventLoop.previouses_repeat]
    exact linked.1.push linked.2 fresh
  · dsimp only
    rw [EventLoop.allocated_repeat]
    exact List.forall_mem_cons.mpr
      ⟨Nat.lt_succ_self _, fun h member => Nat.lt_succ_of_lt (orderly.made h member)⟩
  · exact fun h member => List.mem_cons_of_mem _ (orderly.pending h member)

theorem Orderly.cancel {s : System} (orderly : Orderly s) {handler : Handler}
    (careful : Careful s (.cancel handler)) :
    Orderly { s with
      loop := s.loop.cancel handler
      registered := s.registered.erase handler } := by
  refine ⟨⟨?_, orderly.linked.2.erase handler⟩, ?_, ?_⟩
  · exact (linked_cancel_iff orderly handler).mpr careful.1
  · intro h member
    dsimp only
    rw [EventLoop.allocated_cancel]
    exact orderly.made h (List.mem_of_mem_erase member)
  · intro h member
    have other : h ≠ handler := by
      rintro rfl
      exact careful.2 member
    exact (List.mem_erase_of_ne other).mpr (orderly.pending h member)

theorem Orderly.first {s : System} (orderly : Orderly s) {now : Nat}
    {collected : EventLoop × List Handler × Int} (run : s.loop.firstSection now = some collected) :
    ∀ h ∈ collected.2.1, h ∈ s.registered := by
  obtain ⟨next, due, at_, run', listed, -⟩ :=
    s.loop.firstSection_of_chain now orderly.linked.1.chain orderly.length_le
  obtain rfl := Option.some.inj (run'.symm.trans run)
  exact listed

theorem Orderly.step {s t : System} {action : Action} (orderly : Orderly s)
    (careful : Careful s action) (step : System.Stepped s action t) : Orderly t := by
  cases step with
  | repeat_ now interval => exact orderly.repeat_ now interval
  | cancel made => exact orderly.cancel careful
  | promise | run | runPromised => exact orderly.congr rfl rfl rfl rfl rfl orderly.pending
  | first outside run =>
    have retimed := EventLoop.retimed_firstSection run
    exact orderly.congr retimed.nexts retimed.previouses retimed.regularEvents retimed.allocated
      rfl (orderly.first run)
  | startRegular running =>
    refine orderly.congr rfl rfl rfl rfl rfl fun h member => ?_
    apply orderly.pending h
    unfold toRun
    rw [running]
    exact List.mem_cons_of_mem _ member
  | second | startOneTime | return_ | enter | wake =>
    exact orderly.congr rfl rfl rfl rfl rfl (fun h member => absurd member List.not_mem_nil)
  | @finish nextEventAt hasPromisedEvents running =>
    refine orderly.congr rfl rfl rfl rfl rfl fun h member => ?_
    have outside : toRun { s with phase := System.decide_ nextEventAt hasPromisedEvents } = [] := by
      unfold toRun System.decide_
      dsimp only
      split_ifs <;> rfl
    rw [outside] at member
    cases member

theorem Orderly.reaches {s t : System} (orderly : Orderly s)
    (reaches : System.Reaches Careful s t) : Orderly t :=
  reaches.invariant orderly fun orderly careful step => orderly.step careful step

/-- A handler that has been made and is not registered is not started. -/
structure Cancelled (handler : Handler) (starts : Nat) (s : System) : Prop extends Orderly s where
  known : handler < s.loop.allocated
  unregistered : handler ∉ s.registered
  started : s.started.count handler = starts

theorem Cancelled.step {handler : Handler} {starts : Nat} {s t : System} {action : Action}
    (cancelled : Cancelled handler starts s) (careful : Careful s action)
    (step : System.Stepped s action t) : Cancelled handler starts t := by
  refine ⟨cancelled.toOrderly.step careful step, ?_, ?_, ?_⟩
  · have known := cancelled.known
    cases step with
    | repeat_ now interval =>
      dsimp only
      rw [EventLoop.allocated_repeat]
      exact Nat.lt_succ_of_lt known
    | cancel made =>
      dsimp only
      rw [EventLoop.allocated_cancel]
      exact known
    | first outside run =>
      dsimp only
      rw [(EventLoop.retimed_firstSection run).allocated]
      exact known
    | _ => exact known
  · have unregistered := cancelled.unregistered
    cases step with
    | repeat_ now interval =>
      exact List.not_mem_cons_of_ne_of_not_mem (Nat.ne_of_lt cancelled.known) unregistered
    | cancel made => exact fun member => unregistered (List.mem_of_mem_erase member)
    | _ => exact unregistered
  · have started := cancelled.started
    cases step with
    | @startRegular first eventsToRun nextEventAt running =>
      have pending : first ∈ toRun s := by
        unfold toRun
        rw [running]
        exact List.mem_cons_self
      have other : handler ≠ first := by
        rintro rfl
        exact cancelled.unregistered (cancelled.pending _ pending)
      dsimp only
      rw [List.count_append, started, List.count_singleton, if_neg (by simp [other.symm])]
      rfl
    | _ => exact started

theorem Cancelled.reaches {handler : Handler} {starts : Nat} {s t : System}
    (cancelled : Cancelled handler starts s) (reaches : System.Reaches Careful s t) :
    Cancelled handler starts t :=
  reaches.invariant cancelled fun cancelled careful step => cancelled.step careful step

theorem exists_of_mem_toRun {s : System} {handler : Handler} (pending : handler ∈ toRun s) :
    ∃ eventsToRun nextEventAt, s.phase = .regular eventsToRun nextEventAt ∧
      handler ∈ eventsToRun := by
  unfold toRun at pending
  split at pending
  · rename_i eventsToRun nextEventAt running
    exact ⟨eventsToRun, nextEventAt, running, pending⟩
  · cases pending

/-- A pass starts all of the callbacks that it has collected. -/
theorem starts_pending {handler : Handler} {eventsToRun : List Handler} {nextEventAt : Int}
    {s : System} (running : s.phase = .regular eventsToRun nextEventAt)
    (pending : handler ∈ eventsToRun) :
    ∃ t, System.Reaches Careful s t ∧ s.started.count handler < t.started.count handler := by
  induction eventsToRun generalizing s with
  | nil => cases pending
  | cons first eventsToRun ih =>
    let next : System := { s with
      phase := .regular eventsToRun nextEventAt
      started := s.started ++ [first] }
    have step : s.step .startRegular = some next := by
      unfold System.step
      rw [running]
    have start : System.Reaches Careful s next := .single ⟨.startRegular, trivial, step⟩
    by_cases same : handler = first
    · subst same
      refine ⟨next, start, ?_⟩
      dsimp only [next]
      rw [List.count_append, List.count_singleton_self]
      exact Nat.lt_succ_self _
    · obtain ⟨t, reaches, more⟩ := ih (s := next) rfl (List.mem_of_ne_of_mem same pending)
      refine ⟨t, start.trans reaches, Nat.lt_of_le_of_lt ?_ more⟩
      dsimp only [next]
      rw [List.count_append]
      exact Nat.le_add_right _ _

/-- The list stays well linked and the callback is never started again, just where the call is
careful. -/
theorem cancelling_is_final_iff {s : System} (reached : System.Reaches Careful System.create s) :
    WellLinked s ∧ ∀ handler t, s.step (.cancel handler) = some t →
      ((WellLinked t ∧ ∀ u, System.Reaches Careful t u →
          u.started.count handler = t.started.count handler) ↔
        Careful s (.cancel handler)) := by
  have orderly := orderly_create.reaches reached
  refine ⟨orderly.linked, fun handler t step => ?_⟩
  have stepped := System.stepped_of_step step
  cases stepped with | cancel made => ?_
  constructor
  · rintro ⟨linked, final⟩
    refine ⟨(linked_cancel_iff orderly handler).mp linked.1, fun pending => ?_⟩
    obtain ⟨eventsToRun, nextEventAt, running, pending⟩ := exists_of_mem_toRun pending
    obtain ⟨u, reaches, more⟩ := @starts_pending handler eventsToRun nextEventAt { s with
      loop := s.loop.cancel handler
      registered := s.registered.erase handler } running pending
    exact absurd (final u reaches) (Nat.ne_of_gt more)
  · intro careful
    have cancelled : Cancelled handler (s.started.count handler) { s with
        loop := s.loop.cancel handler
        registered := s.registered.erase handler } := by
      refine ⟨orderly.cancel careful, ?_, ?_, rfl⟩
      · dsimp only
        rw [EventLoop.allocated_cancel]
        exact made
      · exact orderly.linked.2.not_mem_erase
    exact ⟨cancelled.linked, fun u reaches => (cancelled.reaches reaches).started⟩

/-- The handler 0 is cancelled, between two calls for the handler 1, and started. -/
def resurrecting : List Action × List Action :=
  ([.repeat_ 0 1, .repeat_ 0 1, .repeat_ 0 1, .cancel 1],
    [.cancel 1, .first 5, .startRegular, .startRegular])

/-- The handler 0 is cancelled by the callback in front of it in the same pass. -/
def collecting : List Action × List Action :=
  ([.repeat_ 0 1, .repeat_ 0 1, .first 5, .startRegular], [.startRegular])

theorem cancelled_handlers_are_started :
    (((System.create.steps (resurrecting.1 ++ .cancel 0 :: resurrecting.2)).map fun s =>
        (s.registered, s.started)) = some ([2], [2, 0])) ∧
    (((System.create.steps (collecting.1 ++ .cancel 0 :: collecting.2)).map fun s =>
        (s.registered, s.started)) = some ([1], [1, 0])) ∧
    ¬ ∀ (before behind : List Action) (handler : Handler) (s t u : System),
      System.create.steps before = some s → s.step (.cancel handler) = some t →
        t.steps behind = some u → u.started.count handler = t.started.count handler := by
  refine ⟨by decide, by decide, fun claim => ?_⟩
  have final := claim collecting.1 collecting.2 0 _ _ _ (Option.some_get (by decide)).symm
    (Option.some_get (by decide)).symm (Option.some_get (by decide)).symm
  exact absurd final (by decide)

/-- Two timers, the first of which is cancelled. -/
def two : System := (System.create.steps [.repeat_ 0 1, .repeat_ 0 1]).get (by decide)

def one : System := (two.step (.cancel 0)).get (by decide)

theorem first_is_cancelled :
    WellLinked one ∧ ∀ u, System.Reaches Careful one u →
      u.started.count 0 = one.started.count 0 := by
  have reached : System.Reaches Careful System.create two :=
    (Relation.ReflTransGen.single ⟨.repeat_ 0 1, trivial, rfl⟩).tail ⟨.repeat_ 0 1, trivial, rfl⟩
  have careful : Careful two (.cancel 0) := ⟨.inl (by decide), by decide⟩
  exact ((cancelling_is_final_iff reached).2 0 one (Option.some_get _).symm).mpr careful

end Haxe.Guarantees.EventHandlers
