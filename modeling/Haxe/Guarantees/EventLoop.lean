import Haxe.Source.Std.EventLoopSteps

/-!
# The events of a loop

No one-time event is lost or executed twice, and a pass executes all that were added before its
second critical section. What `loop` decides on is older than the decision: a regular event that
is registered behind the first critical section of a pass that finds nothing, and a promise that is
made behind the second one, are left behind.
-/

namespace Haxe.Guarantees.EventLoop

open Haxe.Source.Thread Haxe.Theory.LinkedChains

/-- The one-time events that the running pass has still to execute. -/
@[grind =] def running (s : System) : List Event :=
  match s.phase with
  | .oneTime eventsToRun _ _ => eventsToRun
  | _ => []

/-- Some first events have been executed or are about to be, and the later ones are waiting. -/
structure Collected (n : Nat) (s : System) : Prop where
  within : n ≤ s.added
  executed : s.executed ++ running s = List.range n
  queued : s.loop.Queued (List.range' n (s.added - n))

theorem collected_create : Collected 0 System.create where
  within := Nat.le_refl _
  executed := rfl
  queued := ⟨⟨0, rfl⟩, rfl⟩

theorem Collected.congr {n : Nat} {s t : System} (collected : Collected n s)
    (added : t.added = s.added) (executed : t.executed ++ running t = s.executed ++ running s)
    (same : EventLoop.SameEvents s.loop t.loop) : Collected n t where
  within := by
    rw [added]
    exact collected.within
  executed := executed.trans collected.executed
  queued := by
    rw [added]
    exact collected.queued.congr same

theorem queued_added {n added : Nat} (within : n ≤ added) :
    List.range' n (added - n) ++ [added] = List.range' n (added + 1 - n) := by
  rw [Nat.succ_sub within, List.range'_concat, Nat.one_mul, Nat.add_sub_of_le within]

theorem running_eq {s : System} {eventsToRun : List Event} {nextEventAt : Int} {promised : Bool}
    (phase : s.phase = .oneTime eventsToRun nextEventAt promised) : running s = eventsToRun := by
  unfold running
  rw [phase]

theorem running_decide (s : System) (nextEventAt : Int) (promised : Bool) :
    running { s with phase := System.decide_ nextEventAt promised } = [] := by
  unfold running System.decide_
  dsimp only
  split_ifs <;> rfl

theorem range_append {n added : Nat} (within : n ≤ added) :
    List.range n ++ List.range' n (added - n) = List.range added := by
  have append := @List.range'_append_1 0 n (added - n)
  rw [Nat.zero_add, Nat.add_sub_of_le within] at append
  rw [List.range_eq_range', List.range_eq_range', append]

/-- Nothing but the second critical section changes which events are collected. -/
theorem Collected.step {n : Nat} {s t : System} {action : Action} (collected : Collected n s)
    (step : System.Stepped s action t) :
    Collected (if action = .second then s.added else n) t := by
  cases step with
  | repeat_ now interval => exact collected.congr rfl rfl (EventLoop.sameEvents_repeat ..)
  | cancel made => exact collected.congr rfl rfl (EventLoop.sameEvents_cancel ..)
  | promise =>
    exact ⟨collected.within, collected.executed, collected.queued.oneTimeEvents,
      collected.queued.oneTimeEventsIdx⟩
  | run | runPromised =>
    refine ⟨Nat.le_succ_of_le collected.within, collected.executed, ?_⟩
    have queued := collected.queued.addEvent s.added
    rw [queued_added collected.within] at queued
    exact ⟨queued.oneTimeEvents, queued.oneTimeEventsIdx⟩
  | first outside run =>
    refine collected.congr rfl ?_ (EventLoop.retimed_firstSection run).toSameEvents
    unfold running
    rw [outside]
  | startRegular phase =>
    refine collected.congr rfl ?_ ⟨rfl, rfl, rfl⟩
    unfold running
    rw [phase]
  | second phase =>
    have executed := collected.executed
    unfold running at executed
    rw [phase, List.append_nil] at executed
    refine ⟨Nat.le_refl _, ?_, ?_⟩
    · change s.executed ++ EventLoop.pendingEvents s.loop.oneTimeEvents = _
      rw [executed, collected.queued.pending]
      exact range_append collected.within
    · change EventLoop.Queued _ (List.range' s.added (s.added - s.added))
      rw [Nat.sub_self]
      exact collected.queued.second
  | @startOneTime event eventsToRun nextEventAt promised phase =>
    refine collected.congr rfl ?_ ⟨rfl, rfl, rfl⟩
    rw [running_eq phase, List.append_assoc]
    rfl
  | @finish nextEventAt promised phase =>
    refine collected.congr rfl ?_ ⟨rfl, rfl, rfl⟩
    rw [running_eq phase, List.append_nil]
    rw [running_decide, List.append_nil]
  | return_ phase =>
    refine collected.congr rfl ?_ ⟨rfl, rfl, rfl⟩
    rw [running_eq phase]
    rfl
  | enter outside =>
    refine collected.congr rfl ?_ ⟨rfl, rfl, rfl⟩
    unfold running
    rw [outside]
  | wake outside =>
    refine collected.congr rfl ?_ ⟨rfl, rfl, rfl⟩
    unfold running
    rw [outside]

/-- Whatever is cancelled, however often: the pointers lead from later events to earlier ones, past
none that is registered. -/
structure Covering (s : System) : Prop where
  distinct : s.registered.Nodup
  made : ∀ r ∈ s.registered, r < s.loop.allocated
  head : ∀ h, s.loop.regularEvents = some h → h < s.loop.allocated
  next : ∀ h < s.loop.allocated, ∀ n, s.loop.nexts h = some n → n < h
  previous : ∀ h < s.loop.allocated, ∀ p, s.loop.previouses h = some p →
    h < p ∧ p < s.loop.allocated
  headCovers : ∀ r ∈ s.registered, ∃ h, s.loop.regularEvents = some h ∧ r ≤ h
  nextCovers : ∀ h < s.loop.allocated, ∀ r ∈ s.registered, r < h →
    ∃ n, s.loop.nexts h = some n ∧ r ≤ n
  previousCovers : ∀ h < s.loop.allocated, ∀ p, s.loop.previouses h = some p →
    ∀ r ∈ s.registered, h < r → p ≤ r

theorem covering_create : Covering System.create := by
  constructor <;> simp [System.create, EventLoop.create]

theorem Covering.congr {s t : System} (covering : Covering s)
    (nexts : t.loop.nexts = s.loop.nexts) (previouses : t.loop.previouses = s.loop.previouses)
    (regularEvents : t.loop.regularEvents = s.loop.regularEvents)
    (allocated : t.loop.allocated = s.loop.allocated) (registered : t.registered = s.registered) :
    Covering t := by
  constructor
  · rw [registered]
    exact covering.distinct
  · rw [registered, allocated]
    exact covering.made
  · rw [regularEvents, allocated]
    exact covering.head
  · rw [nexts, allocated]
    exact covering.next
  · rw [previouses, allocated]
    exact covering.previous
  · rw [registered, regularEvents]
    exact covering.headCovers
  · rw [registered, allocated, nexts]
    exact covering.nextCovers
  · rw [registered, allocated, previouses]
    exact covering.previousCovers

theorem Covering.repeat_ {s : System} (covering : Covering s) (now : Nat) (interval : Int) :
    Covering { s with
      loop := s.loop.repeat_ now interval
      registered := s.loop.allocated :: s.registered } := by
  constructor <;> dsimp only
  · refine List.nodup_cons.mpr ⟨fun member => ?_, covering.distinct⟩
    exact Nat.lt_irrefl _ (covering.made _ member)
  · rw [EventLoop.allocated_repeat]
    exact List.forall_mem_cons.mpr
      ⟨Nat.lt_succ_self _, fun r member => Nat.lt_succ_of_lt (covering.made r member)⟩
  · rw [EventLoop.allocated_repeat]
    intro h head
    obtain rfl := Option.some.inj head
    exact Nat.lt_succ_self _
  · rw [EventLoop.allocated_repeat, EventLoop.nexts_repeat]
    intro h known n next
    by_cases new : h = s.loop.allocated
    · subst new
      rw [Function.update_self] at next
      exact covering.head n next
    · rw [Function.update_of_ne new] at next
      exact covering.next h (Nat.lt_of_le_of_ne (Nat.le_of_lt_succ known) new) n next
  · rw [EventLoop.allocated_repeat, EventLoop.previouses_repeat]
    intro h known p previous
    by_cases first : s.loop.regularEvents = some h
    · rw [first, relink_self] at previous
      obtain rfl := Option.some.inj previous
      exact ⟨covering.head h first, Nat.lt_succ_self _⟩
    · rw [relink_of_ne first] at previous
      by_cases new : h = s.loop.allocated
      · subst new
        rw [Function.update_self] at previous
        cases previous
      · rw [Function.update_of_ne new] at previous
        have old := Nat.lt_of_le_of_ne (Nat.le_of_lt_succ known) new
        have upper := covering.previous h old p previous
        exact ⟨upper.1, Nat.lt_succ_of_lt upper.2⟩
  · intro r member
    refine ⟨s.loop.allocated, rfl, ?_⟩
    obtain rfl | member := List.mem_cons.mp member
    · exact Nat.le_refl _
    · exact Nat.le_of_lt (covering.made r member)
  · rw [EventLoop.allocated_repeat, EventLoop.nexts_repeat]
    intro h known r member lower
    by_cases new : h = s.loop.allocated
    · subst new
      rw [Function.update_self]
      exact covering.headCovers r (List.mem_of_ne_of_mem (Nat.ne_of_lt lower) member)
    · rw [Function.update_of_ne new]
      have old := Nat.lt_of_le_of_ne (Nat.le_of_lt_succ known) new
      have other := Nat.ne_of_lt (Nat.lt_trans lower old)
      exact covering.nextCovers h old r (List.mem_of_ne_of_mem other member) lower
  · rw [EventLoop.allocated_repeat, EventLoop.previouses_repeat]
    intro h known p previous r member upper
    by_cases first : s.loop.regularEvents = some h
    · rw [first, relink_self] at previous
      obtain rfl := Option.some.inj previous
      obtain rfl | member := List.mem_cons.mp member
      · exact Nat.le_refl _
      · obtain ⟨head, same, covered⟩ := covering.headCovers r member
        obtain rfl := Option.some.inj (same.symm.trans first)
        exact absurd upper (Nat.not_lt_of_le covered)
    · rw [relink_of_ne first] at previous
      by_cases new : h = s.loop.allocated
      · subst new
        rw [Function.update_self] at previous
        cases previous
      · rw [Function.update_of_ne new] at previous
        have old := Nat.lt_of_le_of_ne (Nat.le_of_lt_succ known) new
        obtain rfl | member := List.mem_cons.mp member
        · exact Nat.le_of_lt (covering.previous h old p previous).2
        · exact covering.previousCovers h old p previous r member upper

theorem Covering.cancel {s : System} (covering : Covering s) {handler : Handler}
    (made : handler < s.loop.allocated) :
    Covering { s with
      loop := s.loop.cancel handler
      registered := s.registered.erase handler } := by
  have behind : ∀ r ∈ s.registered.erase handler, r ∈ s.registered ∧ r ≠ handler := by
    intro r member
    refine ⟨List.mem_of_mem_erase member, ?_⟩
    rintro rfl
    exact covering.distinct.not_mem_erase member
  constructor <;> dsimp only
  · exact covering.distinct.erase handler
  · rw [EventLoop.allocated_cancel]
    exact fun r member => covering.made r (behind r member).1
  · rw [EventLoop.allocated_cancel, EventLoop.regularEvents_cancel]
    intro h head
    split at head
    · exact Nat.lt_trans (covering.next handler made h head) made
    · exact covering.head h head
  · rw [EventLoop.allocated_cancel, EventLoop.nexts_cancel]
    intro h known n next
    by_cases before : s.loop.previouses handler = some h
    · rw [before, relink_self] at next
      exact Nat.lt_trans (covering.next handler made n next)
        (covering.previous handler made h before).1
    · rw [relink_of_ne before] at next
      exact covering.next h known n next
  · rw [EventLoop.allocated_cancel, EventLoop.previouses_cancel]
    intro h known p previous
    by_cases next : s.loop.nexts handler = some h
    · rw [next, relink_self] at previous
      have upper := covering.previous handler made p previous
      exact ⟨Nat.lt_trans (covering.next handler made h next) upper.1, upper.2⟩
    · rw [relink_of_ne next] at previous
      exact covering.previous h known p previous
  · rw [EventLoop.regularEvents_cancel]
    intro r member
    obtain ⟨listed, other⟩ := behind r member
    obtain ⟨head, same, covered⟩ := covering.headCovers r listed
    split
    · rename_i first
      obtain rfl := Option.some.inj (same.symm.trans first)
      exact covering.nextCovers head made r listed (Nat.lt_of_le_of_ne covered other)
    · exact ⟨head, same, covered⟩
  · rw [EventLoop.allocated_cancel, EventLoop.nexts_cancel]
    intro h known r member lower
    obtain ⟨member, other⟩ := behind r member
    by_cases before : s.loop.previouses handler = some h
    · rw [before, relink_self]
      apply covering.nextCovers handler made r member
      by_contra above
      have upper := Nat.lt_of_le_of_ne (Nat.le_of_not_lt above) other.symm
      exact absurd lower
        (Nat.not_lt_of_le (covering.previousCovers handler made h before r member upper))
    · rw [relink_of_ne before]
      exact covering.nextCovers h known r member lower
  · rw [EventLoop.allocated_cancel, EventLoop.previouses_cancel]
    intro h known p previous r member upper
    obtain ⟨member, other⟩ := behind r member
    by_cases next : s.loop.nexts handler = some h
    · rw [next, relink_self] at previous
      have covered : handler < r := by
        by_contra below
        have lower := Nat.lt_of_le_of_ne (Nat.le_of_not_lt below) other
        obtain ⟨n, same, covered⟩ := covering.nextCovers handler made r member lower
        obtain rfl := Option.some.inj (same.symm.trans next)
        exact absurd upper (Nat.not_lt_of_le covered)
      exact covering.previousCovers handler made p previous r member covered
    · rw [relink_of_ne next] at previous
      exact covering.previousCovers h known p previous r member upper

theorem Covering.step {s t : System} {action : Action} (covering : Covering s)
    (step : System.Stepped s action t) : Covering t := by
  cases step with
  | repeat_ now interval => exact covering.repeat_ now interval
  | cancel made => exact covering.cancel made
  | first outside run =>
    have retimed := EventLoop.retimed_firstSection run
    exact covering.congr retimed.nexts retimed.previouses retimed.regularEvents retimed.allocated
      rfl
  | _ => exact covering.congr rfl rfl rfl rfl rfl

theorem Covering.chain {s : System} (covering : Covering s) :
    ∃ l, Chain s.loop.nexts s.loop.regularEvents l ∧ l.length ≤ s.loop.allocated :=
  exists_chain covering.next s.loop.regularEvents covering.head

structure Unregistered (s : System) : Prop where
  regularEvents : s.loop.regularEvents = none
  registered : s.registered = []

/-- Nothing is left that `loop` waits for. -/
structure Served (s : System) : Prop extends Unregistered s where
  promises : s.loop.promisedEventsCount ≤ 0

/-- The running pass has found nothing up to here that keeps `loop` from leaving. -/
@[grind =] def mayLeave (s : System) : Prop :=
  match s.phase with
  | .regular _ nextEventAt =>
    nextEventAt = -1 ∧ EventLoop.pendingEvents s.loop.oneTimeEvents = [] ∧
      s.loop.promisedEventsCount ≤ 0
  | .oneTime _ nextEventAt hasPromisedEvents => nextEventAt = -1 ∧ hasPromisedEvents = false
  | _ => False

/-- Nothing is registered while a pass may lead to leaving, and nothing is promised once it does. -/
def Unhurried (s : System) : Action → Prop
  | .repeat_ _ _ => ¬ mayLeave s
  | .promise => (∃ eventsToRun nextEventAt hasPromisedEvents,
      s.phase = .oneTime eventsToRun nextEventAt hasPromisedEvents) → mayLeave s →
      s.loop.promisedEventsCount < 0
  | _ => True

/-- What has been found is what is there, where the pass may lead to leaving. -/
structure Settled (s : System) : Prop extends Covering s where
  collected : ∃ n, Collected n s
  regular : ∀ eventsToRun, s.phase = .regular eventsToRun (-1) →
    eventsToRun = [] ∧ (mayLeave s → Unregistered s)
  oneTime : ∀ eventsToRun promised, s.phase = .oneTime eventsToRun (-1) promised →
    eventsToRun = [] ∧ (promised = false → Served s)

theorem settled_create : Settled System.create where
  toCovering := covering_create
  collected := ⟨0, collected_create⟩
  regular := by simp [System.create]
  oneTime := by simp [System.create]

theorem mayLeave_regular {s : System} {eventsToRun : List Handler} {nextEventAt : Int}
    (phase : s.phase = .regular eventsToRun nextEventAt) :
    mayLeave s ↔ nextEventAt = -1 ∧ EventLoop.pendingEvents s.loop.oneTimeEvents = [] ∧
      s.loop.promisedEventsCount ≤ 0 := by
  unfold mayLeave
  rw [phase]

theorem mayLeave_oneTime {s : System} {eventsToRun : List Event} {nextEventAt : Int}
    {promised : Bool} (phase : s.phase = .oneTime eventsToRun nextEventAt promised) :
    mayLeave s ↔ nextEventAt = -1 ∧ promised = false := by
  unfold mayLeave
  rw [phase]

theorem mayLeave_of_same {s t : System} (same : EventLoop.SameEvents s.loop t.loop)
    (phase : t.phase = s.phase) (may : mayLeave t) : mayLeave s := by
  unfold mayLeave at may ⊢
  rwa [phase, same.oneTimeEvents, same.promisedEventsCount] at may

/-- A pass that finds no regular event leaves none out. -/
theorem Covering.first {s : System} (covering : Covering s) {now : Nat}
    {collected : EventLoop × List Handler × Int} (run : s.loop.firstSection now = some collected)
    (nothing : collected.2.2 = -1) :
    collected.2.1 = [] ∧ Unregistered s := by
  obtain ⟨l, chain, enough⟩ := covering.chain
  obtain ⟨next, due, at_, run', listed, found⟩ := s.loop.firstSection_of_chain now chain enough
  obtain rfl := Option.some.inj (run'.symm.trans run)
  obtain rfl := found.mp nothing
  refine ⟨List.eq_nil_iff_forall_not_mem.mpr fun h member => ?_, chain, ?_⟩
  · exact List.not_mem_nil (listed h member)
  · refine List.eq_nil_iff_forall_not_mem.mpr fun r member => ?_
    obtain ⟨h, head, -⟩ := covering.headCovers r member
    exact absurd (chain.symm.trans head) (Option.some_ne_none h).symm

/-- The calls of other threads and of callbacks do not change the phase. -/
theorem Settled.call {s t : System} (settled : Settled s) (covering : Covering t)
    (collected : ∃ n, Collected n t) (phase : t.phase = s.phase)
    (leaving : mayLeave t → mayLeave s)
    (unregistered : mayLeave t → Unregistered s → Unregistered t)
    (promises : ∀ eventsToRun nextEventAt promised,
      s.phase = .oneTime eventsToRun nextEventAt promised → mayLeave t →
      s.loop.promisedEventsCount ≤ 0 → t.loop.promisedEventsCount ≤ 0) : Settled t := by
  refine ⟨covering, collected, fun eventsToRun phase' => ?_, fun eventsToRun promised phase' => ?_⟩
  · obtain ⟨empty, nothing⟩ := settled.regular eventsToRun (phase.symm.trans phase')
    exact ⟨empty, fun may => unregistered may (nothing (leaving may))⟩
  · obtain ⟨empty, served⟩ := settled.oneTime eventsToRun promised (phase.symm.trans phase')
    refine ⟨empty, fun none_ => ?_⟩
    have may := (mayLeave_oneTime phase').mpr ⟨rfl, none_⟩
    exact ⟨unregistered may (served none_).toUnregistered,
      promises _ _ _ (phase.symm.trans phase') may (served none_).promises⟩

/-- An event that is added keeps a pass from leaving before it is collected. -/
theorem mayLeave_of_added {s t : System} {n : Nat} (collected : Collected n s)
    (phase : t.phase = s.phase)
    (events : t.loop.oneTimeEvents = (s.loop.addEvent s.added).oneTimeEvents) (may : mayLeave t) :
    mayLeave s := by
  unfold mayLeave at may ⊢
  rw [phase] at may
  split at may
  · have nothing := may.2.1
    rw [events, (collected.queued.addEvent s.added).pending] at nothing
    simp at nothing
  · assumption
  · exact may

theorem mayLeave_of_promise {s : System} (may : mayLeave { s with loop := s.loop.promise }) :
    mayLeave s := by
  unfold mayLeave at may ⊢
  dsimp only at may
  split at may
  · refine ⟨may.1, may.2.1, ?_⟩
    have := may.2.2
    unfold EventLoop.promise at this
    dsimp only at this
    omega
  · assumption
  · exact may

theorem decide_outside (nextEventAt : Int) (promised : Bool) :
    (∀ eventsToRun at_, System.decide_ nextEventAt promised ≠ .regular eventsToRun at_) ∧
      ∀ eventsToRun at_ promised',
        System.decide_ nextEventAt promised ≠ .oneTime eventsToRun at_ promised' := by
  unfold System.decide_
  split_ifs <;> simp

theorem Settled.step {s t : System} {action : Action} (settled : Settled s)
    (unhurried : Unhurried s action) (step : System.Stepped s action t) : Settled t := by
  have covering := settled.toCovering.step step
  obtain ⟨n, before⟩ := settled.collected
  have collected : ∃ n, Collected n t := ⟨_, before.step step⟩
  cases step with
  | repeat_ now interval =>
    have same := EventLoop.sameEvents_repeat s.loop now interval
    have quick : ¬ mayLeave s := unhurried
    refine settled.call covering collected rfl (mayLeave_of_same same rfl) ?_ ?_
    · exact fun may => (quick (mayLeave_of_same same (by rfl) may)).elim
    · exact fun _ _ _ _ may => (quick (mayLeave_of_same same (by rfl) may)).elim
  | @cancel handler made =>
    have same := EventLoop.sameEvents_cancel s.loop handler
    refine settled.call covering collected rfl (mayLeave_of_same same rfl) ?_ ?_
    · rintro - ⟨regularEvents, registered⟩
      constructor
      · dsimp only
        rw [EventLoop.regularEvents_cancel, regularEvents]
        rfl
      · dsimp only
        rw [registered]
        rfl
    · intro _ _ _ _ _ promises
      exact same.promisedEventsCount.symm ▸ promises
  | promise =>
    refine settled.call covering collected rfl mayLeave_of_promise ?_ ?_
    · exact fun _ nothing => ⟨nothing.regularEvents, nothing.registered⟩
    · intro _ _ _ phase may _
      exact unhurried ⟨_, _, _, phase⟩ (mayLeave_of_promise may)
  | run =>
    refine settled.call covering collected rfl (mayLeave_of_added before rfl rfl) ?_ ?_
    · exact fun _ nothing => ⟨nothing.regularEvents, nothing.registered⟩
    · exact fun _ _ _ _ _ promises => promises
  | runPromised =>
    refine settled.call covering collected rfl (mayLeave_of_added before rfl rfl) ?_ ?_
    · exact fun _ nothing => ⟨nothing.regularEvents, nothing.registered⟩
    · exact fun _ _ _ _ _ promises => Int.le_trans (Int.sub_le_self _ (by decide)) promises
  | first outside run =>
    refine ⟨covering, collected, fun eventsToRun phase => ?_, by simp⟩
    injection phase with same found
    obtain ⟨nothing, unregistered⟩ := settled.toCovering.first run found
    have retimed := EventLoop.retimed_firstSection run
    exact ⟨same.symm.trans nothing, fun _ =>
      ⟨retimed.regularEvents.trans unregistered.regularEvents, unregistered.registered⟩⟩
  | startRegular running =>
    refine ⟨covering, collected, fun eventsToRun phase => ?_, by simp⟩
    injection phase with same found
    subst found
    cases (settled.regular _ running).1
  | second running =>
    refine ⟨covering, collected, by simp, fun eventsToRun promised phase => ?_⟩
    injection phase with same found promises
    have empty : s.loop.secondSection.2.1 = [] := by
      by_contra some_
      rw [if_neg some_] at found
      exact absurd found (by decide)
    rw [if_pos empty] at found
    subst found
    refine ⟨same.symm.trans empty, fun none_ => ?_⟩
    have kept : s.loop.promisedEventsCount ≤ 0 := by
      rw [none_] at promises
      exact Int.not_lt.mp (of_decide_eq_false promises)
    have unregistered := (settled.regular _ running).2
      ((mayLeave_regular running).mpr ⟨rfl, empty, kept⟩)
    exact ⟨⟨unregistered.regularEvents, unregistered.registered⟩, kept⟩
  | startOneTime running =>
    refine ⟨covering, collected, by simp, fun eventsToRun promised phase => ?_⟩
    injection phase with same found promises
    subst found
    cases (settled.oneTime _ _ running).1
  | @finish nextEventAt promised running =>
    have outside := decide_outside nextEventAt promised
    refine ⟨covering, collected, fun eventsToRun phase => ?_, fun eventsToRun promised phase => ?_⟩
    · exact absurd phase (outside.1 _ _)
    · exact absurd phase (outside.2 _ _ _)
  | return_ | enter | wake => exact ⟨covering, collected, by simp, by simp⟩

theorem Settled.reaches {s t : System} (settled : Settled s)
    (reaches : System.Reaches Unhurried s t) : Settled t :=
  reaches.invariant settled fun settled unhurried step => settled.step unhurried step

theorem decide_eq_left {nextEventAt : Int} {promised : Bool}
    (left : System.decide_ nextEventAt promised = .left) : nextEventAt = -1 ∧ promised = false := by
  unfold System.decide_ at left
  split_ifs at left with now never
  exact never

theorem Settled.left {s t : System} (settled : Settled s) (step : s.step .finish = some t)
    (left : t.phase = .left) : Served t := by
  have stepped := System.stepped_of_step step
  cases stepped with | finish running => ?_
  obtain ⟨rfl, none_⟩ := decide_eq_left left
  have served := (settled.oneTime _ _ running).2 none_
  exact ⟨⟨served.regularEvents, served.registered⟩, served.promises⟩

theorem step_finish {s : System} (phase : s.phase = .oneTime [] (-1) false) :
    s.step .finish = some { s with phase := .left } := by
  unfold System.step
  rw [phase]
  rfl

theorem step_second {s : System} (phase : s.phase = .regular [] (-1))
    (nothing : EventLoop.pendingEvents s.loop.oneTimeEvents = [])
    (promises : s.loop.promisedEventsCount ≤ 0) :
    s.step .second = some { s with
      loop := s.loop.secondSection.1
      phase := .oneTime [] (-1) false } := by
  have none_ : decide (s.loop.promisedEventsCount > 0) = false :=
    decide_eq_false (Int.not_lt.mpr promises)
  unfold System.step EventLoop.secondSection
  rw [phase]
  dsimp only
  rw [nothing, if_pos rfl, none_]

/-- A pass that may lead to leaving does so, where nothing else happens. -/
theorem leaves {s : System} (settled : ∀ eventsToRun, s.phase = .regular eventsToRun (-1) →
      eventsToRun = [])
    (settled' : ∀ eventsToRun promised, s.phase = .oneTime eventsToRun (-1) promised →
      eventsToRun = []) (may : mayLeave s) :
    ∃ u v, System.Reaches Unhurried s u ∧ u.step .finish = some v ∧ v.phase = .left ∧
      v.registered = s.registered ∧
      v.loop.promisedEventsCount = s.loop.promisedEventsCount := by
  cases phase : s.phase with
  | regular eventsToRun nextEventAt =>
    obtain ⟨rfl, nothing, promises⟩ := (mayLeave_regular phase).mp may
    obtain rfl := settled _ phase
    have second := step_second phase nothing promises
    exact ⟨_, _, .single ⟨.second, trivial, second⟩, step_finish rfl, rfl, rfl, rfl⟩
  | oneTime eventsToRun nextEventAt promised =>
    obtain ⟨rfl, rfl⟩ := (mayLeave_oneTime phase).mp may
    obtain rfl := settled' _ _ phase
    exact ⟨s, _, .refl, step_finish phase, rfl, rfl, rfl⟩
  | _ =>
    unfold mayLeave at may
    rw [phase] at may
    exact may.elim

theorem unhurried_of_served {s t : System} {action : Action} (settled : Settled s)
    (step : s.step action = some t)
    (always : ∀ u v, System.Reaches Unhurried t u → u.step .finish = some v → v.phase = .left →
      Served v) : Unhurried s action := by
  cases action with
  | repeat_ now interval =>
    intro may
    obtain rfl := Option.some.inj step
    have same := (EventLoop.sameEvents_repeat s.loop now interval).symm
    obtain ⟨u, v, reaches, finish, left, registered, -⟩ := @leaves { s with
      loop := s.loop.repeat_ now interval
      registered := s.loop.allocated :: s.registered }
      (fun _ phase => (settled.regular _ phase).1) (fun _ _ phase => (settled.oneTime _ _ phase).1)
      (mayLeave_of_same same rfl may)
    have served := always u v reaches finish left
    exact absurd (registered.symm.trans served.registered) (List.cons_ne_nil _ _)
  | promise =>
    rintro ⟨eventsToRun, nextEventAt, promised, phase⟩ may
    obtain rfl := Option.some.inj step
    obtain ⟨u, v, reaches, finish, left, -, promises⟩ := @leaves { s with loop := s.loop.promise }
      (fun _ phase => (settled.regular _ phase).1) (fun _ _ phase => (settled.oneTime _ _ phase).1)
      ((mayLeave_oneTime (s := { s with loop := s.loop.promise }) phase).mpr
        ((mayLeave_oneTime phase).mp may))
    have served := (always u v reaches finish left).promises
    rw [promises] at served
    exact served
  | _ => trivial

theorem Collected.reaches {n : Nat} {s t : System} (collected : Collected n s)
    (reaches : System.Reaches (fun _ action => action ≠ .second) s t) : Collected n t := by
  refine reaches.invariant collected fun collected other step => ?_
  have next := collected.step step
  rwa [if_neg other] at next

theorem exists_collected {s : System}
    (reached : System.Reaches (fun _ _ => True) System.create s) : ∃ n, Collected n s := by
  refine @System.Reaches.invariant _ _ _ reached (fun s => ∃ n, Collected n s)
    ⟨0, collected_create⟩ ?_
  rintro s action t ⟨n, collected⟩ - step
  exact ⟨_, collected.step step⟩

/-- What has been executed is a first part of what was added. -/
theorem Collected.executed_eq {n : Nat} {s : System} (collected : Collected n s) :
    ∃ k ≤ s.added, s.executed = List.range k := by
  have executed : s.executed = (List.range n).take s.executed.length := by
    rw [← collected.executed, List.take_left]
  refine ⟨min s.executed.length n, ?_, ?_⟩
  · exact Nat.le_trans (Nat.min_le_right ..) collected.within
  · rwa [List.take_range] at executed

/-- The events that are waiting were added behind the second critical section. -/
theorem Collected.later {n : Nat} {s : System} (collected : Collected n s) {event : Event}
    (waiting : some event ∈ s.loop.oneTimeEvents) : n ≤ event := by
  obtain ⟨free, places⟩ := collected.queued.oneTimeEvents
  rw [places] at waiting
  obtain queued | none_ := List.mem_append.mp waiting
  · obtain ⟨same, member, equal⟩ := List.mem_map.mp queued
    obtain rfl := Option.some.inj equal
    exact (List.mem_range'_1.mp member).1
  · cases List.eq_of_mem_replicate none_

/-- A pass ends behind the last of the events that it has collected. -/
theorem Collected.passed {n : Nat} {s t : System} (collected : Collected n s)
    (step : s.step .finish = some t ∨ s.step .return_ = some t) : t.executed = List.range n := by
  have executed := collected.executed
  obtain step | step := step
  · have stepped := System.stepped_of_step step
    cases stepped with | finish phase => ?_
    rwa [running_eq phase, List.append_nil] at executed
  · have stepped := System.stepped_of_step step
    cases stepped with | return_ phase => ?_
    rwa [running_eq phase, List.append_nil] at executed

/-- An event is waiting in front of a pass, another one is added behind its second section. -/
def waiting : System := (System.create.steps [.run, .first 0]).get (by decide)

def collected : System := (waiting.step .second).get (by decide)

def served : System := (collected.steps [.run, .startOneTime]).get (by decide)

end Haxe.Guarantees.EventLoop
