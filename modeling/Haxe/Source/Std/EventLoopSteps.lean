import Mathlib.Logic.Relation
import Haxe.Source.Std.EventLoop
import Haxe.Theory.LinkedChains

/-!
# What the steps of an event loop do

Every call by its effect on the pointers of the regular events and on the queue of the one-time
events, and every step of a pass by the phases it leads from and to.
-/

namespace Haxe.Source.Thread

open Haxe.Theory.LinkedChains

namespace EventLoop

def nexts (this : EventLoop) (h : Handler) : Option Handler := (this.heap h).next

def previouses (this : EventLoop) (h : Handler) : Option Handler := (this.heap h).previous

@[simp] theorem nexts_setPrevious (this : EventLoop) (e : Handler) (p : Option Handler) :
    (this.setPrevious e p).nexts = this.nexts := by
  funext h
  by_cases same : h = e
  · subst same
    simp [nexts, setPrevious]
  · simp [nexts, setPrevious, Function.update_of_ne same]

@[simp] theorem previouses_setPrevious (this : EventLoop) (e : Handler) (p : Option Handler) :
    (this.setPrevious e p).previouses = Function.update this.previouses e p := by
  funext h
  by_cases same : h = e
  · subst same
    simp [previouses, setPrevious]
  · simp [previouses, setPrevious, Function.update_of_ne same]

@[simp] theorem nexts_setNext (this : EventLoop) (e : Handler) (n : Option Handler) :
    (this.setNext e n).nexts = Function.update this.nexts e n := by
  funext h
  by_cases same : h = e
  · subst same
    simp [nexts, setNext]
  · simp [nexts, setNext, Function.update_of_ne same]

@[simp] theorem previouses_setNext (this : EventLoop) (e : Handler) (n : Option Handler) :
    (this.setNext e n).previouses = this.previouses := by
  funext h
  by_cases same : h = e
  · subst same
    simp [previouses, setNext]
  · simp [previouses, setNext, Function.update_of_ne same]

/-- The one-time events and the number of promises are equal. -/
structure SameEvents (this next : EventLoop) : Prop where
  oneTimeEvents : next.oneTimeEvents = this.oneTimeEvents
  oneTimeEventsIdx : next.oneTimeEventsIdx = this.oneTimeEventsIdx
  promisedEventsCount : next.promisedEventsCount = this.promisedEventsCount

theorem SameEvents.trans {this next last : EventLoop} (first : SameEvents this next)
    (second : SameEvents next last) : SameEvents this last where
  oneTimeEvents := second.oneTimeEvents.trans first.oneTimeEvents
  oneTimeEventsIdx := second.oneTimeEventsIdx.trans first.oneTimeEventsIdx
  promisedEventsCount := second.promisedEventsCount.trans first.promisedEventsCount

theorem SameEvents.symm {this next : EventLoop} (same : SameEvents this next) :
    SameEvents next this :=
  ⟨same.oneTimeEvents.symm, same.oneTimeEventsIdx.symm, same.promisedEventsCount.symm⟩

/-- Nothing but times of regular events and the wait lock differ. -/
structure Retimed (this next : EventLoop) : Prop extends SameEvents this next where
  nexts : next.nexts = this.nexts
  previouses : next.previouses = this.previouses
  allocated : next.allocated = this.allocated
  regularEvents : next.regularEvents = this.regularEvents

theorem Retimed.refl (this : EventLoop) : Retimed this this :=
  ⟨⟨rfl, rfl, rfl⟩, rfl, rfl, rfl, rfl⟩

theorem Retimed.trans {this next last : EventLoop} (first : Retimed this next)
    (second : Retimed next last) : Retimed this last where
  toSameEvents := first.toSameEvents.trans second.toSameEvents
  nexts := second.nexts.trans first.nexts
  previouses := second.previouses.trans first.previouses
  allocated := second.allocated.trans first.allocated
  regularEvents := second.regularEvents.trans first.regularEvents

theorem retimed_setRunTime (this : EventLoop) (e : Handler) (time : Int) :
    Retimed this (this.setRunTime e time) := by
  refine ⟨⟨rfl, rfl, rfl⟩, ?_, ?_, rfl, rfl⟩ <;> funext h <;> by_cases same : h = e
  · subst same
    simp [nexts, setRunTime]
  · simp [nexts, setRunTime, Function.update_of_ne same]
  · subst same
    simp [previouses, setRunTime]
  · simp [previouses, setRunTime, Function.update_of_ne same]

theorem nexts_repeat (this : EventLoop) (now : Nat) (interval : Int) :
    (this.repeat_ now interval).nexts =
      Function.update this.nexts this.allocated this.regularEvents := by
  have made : ∀ e : RegularEvent, (fun h => (Function.update this.heap this.allocated e h).next) =
      Function.update this.nexts this.allocated e.next := by
    intro e
    funext h
    by_cases same : h = this.allocated
    · subst same
      simp
    · simp [nexts, Function.update_of_ne same]
  unfold repeat_
  cases this.regularEvents with
  | none => exact made _
  | some current => exact (nexts_setPrevious ..).trans (made _)

theorem previouses_repeat (this : EventLoop) (now : Nat) (interval : Int) :
    (this.repeat_ now interval).previouses =
      relink (Function.update this.previouses this.allocated none) this.regularEvents
        (some this.allocated) := by
  have made : ∀ e : RegularEvent,
      (fun h => (Function.update this.heap this.allocated e h).previous) =
        Function.update this.previouses this.allocated e.previous := by
    intro e
    funext h
    by_cases same : h = this.allocated
    · subst same
      simp
    · simp [previouses, Function.update_of_ne same]
  unfold repeat_
  cases this.regularEvents with
  | none => exact made _
  | some current =>
    refine (previouses_setPrevious ..).trans ?_
    exact congrArg (fun others => Function.update others current (some this.allocated)) (made _)

theorem allocated_repeat (this : EventLoop) (now : Nat) (interval : Int) :
    (this.repeat_ now interval).allocated = this.allocated + 1 := by
  unfold repeat_
  cases this.regularEvents <;> rfl

/-- The head behind the first change of `cancel`. -/
@[grind =] def unheaded (this : EventLoop) (event : Handler) : EventLoop :=
  if this.regularEvents = some event then
    { this with regularEvents := (this.heap event).next } else this

/-- `event.next.previous = event.previous` -/
@[grind =] def linkedBack (this : EventLoop) (event : Handler) : EventLoop :=
  match (this.heap event).next with
  | none => this
  | some e => this.setPrevious e (this.heap event).previous

/-- `event.previous.next = event.next` -/
@[grind =] def linkedForth (this : EventLoop) (event : Handler) : EventLoop :=
  match (this.heap event).previous with
  | none => this
  | some e => this.setNext e (this.heap event).next

theorem cancel_eq (this : EventLoop) (event : Handler) :
    this.cancel event = ((this.unheaded event).linkedBack event).linkedForth event := rfl

theorem heap_unheaded (this : EventLoop) (event : Handler) :
    (this.unheaded event).heap = this.heap := by
  unfold unheaded
  split <;> rfl

theorem nexts_linkedBack (this : EventLoop) (event : Handler) :
    (this.linkedBack event).nexts = this.nexts := by
  unfold linkedBack
  split
  · rfl
  · exact nexts_setPrevious ..

theorem previouses_linkedBack (this : EventLoop) (event : Handler) :
    (this.linkedBack event).previouses =
      relink this.previouses (this.nexts event) (this.previouses event) := by
  unfold linkedBack
  change _ = relink _ (this.heap event).next _
  cases (this.heap event).next with
  | none => rfl
  | some e => exact previouses_setPrevious ..

/-- The event itself keeps its pointers, also where it is its own neighbour. -/
theorem previous_linkedBack (this : EventLoop) (event : Handler) :
    (this.linkedBack event).previouses event = this.previouses event := by
  rw [previouses_linkedBack]
  by_cases same : this.nexts event = some event
  · rw [same]
    exact Function.update_self ..
  · exact relink_of_ne same

theorem nexts_linkedForth (this : EventLoop) (event : Handler) :
    (this.linkedForth event).nexts =
      relink this.nexts (this.previouses event) (this.nexts event) := by
  unfold linkedForth
  change _ = relink _ (this.heap event).previous _
  cases (this.heap event).previous with
  | none => rfl
  | some e => exact nexts_setNext ..

theorem previouses_linkedForth (this : EventLoop) (event : Handler) :
    (this.linkedForth event).previouses = this.previouses := by
  unfold linkedForth
  split
  · rfl
  · exact previouses_setNext ..

theorem nexts_cancel (this : EventLoop) (event : Handler) :
    (this.cancel event).nexts =
      relink this.nexts (this.previouses event) (this.nexts event) := by
  have nexts : (this.unheaded event).nexts = this.nexts := by
    unfold EventLoop.nexts
    rw [heap_unheaded]
  have previouses : (this.unheaded event).previouses = this.previouses := by
    unfold EventLoop.previouses
    rw [heap_unheaded]
  rw [cancel_eq, nexts_linkedForth, previous_linkedBack, nexts_linkedBack, nexts, previouses]

theorem previouses_cancel (this : EventLoop) (event : Handler) :
    (this.cancel event).previouses =
      relink this.previouses (this.nexts event) (this.previouses event) := by
  have nexts : (this.unheaded event).nexts = this.nexts := by
    unfold EventLoop.nexts
    rw [heap_unheaded]
  have previouses : (this.unheaded event).previouses = this.previouses := by
    unfold EventLoop.previouses
    rw [heap_unheaded]
  rw [cancel_eq, previouses_linkedForth, previouses_linkedBack, nexts, previouses]

theorem regularEvents_cancel (this : EventLoop) (event : Handler) :
    (this.cancel event).regularEvents =
      if this.regularEvents = some event then this.nexts event else this.regularEvents := by
  have back : ∀ loop : EventLoop, (loop.linkedBack event).regularEvents = loop.regularEvents := by
    intro loop
    unfold linkedBack
    split <;> rfl
  have forth : ∀ loop : EventLoop, (loop.linkedForth event).regularEvents = loop.regularEvents := by
    intro loop
    unfold linkedForth
    split <;> rfl
  rw [cancel_eq, forth, back]
  unfold unheaded
  split <;> rfl

theorem allocated_cancel (this : EventLoop) (event : Handler) :
    (this.cancel event).allocated = this.allocated := by
  rw [cancel_eq]
  unfold linkedForth
  split <;> unfold linkedBack <;> split <;> unfold unheaded <;> split <;> rfl

theorem sameEvents_cancel (this : EventLoop) (event : Handler) :
    SameEvents this (this.cancel event) := by
  rw [cancel_eq]
  unfold linkedForth
  split <;> unfold linkedBack <;> split <;> unfold unheaded <;> split <;> exact ⟨rfl, rfl, rfl⟩

theorem sameEvents_repeat (this : EventLoop) (now : Nat) (interval : Int) :
    SameEvents this (this.repeat_ now interval) := by
  unfold repeat_
  cases this.regularEvents <;> exact ⟨rfl, rfl, rfl⟩

theorem retimed_collectRegular {now fuel : Nat} {this : EventLoop} {start : Option Handler}
    {eventsToRun : List Handler} {nextEventAt : Int} {collected : EventLoop × List Handler × Int}
    (run : collectRegular now fuel this start eventsToRun nextEventAt = some collected) :
    Retimed this collected.1 := by
  induction fuel generalizing this start eventsToRun nextEventAt with
  | zero =>
    cases start with
    | none =>
      obtain rfl := Option.some.inj run
      exact Retimed.refl this
    | some event => cases run
  | succ fuel ih =>
    cases start with
    | none =>
      obtain rfl := Option.some.inj run
      exact Retimed.refl this
    | some event =>
      unfold collectRegular at run
      dsimp only at run
      split at run
      · exact (retimed_setRunTime this event _).trans (ih run)
      · split at run
        · exact ih run
        · exact ih run

theorem retimed_firstSection {this : EventLoop} {now : Nat}
    {collected : EventLoop × List Handler × Int} (run : this.firstSection now = some collected) :
    Retimed this collected.1 := by
  have drained : Retimed this { this with waitLock := 0 } := ⟨⟨rfl, rfl, rfl⟩, rfl, rfl, rfl, rfl⟩
  exact drained.trans (retimed_collectRegular run)

/-- The loop over a finite list ends. It starts events of the list only, and it finds no time for
the next event just where there is none. -/
theorem collectRegular_of_chain (now : Nat) {fuel : Nat} {this : EventLoop}
    {start : Option Handler} {l : List Handler} (chain : Chain this.nexts start l)
    (enough : l.length ≤ fuel) (eventsToRun : List Handler) (nextEventAt : Int) :
    ∃ next due nextEventAt',
      collectRegular now fuel this start eventsToRun nextEventAt =
        some (next, eventsToRun ++ due, nextEventAt') ∧
      (∀ h ∈ due, h ∈ l) ∧ (nextEventAt' = -1 ↔ nextEventAt = -1 ∧ l = []) := by
  induction l generalizing fuel this start eventsToRun nextEventAt with
  | nil =>
    obtain rfl : start = none := chain
    refine ⟨this, [], nextEventAt, ?_, by simp, by simp⟩
    rw [List.append_nil]
    cases fuel <;> rfl
  | cons event l ih =>
    obtain ⟨rfl, chain⟩ := chain
    cases fuel with
    | zero => cases enough
    | succ fuel =>
      have enough : l.length ≤ fuel := Nat.le_of_succ_le_succ enough
      unfold collectRegular
      dsimp only
      split
      · have chain : Chain (this.setRunTime event
            ((this.heap event).nextRunTime + (this.heap event).interval)).nexts
            (this.nexts event) l := by
          rw [(retimed_setRunTime ..).nexts]
          exact chain
        obtain ⟨next, due, at_, run, listed, found⟩ :=
          ih chain enough (eventsToRun ++ [event]) (-2)
        refine ⟨next, event :: due, at_, ?_, ?_, ?_⟩
        · rw [List.append_assoc] at run
          exact run
        · exact List.forall_mem_cons.mpr ⟨List.mem_cons_self, fun h member =>
            List.mem_cons_of_mem event (listed h member)⟩
        · simp [found]
      · have later : ¬ (this.heap event).nextRunTime = -1 := by omega
        have next := ih chain enough eventsToRun
        split
        · obtain ⟨next, due, at_, run, listed, found⟩ := next (this.heap event).nextRunTime
          refine ⟨next, due, at_, run, ?_, by simp [found, later]⟩
          exact fun h member => List.mem_cons_of_mem event (listed h member)
        · rename_i known
          obtain ⟨next, due, at_, run, listed, found⟩ := next nextEventAt
          refine ⟨next, due, at_, run, ?_, ?_⟩
          · exact fun h member => List.mem_cons_of_mem event (listed h member)
          · simp [found, (not_or.mp known).1]

theorem firstSection_of_chain (this : EventLoop) (now : Nat) {l : List Handler}
    (chain : Chain this.nexts this.regularEvents l) (enough : l.length ≤ this.allocated) :
    ∃ next due nextEventAt, this.firstSection now = some (next, due, nextEventAt) ∧
      (∀ h ∈ due, h ∈ l) ∧ (nextEventAt = -1 ↔ l = []) := by
  obtain ⟨next, due, at_, run, listed, found⟩ :=
    @collectRegular_of_chain now _ { this with waitLock := 0 } _ _ chain enough [] (-1)
  exact ⟨next, due, at_, run, listed, found.trans (and_iff_right rfl)⟩

/-- The one-time events are the ones of a list, in front of free places. -/
structure Queued (this : EventLoop) (events : List Event) : Prop where
  oneTimeEvents : ∃ free, this.oneTimeEvents = events.map some ++ List.replicate free none
  oneTimeEventsIdx : this.oneTimeEventsIdx = events.length

theorem Queued.congr {this next : EventLoop} {events : List Event} (queued : this.Queued events)
    (same : SameEvents this next) : next.Queued events where
  oneTimeEvents := by
    rw [same.oneTimeEvents]
    exact queued.oneTimeEvents
  oneTimeEventsIdx := by
    rw [same.oneTimeEventsIdx]
    exact queued.oneTimeEventsIdx

theorem Queued.addEvent {this : EventLoop} {events : List Event} (queued : this.Queued events)
    (event : Event) : (this.addEvent event).Queued (events ++ [event]) := by
  obtain ⟨free, places⟩ := queued.oneTimeEvents
  have length : this.oneTimeEvents.length = events.length + free := by
    rw [places, List.length_append, List.length_map, List.length_replicate]
  constructor
  · unfold EventLoop.addEvent
    rw [queued.oneTimeEventsIdx, length, places]
    cases free with
    | zero =>
      refine ⟨0, ?_⟩
      simp
    | succ free =>
      refine ⟨free, ?_⟩
      simp [List.replicate_succ]
  · unfold EventLoop.addEvent
    rw [List.length_append, queued.oneTimeEventsIdx]
    rfl

theorem pendingEvents_places (events : List Event) (free : Nat) :
    pendingEvents (events.map some ++ List.replicate free none) = events := by
  induction events with
  | nil => cases free <;> rfl
  | cons event events ih => exact congrArg (event :: ·) ih

theorem clearEvents_places (events : List Event) (free : Nat) :
    clearEvents (events.map some ++ List.replicate free none) =
      List.replicate (events.length + free) none := by
  induction events with
  | nil =>
    rw [List.length_nil, Nat.zero_add]
    cases free <;> rfl
  | cons event events ih =>
    rw [List.length_cons, Nat.add_right_comm, List.replicate_succ, ← ih]
    rfl

theorem Queued.pending {this : EventLoop} {events : List Event} (queued : this.Queued events) :
    pendingEvents this.oneTimeEvents = events := by
  obtain ⟨free, places⟩ := queued.oneTimeEvents
  rw [places, pendingEvents_places]

/-- The second critical section takes all of the events out. -/
theorem Queued.second {this : EventLoop} {events : List Event} (queued : this.Queued events) :
    this.secondSection.1.Queued [] := by
  obtain ⟨free, places⟩ := queued.oneTimeEvents
  refine ⟨⟨events.length + free, ?_⟩, rfl⟩
  unfold secondSection
  rw [places, clearEvents_places]
  rfl

end EventLoop

namespace System

/-- The steps by the phases they lead from and to. -/
inductive Stepped (this : System) : Action → System → Prop
  | repeat_ (now : Nat) (interval : Int) : Stepped this (.repeat_ now interval) { this with
      loop := this.loop.repeat_ now interval
      registered := this.loop.allocated :: this.registered }
  | cancel {handler : Handler} (made : handler < this.loop.allocated) :
    Stepped this (.cancel handler) { this with
      loop := this.loop.cancel handler
      registered := this.registered.erase handler }
  | promise : Stepped this .promise { this with loop := this.loop.promise }
  | run : Stepped this .run { this with
      loop := this.loop.run this.added
      added := this.added + 1 }
  | runPromised : Stepped this .runPromised { this with
      loop := this.loop.runPromised this.added
      added := this.added + 1 }
  | first {now : Nat} {collected : EventLoop × List Handler × Int} (outside : this.phase = .idle)
    (run : this.loop.firstSection now = some collected) :
    Stepped this (.first now) { this with
      loop := collected.1
      phase := .regular collected.2.1 collected.2.2 }
  | startRegular {handler : Handler} {eventsToRun : List Handler} {nextEventAt : Int}
    (running : this.phase = .regular (handler :: eventsToRun) nextEventAt) :
    Stepped this .startRegular { this with
      phase := .regular eventsToRun nextEventAt
      started := this.started ++ [handler] }
  | second {nextEventAt : Int} (running : this.phase = .regular [] nextEventAt) :
    Stepped this .second { this with
      loop := this.loop.secondSection.1
      phase := .oneTime this.loop.secondSection.2.1
        (if this.loop.secondSection.2.1 = [] then nextEventAt else -2)
        this.loop.secondSection.2.2 }
  | startOneTime {event : Event} {eventsToRun : List Event} {nextEventAt : Int}
    {hasPromisedEvents : Bool}
    (running : this.phase = .oneTime (event :: eventsToRun) nextEventAt hasPromisedEvents) :
    Stepped this .startOneTime { this with
      phase := .oneTime eventsToRun nextEventAt hasPromisedEvents
      executed := this.executed ++ [event] }
  | finish {nextEventAt : Int} {hasPromisedEvents : Bool}
    (running : this.phase = .oneTime [] nextEventAt hasPromisedEvents) :
    Stepped this .finish { this with phase := decide_ nextEventAt hasPromisedEvents }
  | return_ {nextEventAt : Int} {hasPromisedEvents : Bool}
    (running : this.phase = .oneTime [] nextEventAt hasPromisedEvents) :
    Stepped this .return_ { this with phase := .idle }
  | enter (outside : this.phase = .left) : Stepped this .enter { this with phase := .idle }
  | wake {nextEventAt : Int} {timeout : Bool} {waitLock : Nat}
    (outside : this.phase = .waiting nextEventAt) :
    Stepped this (.wake timeout) { this with
      loop := { this.loop with waitLock }
      phase := .idle }

theorem stepped_of_step {this next : System} {action : Action}
    (step : this.step action = some next) : Stepped this action next := by
  cases action with
  | repeat_ now interval =>
    obtain rfl := Option.some.inj step
    exact .repeat_ now interval
  | cancel handler =>
    unfold System.step at step
    dsimp only at step
    split at step
    · rename_i made
      obtain rfl := Option.some.inj step
      exact .cancel made
    · cases step
  | promise =>
    obtain rfl := Option.some.inj step
    exact .promise
  | run =>
    obtain rfl := Option.some.inj step
    exact .run
  | runPromised =>
    obtain rfl := Option.some.inj step
    exact .runPromised
  | first now =>
    unfold System.step at step
    dsimp only at step
    split at step
    · rename_i outside
      obtain ⟨collected, run, rfl⟩ := Option.map_eq_some_iff.mp step
      exact .first outside run
    · cases step
  | startRegular =>
    unfold System.step at step
    dsimp only at step
    split at step
    · rename_i running
      obtain rfl := Option.some.inj step
      exact .startRegular running
    · cases step
  | second =>
    unfold System.step at step
    dsimp only at step
    split at step
    · rename_i running
      obtain rfl := Option.some.inj step
      exact .second running
    · cases step
  | startOneTime =>
    unfold System.step at step
    dsimp only at step
    split at step
    · rename_i running
      obtain rfl := Option.some.inj step
      exact .startOneTime running
    · cases step
  | finish =>
    unfold System.step at step
    dsimp only at step
    split at step
    · rename_i running
      obtain rfl := Option.some.inj step
      exact .finish running
    · cases step
  | return_ =>
    unfold System.step at step
    dsimp only at step
    split at step
    · rename_i running
      obtain rfl := Option.some.inj step
      exact .return_ running
    · cases step
  | enter =>
    unfold System.step at step
    dsimp only at step
    split at step
    · rename_i outside
      obtain rfl := Option.some.inj step
      exact .enter outside
    · cases step
  | wake timeout =>
    unfold System.step at step
    dsimp only at step
    split at step
    · rename_i nextEventAt outside
      split at step
      · split at step
        · cases step
        · obtain rfl := Option.some.inj step
          exact .wake outside
      · split at step
        · obtain rfl := Option.some.inj step
          exact .wake outside
        · cases step
    · cases step

/-- A state that some steps lead to, each of which is made where the condition holds. -/
def Reaches (condition : System → Action → Prop) : System → System → Prop :=
  Relation.ReflTransGen fun this next =>
    ∃ action, condition this action ∧ this.step action = some next

/-- What each step preserves holds in all of the states behind. -/
theorem Reaches.invariant {condition : System → Action → Prop} {this next : System}
    (reaches : Reaches condition this next) {property : System → Prop} (holds : property this)
    (preserved : ∀ {this action next}, property this → condition this action →
      Stepped this action next → property next) : property next := by
  induction reaches with
  | refl => exact holds
  | tail _ last ih =>
    obtain ⟨action, allowed, step⟩ := last
    exact preserved ih allowed (stepped_of_step step)

end System

end Haxe.Source.Thread
