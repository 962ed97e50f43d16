import Mathlib.Logic.Function.Basic

/-!
# The event loop of a thread

`sys.thread.EventLoop`. The calls are made by other threads or by callbacks, each in one step under
the mutex; a pass of `__progress` takes its two critical sections and starts one callback after
another. Times are integers, and what `Sys.time` returns is never negative.
-/

namespace Haxe.Source.Thread

/-- A `RegularEvent`, which stands for its callback too. -/
abbrev Handler := Nat

/-- A one-time event, by the number of those that were added before. -/
abbrev Event := Nat

/-- `RegularEvent` -/
structure RegularEvent where
  nextRunTime : Int
  interval : Int
  next : Option Handler
  previous : Option Handler
  deriving DecidableEq, Repr

/-- `EventLoop`, with the events that were made. -/
structure EventLoop where
  heap : Handler → RegularEvent
  allocated : Nat
  regularEvents : Option Handler
  oneTimeEvents : List (Option Event)
  oneTimeEventsIdx : Nat
  promisedEventsCount : Int
  waitLock : Nat

namespace EventLoop

def create : EventLoop := ⟨fun _ => ⟨0, 0, none, none⟩, 0, none, [], 0, 0, 0⟩

/-- `e.previous = previous` -/
def setPrevious (this : EventLoop) (e : Handler) (previous : Option Handler) : EventLoop :=
  { this with heap := Function.update this.heap e { this.heap e with previous } }

/-- `e.next = next` -/
def setNext (this : EventLoop) (e : Handler) (next : Option Handler) : EventLoop :=
  { this with heap := Function.update this.heap e { this.heap e with next } }

/-- `e.nextRunTime = nextRunTime` -/
@[grind =] def setRunTime (this : EventLoop) (e : Handler) (nextRunTime : Int) : EventLoop :=
  { this with heap := Function.update this.heap e { this.heap e with nextRunTime } }

/-- `repeat` at a time. The handler is the number of the events that were made before. -/
@[grind =] def repeat_ (this : EventLoop) (now : Nat) (interval : Int) : EventLoop :=
  let event := this.allocated
  let made := { this with
    heap := Function.update this.heap event ⟨now + interval, interval, this.regularEvents, none⟩
    allocated := event + 1 }
  let linked := match this.regularEvents with
    | none => made
    | some current => made.setPrevious current (some event)
  { linked with regularEvents := some event, waitLock := this.waitLock + 1 }

def cancel (this : EventLoop) (event : Handler) : EventLoop :=
  let this := if this.regularEvents = some event then
    { this with regularEvents := (this.heap event).next } else this
  let this := match (this.heap event).next with
    | none => this
    | some e => this.setPrevious e (this.heap event).previous
  match (this.heap event).previous with
  | none => this
  | some e => this.setNext e (this.heap event).next

def promise (this : EventLoop) : EventLoop :=
  { this with promisedEventsCount := this.promisedEventsCount + 1 }

/-- `oneTimeEvents[oneTimeEventsIdx++] = event` -/
@[grind =] def addEvent (this : EventLoop) (event : Event) : EventLoop :=
  { this with
    oneTimeEvents := if this.oneTimeEventsIdx < this.oneTimeEvents.length then
        this.oneTimeEvents.set this.oneTimeEventsIdx (some event)
      else this.oneTimeEvents ++
        List.replicate (this.oneTimeEventsIdx - this.oneTimeEvents.length) none ++ [some event]
    oneTimeEventsIdx := this.oneTimeEventsIdx + 1
    waitLock := this.waitLock + 1 }

@[grind =] def run (this : EventLoop) (event : Event) : EventLoop := this.addEvent event

def runPromised (this : EventLoop) (event : Event) : EventLoop :=
  { this.addEvent event with promisedEventsCount := this.promisedEventsCount - 1 }

/-- The loop over the regular events: the ones to run, and `nextEventAt`. It does not end where
there is no fuel. -/
@[grind =] def collectRegular (now : Nat) : Nat → EventLoop → Option Handler → List Handler → Int →
    Option (EventLoop × List Handler × Int)
  | _, this, none, eventsToRun, nextEventAt => some (this, eventsToRun, nextEventAt)
  | 0, _, some _, _, _ => none
  | fuel + 1, this, some current, eventsToRun, nextEventAt =>
    let event := this.heap current
    if event.nextRunTime ≤ now then
      collectRegular now fuel (this.setRunTime current (event.nextRunTime + event.interval))
        event.next (eventsToRun ++ [current]) (-2)
    else if nextEventAt = -1 ∨ event.nextRunTime < nextEventAt then
      collectRegular now fuel this event.next eventsToRun event.nextRunTime
    else collectRegular now fuel this event.next eventsToRun nextEventAt

/-- The first critical section. No list is longer than the number of events that were made. -/
def firstSection (this : EventLoop) (now : Nat) : Option (EventLoop × List Handler × Int) :=
  collectRegular now this.allocated { this with waitLock := 0 } this.regularEvents [] (-1)

/-- The one-time events in front of the first `null`. -/
def pendingEvents : List (Option Event) → List Event
  | some event :: events => event :: pendingEvents events
  | _ => []

/-- The array behind the loop that collects the one-time events. -/
def clearEvents : List (Option Event) → List (Option Event)
  | some _ :: events => none :: clearEvents events
  | events => events

/-- The second critical section: the events to run, and `hasPromisedEvents`. -/
def secondSection (this : EventLoop) : EventLoop × List Event × Bool :=
  ({ this with oneTimeEvents := clearEvents this.oneTimeEvents, oneTimeEventsIdx := 0 },
    pendingEvents this.oneTimeEvents, this.promisedEventsCount > 0)

end EventLoop

/-- Where the thread of the loop is. -/
inductive Phase where
  /-- in front of `__progress`, or outside of `loop` -/
  | idle
  /-- behind the first critical section, with the callbacks that are still to run -/
  | regular (eventsToRun : List Handler) (nextEventAt : Int)
  /-- behind the second one -/
  | oneTime (eventsToRun : List Event) (nextEventAt : Int) (hasPromisedEvents : Bool)
  | waiting (nextEventAt : Int)
  /-- behind the `break` -/
  | left
  deriving DecidableEq, Repr

/-- The loop with its thread, and what happened up to here: how many one-time events were added,
which callbacks were started, and which handlers are registered and not cancelled. -/
structure System where
  loop : EventLoop
  phase : Phase
  added : Nat
  executed : List Event
  started : List Handler
  registered : List Handler

inductive Action where
  | repeat_ (now : Nat) (interval : Int)
  | cancel (handler : Handler)
  | promise
  | run
  | runPromised
  /-- the first critical section of a pass -/
  | first (now : Nat)
  | startRegular
  /-- the second critical section -/
  | second
  | startOneTime
  /-- the end of a pass, with the decision of `loop` -/
  | finish
  /-- the end of a pass of `progress` -/
  | return_
  /-- another call of `loop` or of `progress` -/
  | enter
  /-- the end of a wait, by a release or by the timeout -/
  | wake (timeout : Bool)
  deriving DecidableEq, Repr

namespace System

def create : System := ⟨EventLoop.create, .idle, 0, [], [], []⟩

/-- What `loop` does with the result of `__progress`. -/
def decide_ (nextEventAt : Int) (anyTime : Bool) : Phase :=
  if nextEventAt = -2 then .idle
  else if nextEventAt = -1 ∧ anyTime = false then .left
  else .waiting nextEventAt

/-- One step, where it is possible. A cancelled handler has been made before. -/
@[grind =] def step (this : System) : Action → Option System
  | .repeat_ now interval => some { this with
      loop := this.loop.repeat_ now interval
      registered := this.loop.allocated :: this.registered }
  | .cancel handler =>
    if handler < this.loop.allocated then some { this with
      loop := this.loop.cancel handler
      registered := this.registered.erase handler }
    else none
  | .promise => some { this with loop := this.loop.promise }
  | .run => some { this with loop := this.loop.run this.added, added := this.added + 1 }
  | .runPromised => some { this with
      loop := this.loop.runPromised this.added
      added := this.added + 1 }
  | .first now => match this.phase with
    | .idle => (this.loop.firstSection now).map fun collected => { this with
        loop := collected.1
        phase := .regular collected.2.1 collected.2.2 }
    | _ => none
  | .startRegular => match this.phase with
    | .regular (handler :: eventsToRun) nextEventAt => some { this with
        phase := .regular eventsToRun nextEventAt
        started := this.started ++ [handler] }
    | _ => none
  | .second => match this.phase with
    | .regular [] nextEventAt =>
      let collected := this.loop.secondSection
      some { this with
        loop := collected.1
        phase := .oneTime collected.2.1
          (if collected.2.1 = [] then nextEventAt else -2) collected.2.2 }
    | _ => none
  | .startOneTime => match this.phase with
    | .oneTime (event :: eventsToRun) nextEventAt hasPromisedEvents => some { this with
        phase := .oneTime eventsToRun nextEventAt hasPromisedEvents
        executed := this.executed ++ [event] }
    | _ => none
  | .finish => match this.phase with
    | .oneTime [] nextEventAt hasPromisedEvents =>
      some { this with phase := decide_ nextEventAt hasPromisedEvents }
    | _ => none
  | .return_ => match this.phase with
    | .oneTime [] _ _ => some { this with phase := .idle }
    | _ => none
  | .enter => match this.phase with
    | .left => some { this with phase := .idle }
    | _ => none
  | .wake timeout => match this.phase with
    | .waiting nextEventAt =>
      if timeout then if nextEventAt = -1 then none else some { this with phase := .idle }
      else if 0 < this.loop.waitLock then some { this with
        loop := { this.loop with waitLock := this.loop.waitLock - 1 }
        phase := .idle }
      else none
    | _ => none

/-- Any steps in a row. -/
def steps (this : System) : List Action → Option System
  | [] => some this
  | action :: actions => (this.step action).bind fun next => next.steps actions

end System

end Haxe.Source.Thread
