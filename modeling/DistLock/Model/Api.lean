/-
The public functions of a `DistributedLock` and its packet handler (`DistributedLock.cc`), as
a machine that takes one step at a time.

There is one calling thread.  A step of it is one `setState`, one `isAcquirable` or the start
of one wait; whatever other instances and the network do happens between the steps.  A wait
ends by its timeout, or because its condition variable is notified or wakes spuriously, and a
notification that finds nobody waiting is lost.

A `setState`, a beacon and the handling of a packet are single steps here, and a wait that has been
notified does not return by its timeout.  `DistLock.Beacon` takes the first two apart and lets the
waits return late; an instance with its threads goes through the states of this one
(`Node.inst_run`), but what it sends may be older than its state.  `DistLock.Members.Sections` and
`DistLock.Acquire.Handling` take the handler apart; it has the effect of the single step
unless a test of it is overtaken (`MemberTable.updates_linearize`, `Handling.uninterrupted`).

The durations of the timed waits are not modelled, except for the budget of the long listening
of a query, which the code computes with.  The handler `on_start` belongs to the caller and is
left out.
-/
import DistLock.Model.Lock

namespace DistLock

open Lib (OrdMap)

/-- The condition variables on which the calling thread waits. -/
inductive CondVar
  | listenCv
  | anyCv
  | cv
  | backoffCv
  | startedCv (res : Name)
  deriving DecidableEq

/-- The functions that query a resource. -/
inductive Query
  | isBusy
  | isAny
  | isWaiting
  deriving DecidableEq

/-- What a query answers from the members that `query_lock` returns. -/
def Query.answer : Query → OrdMap UInt32 Member → Bool
  | isBusy, m_list => m_list.entries.any fun e => e.2.state = .acquired
  | isAny, m_list => !m_list.entries.isEmpty
  | isWaiting, m_list =>
    m_list.entries.any fun e =>
      e.2.state = .acquiring ∨ e.2.state = .starting ∨ e.2.state = .idle

/-- The public functions. -/
inductive Call
  | defineResource (res : Name) (count : UInt32)
  | acquire (res : Name)
  | release (res : Name)
  | releaseAll
  | query (q : Query) (res : Name)
  | setAdquireMaxRetry (n : UInt32)
  deriving DecidableEq

/-- Where the thread is inside `adquire_lock`.  The lists hold the resources that a loop over
the resource map has yet to visit; `adquire_lock(res)` runs through the same steps with the one
resource `res`, but has no `start` loop. -/
inductive Pc
  | start (rest : List Name)
  | waitForReady (res : Name) (rest : List Name)
  | loop
  | starting (rest : List Name)
  | listening
  | announcing (rest : List Name)
  | colliding
  | checking (rest : List Name)
  | marking (res : Name) (rest : List Name)
  | resetting (rest : List Name)
  | backoff
  | backingOff
  deriving DecidableEq

/-- Where the thread is inside `query_lock`; `b` is the rest of `long_listen_time`. -/
inductive QueryPc
  | start
  | short
  | shortListening
  | long (b : UInt64)
  | longListening (b : UInt64)
  | longWoken (b : UInt64)
  | collect
  deriving DecidableEq

/-- Where the calling thread is.  Between two calls it knows the last result. -/
inductive Ctl
  | free (result : Option Bool)
  | adquire (scope : Option Name) (retry : UInt32) (pc : Pc)
  | query (q : Query) (res : Name) (pc : QueryPc)
  | releasing (rest : List Name)
  | stopping (res : Name) (rest : List Name)
  deriving DecidableEq

/-- An instance together with the position of its calling thread. -/
structure Inst where
  lock : Lock
  ctl : Ctl
  deriving DecidableEq

/-- What can happen to an instance.  `elapsed n` is the reading of the clock after an
interrupted long listening, `beacon res` one turn of the beacon thread of `res`. -/
inductive Event
  | call (c : Call)
  | run
  | timeout
  | wake
  | elapsed (n : UInt64)
  | beacon (res : Name)
  | deliver (pkt : DLPacket)
  deriving DecidableEq

/-- The public functions are called by the calling thread; everything else happens on its
own. -/
def Event.isCall : Event → Bool
  | .call _ => true
  | _ => false

/-- The resources over which `adquire_lock` loops: the given one, or all. -/
def Lock.targets (L : Lock) : Option Name → List Name
  | some res => [res]
  | none => L.names

/-- The condition of the retry loop. -/
def Lock.mayTry (L : Lock) (retry : UInt32) : Prop := L.retryMax = 0 ∨ retry < L.retryMax

instance (L : Lock) (retry : UInt32) : Decidable (L.mayTry retry) :=
  inferInstanceAs (Decidable (L.retryMax = 0 ∨ retry < L.retryMax))

namespace Inst

/-- A step that assigns the state of one resource. -/
def assign (L : Lock) (res : Name) (s : State) (ctl : Ctl) : Inst × List DLPacket :=
  (⟨(L.setState res s).1, ctl⟩, (L.setState res s).2)

/-- The entry of a public function. -/
def enter (L : Lock) : Call → Inst
  | .defineResource res count => ⟨L.defineResource res count, .free (some true)⟩
  -- `acquire("")` asks for all resources
  | .acquire [] =>
    if L.resources.entries.length = 0 then ⟨L, .free (some false)⟩
    else ⟨L, .adquire none 0 (.start L.names)⟩
  | .acquire res => ⟨L.createResource res, .adquire (some res) 0 .loop⟩
  | .release res => ⟨L, .releasing [res]⟩
  | .releaseAll => ⟨L, .releasing L.names⟩
  | .query q res => ⟨L.createResource res, .query q res .start⟩
  | .setAdquireMaxRetry n => ⟨{ L with retryMax := n }, .free none⟩

/-- A step of `adquire_lock(res)`, for the scope `some res`, or of `adquire_lock()`. -/
def adquireLock (L : Lock) (scope : Option Name) (retry : UInt32) :
    Pc → Option (Inst × List DLPacket)
  -- the loop before the retry loop, which only `adquire_lock()` has
  | .start (res :: rest) =>
    some (assign L res .starting (.adquire scope retry (.waitForReady res rest)))
  | .start [] => some (⟨L, .adquire scope retry .loop⟩, [])
  | .loop =>
    if L.mayTry retry then some (⟨L, .adquire scope retry (.starting (L.targets scope))⟩, [])
    else some (⟨L, .free (some false)⟩, [])
  | .starting (res :: rest) =>
    some (assign L res .starting (.adquire scope retry (.starting rest)))
  | .starting [] => some (⟨L, .adquire scope retry .listening⟩, [])
  | .announcing (res :: rest) =>
    some (assign L res .acquiring (.adquire scope retry (.announcing rest)))
  | .announcing [] => some (⟨L, .adquire scope retry .colliding⟩, [])
  -- the first resource that is full ends the loop; those before it have been assigned `ACQUIRED`
  | .checking (res :: rest) =>
    if L.isAcquirable res then some (⟨L, .adquire scope retry (.marking res rest)⟩, [])
    else some (⟨L, .adquire scope retry (.resetting (L.targets scope))⟩, [])
  | .checking [] => some (⟨L, .free (some true)⟩, [])
  | .marking res rest =>
    some (assign L res .acquired (.adquire scope retry (.checking rest)))
  | .resetting (res :: rest) =>
    some (⟨(L.reset res).1, .adquire scope retry (.resetting rest)⟩, (L.reset res).2)
  -- `retry` counts the passes that got past the listening
  | .resetting [] => some (⟨L, .adquire scope (retry + 1) .backoff⟩, [])
  | .backoff => some (⟨L, .adquire scope retry .backingOff⟩, [])
  -- the waits end by `onTimeout` or `onWake`
  | .waitForReady _ _ | .listening | .colliding | .backingOff => none

/-- A step of `query_lock` and of the function that called it. -/
def queryLock (L : Lock) (q : Query) (res : Name) : QueryPc → Option (Inst × List DLPacket)
  | .start => some (assign L res .querying (.query q res .short))
  | .short => some (⟨L, .query q res .shortListening⟩, [])
  | .long b =>
    if b > 0 then some (⟨L, .query q res (.longListening b)⟩, [])
    else some (⟨L, .query q res .collect⟩, [])
  | .collect =>
    some (⟨L, .free ((L.getResource res).map fun R => q.answer R.members)⟩, [])
  | .shortListening | .longListening _ | .longWoken _ => none

/-- The calling thread takes its next step, unless it waits. -/
def run (I : Inst) : Option (Inst × List DLPacket) :=
  match I.ctl with
  | .free _ => none
  | .adquire scope retry pc => adquireLock I.lock scope retry pc
  | .query q res pc => queryLock I.lock q res pc
  | .releasing (res :: rest) => some (assign I.lock res .released (.stopping res rest))
  | .releasing [] => some (⟨I.lock, .free (some true)⟩, [])
  | .stopping res rest => some (⟨I.lock.stop res, .releasing rest⟩, [])

/-- The condition variable on which the calling thread waits. -/
def waitsOn (I : Inst) : Option CondVar :=
  match I.ctl with
  | .adquire _ _ (.waitForReady res _) => some (.startedCv res)
  | .adquire _ _ .listening => some .listenCv
  | .adquire _ _ .colliding => some .cv
  | .adquire _ _ .backingOff => some .backoffCv
  | .query _ _ .shortListening => some .anyCv
  | .query _ _ (.longListening _) => some .anyCv
  | _ => none

/-- A timed wait runs into its timeout. -/
def onTimeout (I : Inst) : Option Inst :=
  match I.ctl with
  | .adquire scope retry .listening =>
    some { I with ctl := .adquire scope retry (.announcing (I.lock.targets scope)) }
  | .adquire scope retry .colliding =>
    some { I with ctl := .adquire scope retry (.checking (I.lock.targets scope)) }
  | .adquire scope retry .backingOff => some { I with ctl := .adquire scope retry .loop }
  | .query q res .shortListening => some { I with ctl := .query q res .collect }
  | .query q res (.longListening _) => some { I with ctl := .query q res .collect }
  | _ => none

/-- A wait ends without a timeout. -/
def onWake (I : Inst) : Option Inst :=
  match I.ctl with
  | .adquire scope retry (.waitForReady _ rest) =>
    some { I with ctl := .adquire scope retry (.start rest) }
  -- an attempt has been heard: backoff without a reset, and the pass is not counted
  | .adquire scope retry .listening => some { I with ctl := .adquire scope retry .backoff }
  | .adquire scope retry .colliding =>
    some { I with ctl := .adquire scope retry (.resetting (I.lock.targets scope)) }
  | .adquire scope retry .backingOff => some { I with ctl := .adquire scope retry .loop }
  -- the budget of the long listening
  | .query q res .shortListening =>
    some { I with ctl := .query q res (.long (I.lock.beaconTime * 2 * maxBackoff)) }
  | .query q res (.longListening b) => some { I with ctl := .query q res (.longWoken b) }
  | _ => none

/-- The clock is read after an interrupted long listening.  The code subtracts in floating
point; a clock that has run past the budget would make the difference negative, and converting
it back to an unsigned number is undefined. -/
def onElapsed (I : Inst) (n : UInt64) : Option Inst :=
  match I.ctl with
  | .query q res (.longWoken b) =>
    if n ≤ b then some { I with ctl := .query q res (.long (b - n)) } else none
  | _ => none

/-- `notify_one`, which only reaches a thread that is waiting. -/
def notify (I : Inst) (c : CondVar) : Inst :=
  if I.waitsOn = some c then I.onWake.getD I else I

/-- The resource for which a packet is meant: none for the packets of the instance itself. -/
def addressee (I : Inst) (pkt : DLPacket) : Option Resource :=
  if pkt.memberId = I.lock.id then none else I.lock.getResource pkt.resource

/-- The part of `actionPerformed` that updates the member table. -/
def record (I : Inst) (R : Resource) (pkt : DLPacket) : Inst :=
  if R.state = .idle then I
  else
    let update := fun R : Resource =>
      R.updateMember pkt.memberId (State.ofByte pkt.state) pkt.count
    { I with lock := I.lock.modify pkt.resource update }

/-- `actionPerformed`. -/
def actionPerformed (I : Inst) (pkt : DLPacket) : Inst :=
  match I.addressee pkt with
  | none => I
  | some R =>
    let I := (I.record R pkt).notify .anyCv
    if State.ofByte pkt.state = .acquiring then
      let I := I.notify .listenCv
      -- the update of the table has not changed the state
      if R.state = .acquiring ∨ R.state = .acquired then I.notify .cv else I
    else I

/-- What the beacon thread of a resource sends in one turn. -/
def beaconOf (I : Inst) (res : Name) : Option DLPacket :=
  (I.lock.getResource res).bind fun R =>
    if R.running ∧ R.state ≠ .idle then some (R.beacon I.lock.id) else none

/-- One step of an instance, with the packets that it broadcasts.  The beacon reads the state and
sends in one step, and so does `setState`; a packet is handled in one step. -/
def step (I : Inst) : Event → Option (Inst × List DLPacket)
  | .call c =>
    match I.ctl with
    | .free _ => some (enter I.lock c, [])
    | _ => none
  | .run => I.run
  | .timeout => I.onTimeout.map fun I' => (I', [])
  | .wake => I.onWake.map fun I' => (I', [])
  | .elapsed n => (I.onElapsed n).map fun I' => (I', [])
  | .beacon res => (I.beaconOf res).map fun p => (I, [p])
  | .deliver pkt => some (I.actionPerformed pkt, [])

/-- One step of an instance, with everything that it has broadcast so far. -/
def trace (s : Inst × List DLPacket) (e : Event) : Option (Inst × List DLPacket) :=
  (s.1.step e).map fun s' => (s'.1, s.2 ++ s'.2)

end Inst
end DistLock
