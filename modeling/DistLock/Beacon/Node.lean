/-
An instance with the threads of its resources (`DistributedLock.h`, `DistributedLock.cc`).

The machine of `DistLock.Model.Api` assigns and sends a state in one step, and so does its beacon
thread.  Here the two threads of each resource (`DistLock.Beacon.Threads`, with the notification
of `started_cv` from `DistLock.Beacon.Ready`) run beside the instance: `setState`, `reset` and
`stop` take their steps one by one, between which the beacon threads build and send packets of
their own, packets arrive, and `waitForReady` waits for the beacon thread.  A timed wait that has
been notified may return as if it had not, if its time is over when the thread runs again.

A packet is still handled in one step.  Whatever the threads do, the instance goes through the
states of the machine of `DistLock.Model.Api` (`Node.inst_run`).
-/
import DistLock.Beacon.Order
import DistLock.Beacon.Ready
import DistLock.Members.Log

namespace DistLock

open Lib (Run)

/-- The operation on the threads of the resource in which the action is carried out.  `stop` is the
second half of a release. -/
def Inst.Action.op : Inst.Action → Option Op
  | .setState .released => some .release
  | .setState s => some (.setState s)
  | .reset => some .reset
  | .stop => none

/-- Between two operations. -/
def ApiPc.isFree : ApiPc → Bool
  | free _ => true
  | _ => false

/-- An instance and the threads of its resources.  `op` is the resource on which the calling thread
is in `setState`, `reset` or `stop`; `late` is where a thread whose timed wait has been notified
goes on if the wait returns by its timeout nevertheless. -/
structure Node where
  inst : Inst
  ready : Name → Readiness
  op : Option Name
  late : Option Ctl

/-- What can happen: a step of the calling thread outside of the operations; the first step of an
operation, which stores the state, or a later one; a step that concerns the beacon thread of `res`
or the wait for it; the arrival of a packet; the late return of a wait. -/
inductive NodeEvent
  | own (e : Event)
  | store
  | api
  | ready (res : Name) (e : ReadyEvent)
  | deliver (pkt : DLPacket)
  | late
  deriving DecidableEq

/-- As for the instance. -/
def NodeEvent.isCall : NodeEvent → Bool
  | .own e => e.isCall
  | _ => false

namespace Node

/-- A new instance. -/
def new (id : UInt32) (beaconTime : UInt64) : Node where
  inst := ⟨Lock.new id beaconTime, .free none⟩
  ready := Readiness.new id
  op := none
  late := none

/-- The steps of the calling thread that are not part of an operation.  The release of a resource
that does not exist is none, and `waitForReady` has steps of its own. -/
def takes (N : Node) : Event → Bool
  | .call _ | .timeout | .elapsed _ => true
  | .run =>
    match N.inst.next with
    | some (res, .setState .released) | some (res, .stop) => (N.inst.lock.getResource res).isNone
    | some _ => false
    | none => true
  | .wake =>
    match N.inst.waitsOn with
    | some (.startedCv _) => false
    | _ => true
  | .beacon _ | .deliver _ => false

/-- `setCount` of `defineResource`; the other fields of a new resource are as they are. -/
def recount (N : Node) : Event → Name → Readiness
  | .call c => fun res =>
    if Inst.creates c = some res then
      { N.ready res with threads :=
        { (N.ready res).threads with res := Inst.recount c (N.ready res).threads.res } }
    else N.ready res
  | _ => N.ready

/-- The beacon thread belongs to a resource that exists, and the calling thread waits for it in
`waitForReady`. -/
def permits (N : Node) (res : Name) : ReadyEvent → Bool
  | .tick e => !e.ofApi && (N.inst.lock.getResource res).isSome
  | .notify => (N.inst.lock.getResource res).isSome
  | .enter | .sleep | .spurious => N.op = none && decide (N.inst.waitsOn = some (.startedCv res))

/-- What the beacon thread sends. -/
def sends (N : Node) (res : Name) : ReadyEvent → List DLPacket
  | .tick .beacon => (N.ready res).threads.beacon.held.toList.map Prod.snd
  | _ => []

/-- The first step of an operation: the instance takes its step. -/
def store (N : Node) : Option Node :=
  if N.op.isSome then none
  else
    N.inst.next.bind fun (res, a) =>
      if (N.inst.lock.getResource res).isNone then none
      else
        a.op.bind fun op =>
        ((N.ready res).step (.tick (.call op))).bind fun R =>
        (R.step (.tick .api)).bind fun R' =>
        N.inst.run.map fun s =>
          { inst := s.1, ready := Function.update N.ready res R', op := some res, late := none }

/-- The last step of a release completes the `stop` of the instance. -/
def stopped (N : Node) (res : Name) : Inst :=
  match N.inst.next, N.inst.run with
  | some (res', .stop), some s => if res' = res then s.1 else N.inst
  | _, _ => N.inst

/-- A later step of an operation. -/
def api (N : Node) : Option (Node × List DLPacket) :=
  N.op.bind fun res =>
    ((N.ready res).step (.tick .api)).map fun R =>
      ({ N with
        inst := if R.threads.api.isFree then N.stopped res else N.inst
        ready := Function.update N.ready res R
        op := if R.threads.api.isFree then none else some res
        late := none },
        (N.ready res).threads.api.held.toList.map Prod.snd)

/-- The wait of `waitForReady` ends when the notification reaches it, or without one. -/
def wakes (N : Node) (res : Name) (R : Readiness) : Bool :=
  (N.ready res).wait = .asleep && R.wait = .outside

/-- After the arrival of a packet. -/
def hear (N : Node) (pkt : DLPacket) : Node :=
  { N with
    inst := N.inst.actionPerformed pkt
    late :=
      if (N.inst.actionPerformed pkt).ctl = N.inst.ctl then N.late
      else N.inst.onTimeout.map Inst.ctl }

/-- One step, with the packets that it sends. -/
def step (N : Node) : NodeEvent → Option (Node × List DLPacket)
  | .own e =>
    if N.op.isSome || !N.takes e then none
    else (N.inst.step e).map fun s =>
      ({ N with inst := s.1, ready := N.recount e, late := none }, [])
  | .store => N.store.map fun N' => (N', [])
  | .api => N.api
  | .ready res e =>
    if N.permits res e then
      ((N.ready res).step e).map fun R =>
        ({ N with
          inst := if N.wakes res R then N.inst.onWake.getD N.inst else N.inst
          ready := Function.update N.ready res R
          late := if N.wakes res R then none else N.late }, N.sends res e)
    else none
  | .deliver pkt => some (N.hear pkt, [])
  | .late => N.late.map fun ctl => ({ N with inst := ⟨N.inst.lock, ctl⟩, late := none }, [])

/-! ### What a step can do -/

section Does

variable {N N' : Node} {e : NodeEvent} {sent : List DLPacket}

/-- All steps. -/
inductive Does (N : Node) : NodeEvent → Node → List DLPacket → Prop
  | own {e : Event} {I : Inst} {l : List DLPacket} (hop : N.op = none) (ht : N.takes e = true)
    (hs : N.inst.step e = some (I, l)) :
    Does N (.own e) { N with inst := I, ready := N.recount e, late := none } []
  | store {res : Name} {a : Inst.Action} {op : Op} {R R' : Readiness} {I : Inst}
    {l : List DLPacket} (hop : N.op = none) (hn : N.inst.next = some (res, a))
    (hmem : res ∈ N.inst.lock.names) (ha : a.op = some op)
    (hR : (N.ready res).step (.tick (.call op)) = some R) (hR' : R.step (.tick .api) = some R')
    (hr : N.inst.run = some (I, l)) :
    Does N .store
      { inst := I, ready := Function.update N.ready res R', op := some res, late := none } []
  | api {res : Name} {R : Readiness} (hop : N.op = some res)
    (hR : (N.ready res).step (.tick .api) = some R) :
    Does N .api { N with
      inst := if R.threads.api.isFree then N.stopped res else N.inst
      ready := Function.update N.ready res R
      op := if R.threads.api.isFree then none else some res
      late := none }
      ((N.ready res).threads.api.held.toList.map Prod.snd)
  | ready {res : Name} {e : ReadyEvent} {R : Readiness} (hp : N.permits res e = true)
    (hR : (N.ready res).step e = some R) :
    Does N (.ready res e) { N with
      inst := if N.wakes res R then N.inst.onWake.getD N.inst else N.inst
      ready := Function.update N.ready res R
      late := if N.wakes res R then none else N.late } (N.sends res e)
  | deliver (pkt : DLPacket) : Does N (.deliver pkt) (N.hear pkt) []
  | late {ctl : Ctl} (h : N.late = some ctl) :
    Does N .late { N with inst := ⟨N.inst.lock, ctl⟩, late := none } []

theorem does_of_step (hs : N.step e = some (N', sent)) : N.Does e N' sent := by
  cases e with
  | own e =>
    simp only [step] at hs
    split_ifs at hs with hif
    obtain ⟨⟨I, l⟩, hI, heq⟩ := Option.map_eq_some_iff.mp hs
    obtain ⟨rfl, rfl⟩ := Prod.mk.inj heq
    simp only [Bool.or_eq_true, not_or, Bool.not_eq_true, Bool.not_eq_true',
      Option.isSome_eq_false_iff, Option.isNone_iff_eq_none, Bool.not_eq_false] at hif
    exact .own hif.1 hif.2 hI
  | store =>
    obtain ⟨N₁, hstore, heq⟩ := Option.map_eq_some_iff.mp hs
    obtain ⟨rfl, rfl⟩ := Prod.mk.inj heq
    rw [store] at hstore
    split_ifs at hstore with hop
    obtain ⟨⟨res, a⟩, hn, hstore⟩ := Option.bind_eq_some_iff.mp hstore
    dsimp only at hstore
    split_ifs at hstore with hmem
    obtain ⟨op, ha, hstore⟩ := Option.bind_eq_some_iff.mp hstore
    obtain ⟨R, hR, hstore⟩ := Option.bind_eq_some_iff.mp hstore
    obtain ⟨R', hR', hstore⟩ := Option.bind_eq_some_iff.mp hstore
    obtain ⟨⟨I, l⟩, hr, rfl⟩ := Option.map_eq_some_iff.mp hstore
    exact .store (by simpa using hop) hn (by rwa [Lock.isNone_getResource, not_not] at hmem) ha hR
      hR' hr
  | api =>
    obtain ⟨res, hop, hs⟩ := Option.bind_eq_some_iff.mp hs
    obtain ⟨R, hR, heq⟩ := Option.map_eq_some_iff.mp hs
    obtain ⟨rfl, rfl⟩ := Prod.mk.inj heq
    exact .api hop hR
  | ready res e =>
    simp only [step] at hs
    split_ifs at hs with hp
    obtain ⟨R, hR, heq⟩ := Option.map_eq_some_iff.mp hs
    obtain ⟨rfl, rfl⟩ := Prod.mk.inj heq
    exact .ready hp hR
  | deliver pkt =>
    obtain ⟨rfl, rfl⟩ := Prod.mk.inj (Option.some.inj hs)
    exact .deliver pkt
  | late =>
    obtain ⟨ctl, h, heq⟩ := Option.map_eq_some_iff.mp hs
    obtain ⟨rfl, rfl⟩ := Prod.mk.inj heq
    exact .late h

/-- The end of a release is a step of the instance. -/
lemma stopped_cases (N : Node) (res : Name) :
    N.stopped res = N.inst ∨ N.inst.next = some (res, .stop) ∧
      ∃ l, N.inst.run = some (N.stopped res, l) := by
  rw [stopped]
  split
  · next res' s hn hr =>
    split_ifs with hres
    · exact .inr ⟨hres ▸ hn, s.2, hr⟩
    · exact .inl rfl
  · exact .inl rfl

end Does

/-! ### The instance of a node -/

/-- One step, without the packets that it sends. -/
def proceed (N : Node) (e : NodeEvent) : Option Node := (N.step e).map Prod.fst

lemma proceed_eq {N N' : Node} {e : NodeEvent} (h : N.proceed e = some N') :
    ∃ sent, N.Does e N' sent := by
  obtain ⟨⟨N', sent⟩, hs, rfl⟩ := Option.map_eq_some_iff.mp h
  exact ⟨sent, does_of_step hs⟩

end Node

/-- The calls, and the packets that arrive. -/
def Event.outer : Event → Bool
  | .call _ | .deliver _ => true
  | _ => false

/-- The same for an instance with its threads. -/
def NodeEvent.outer : NodeEvent → Option Event
  | .own (.call c) => some (.call c)
  | .deliver pkt => some (.deliver pkt)
  | _ => none

namespace Node

variable {N N' : Node} {e : NodeEvent} {es : List NodeEvent} {I : Inst} {id : UInt32}
  {beaconTime : UInt64}

/-- The instance may get into the state with these calls and packets. -/
def Leads (I₀ : Inst) (out : List Event) (I : Inst) : Prop :=
  ∃ es, Run Inst.proceed (fun _ _ => True) I₀ es I ∧ es.filter Event.outer = out

lemma Leads.step {I₀ I I' : Inst} {out : List Event} {e : Event} {sent : List DLPacket}
    (h : Leads I₀ out I) (hs : I.step e = some (I', sent)) :
    Leads I₀ (out ++ [e].filter Event.outer) I' := by
  obtain ⟨es, hrun, rfl⟩ := h
  have hp : I.proceed e = some I' := by rw [Inst.proceed, hs]; rfl
  exact ⟨es ++ [e], hrun.append (.cons trivial hp (.nil _)), List.filter_append ..⟩

/-- A step of the instance that has not been caused from outside. -/
lemma Leads.inner {I₀ I I' : Inst} {out : List Event} {e : Event} {sent : List DLPacket}
    (h : Leads I₀ out I) (he : e.outer = false) (hs : I.step e = some (I', sent)) :
    Leads I₀ out I' := by
  have hstep := h.step hs
  rwa [List.filter_cons_of_neg (by simp [he]), List.filter_nil, List.append_nil] at hstep

/-- A thread that does not wait is not woken up. -/
lemma actionPerformed_of_busy {pkt : DLPacket} (h : I.waitsOn = none) :
    I.actionPerformed pkt = ⟨(I.hear pkt).lock, I.ctl⟩ := by
  have hctl : (I.hear pkt).ctl = I.ctl := Inst.hear_ctl
  rcases I.actionPerformed_cases pkt with heq | hwake
  · rw [heq, ← hctl]
  · refine absurd ?_ (Inst.waitsOn_ne_none_of_onWake hwake)
    rw [Inst.waitsOn] at h ⊢
    rw [hctl]
    exact h

/-- After its timeout a thread does not wait. -/
lemma waitsOn_of_onTimeout {I' : Inst} (h : I.onTimeout = some I') : I'.waitsOn = none := by
  rw [Inst.onTimeout] at h
  split at h <;> simp only [Option.some.injEq, reduceCtorEq] at h <;> subst h <;> rfl

/-- The end of an operation is a step of the instance, or it does not concern the instance. -/
lemma Leads.stopped {I₀ : Inst} {out : List Event} {res : Name} (h : Leads I₀ out N.inst) :
    Leads I₀ out (N.stopped res) := by
  rcases N.stopped_cases res with heq | ⟨-, l, hr⟩
  · rw [heq]
    exact h
  · exact h.inner rfl (e := .run) hr

/-- So is the end of `waitForReady`. -/
lemma Leads.woken {I₀ : Inst} {out : List Event} (h : Leads I₀ out N.inst) :
    Leads I₀ out (N.inst.onWake.getD N.inst) := by
  cases hw : N.inst.onWake with
  | none => exact h
  | some I =>
    have hs : N.inst.step .wake = some (I, []) := by rw [Inst.step, hw]; rfl
    exact h.inner rfl hs

/-- Where a wait may still return to is reached by returning before the notification. -/
lemma Leads.late {I₀ : Inst} {out : List Event} {pkt : DLPacket}
    (h : Leads I₀ out N.inst)
    (hlate : ∀ ctl, N.late = some ctl → Leads I₀ out ⟨N.inst.lock, ctl⟩ ∧
      (⟨N.inst.lock, ctl⟩ : Inst).waitsOn = none) {ctl : Ctl}
    (hctl : (N.hear pkt).late = some ctl) :
    Leads I₀ (out ++ [.deliver pkt]) ⟨(N.hear pkt).inst.lock, ctl⟩ ∧
      (⟨(N.hear pkt).inst.lock, ctl⟩ : Inst).waitsOn = none := by
  have hlock : (N.hear pkt).inst.lock = (N.inst.hear pkt).lock := Inst.actionPerformed_lock
  -- either way there is a state before the packet in which the thread does not wait
  suffices hbefore : Leads I₀ out ⟨N.inst.lock, ctl⟩ ∧
      (⟨N.inst.lock, ctl⟩ : Inst).waitsOn = none by
    have hheard : (⟨N.inst.lock, ctl⟩ : Inst).actionPerformed pkt =
        ⟨(N.inst.hear pkt).lock, ctl⟩ := by
      rw [actionPerformed_of_busy hbefore.2, Inst.hear_of_ctl]
    rw [hlock]
    refine ⟨?_, hbefore.2⟩
    have hs : (⟨N.inst.lock, ctl⟩ : Inst).step (.deliver pkt) =
        some (⟨(N.inst.hear pkt).lock, ctl⟩, []) := by rw [Inst.step, hheard]
    exact hbefore.1.step hs
  simp only [hear] at hctl
  split_ifs at hctl
  · exact hlate ctl hctl
  · obtain ⟨I, hI, rfl⟩ := Option.map_eq_some_iff.mp hctl
    have hs : N.inst.step .timeout = some (I, []) := by rw [Inst.step, hI]; rfl
    have hsame : (⟨N.inst.lock, I.ctl⟩ : Inst) = I := by rw [← Inst.onTimeout_lock hI]
    rw [hsame]
    exact ⟨h.inner rfl hs, waitsOn_of_onTimeout hI⟩

/-- **An instance with its threads goes through the states of the instance.**  In every run, however
the beacon threads and the operations of the calling thread interleave, the instance is in a
state that the machine without the threads reaches with the same calls and the same packets. -/
theorem inst_run {ok : Node → NodeEvent → Prop} (hrun : Run proceed ok (new id beaconTime) es N) :
    Leads ⟨Lock.new id beaconTime, .free none⟩ (es.filterMap NodeEvent.outer) N.inst := by
  -- a wait that may still return by its timeout might have done so before the notification
  suffices h : Leads ⟨Lock.new id beaconTime, .free none⟩ (es.filterMap NodeEvent.outer) N.inst ∧
      ∀ ctl, N.late = some ctl → Leads ⟨Lock.new id beaconTime, .free none⟩
        (es.filterMap NodeEvent.outer) ⟨N.inst.lock, ctl⟩ ∧
          (⟨N.inst.lock, ctl⟩ : Inst).waitsOn = none from h.1
  induction es using List.reverseRecOn generalizing N with
  | nil =>
    cases hrun
    exact ⟨⟨[], .nil _, rfl⟩, fun ctl h => by cases h⟩
  | append_singleton es e ih =>
    obtain ⟨N₁, hrun₁, hlast⟩ := hrun.append_inv
    cases hlast with
    | cons _ hs hnil =>
      cases hnil
      obtain ⟨hinst, hlate⟩ := ih hrun₁
      obtain ⟨sent, hd⟩ := proceed_eq hs
      rw [List.filterMap_append]
      -- the steps that have not been caused from outside
      have hnil : ∀ {l : List Event}, l ++ [] = l := List.append_nil _
      cases hd with
      | @own e I l hop ht hI =>
        refine ⟨?_, fun ctl h => by cases h⟩
        have hout : [NodeEvent.own e].filterMap NodeEvent.outer = [e].filter Event.outer := by
          cases e with
          | beacon res | deliver pkt => cases ht
          | _ => rfl
        rw [hout]
        exact hinst.step hI
      | store hop hn hmem ha hR hR' hr =>
        rw [show [NodeEvent.store].filterMap NodeEvent.outer = [] from rfl, hnil]
        exact ⟨hinst.inner (e := .run) rfl hr, fun ctl h => by cases h⟩
      | @api res R hop hR =>
        rw [show [NodeEvent.api].filterMap NodeEvent.outer = [] from rfl, hnil]
        refine ⟨?_, fun ctl h => by cases h⟩
        dsimp only
        split_ifs
        · exact hinst.stopped
        · exact hinst
      | @ready res e R hp hR =>
        rw [show [NodeEvent.ready res e].filterMap NodeEvent.outer = [] from rfl, hnil]
        dsimp only
        split_ifs
        · exact ⟨hinst.woken, fun ctl h => by cases h⟩
        · exact ⟨hinst, hlate⟩
      | deliver pkt =>
        have hstep : N₁.inst.step (.deliver pkt) = some ((N₁.hear pkt).inst, []) := rfl
        exact ⟨hinst.step hstep, fun ctl hctl => hinst.late hlate hctl⟩
      | late h =>
        rw [show [NodeEvent.late].filterMap NodeEvent.outer = [] from rfl, hnil]
        exact ⟨(hlate _ h).1, fun ctl h => by cases h⟩

end Node
end DistLock
