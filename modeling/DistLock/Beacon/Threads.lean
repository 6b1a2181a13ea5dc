/-
The two threads of a resource (`DistributedLock.h`, `DistributedLock.cc`).

The beacon thread runs `Resource::run`; the calling thread assigns states and stops the beacon
thread.  `setState`, `sendBeacon`, `stop` and the loop of `run` are taken apart into their
atomic steps: a read or a store of a field, the sending of one packet, the start of a wait, a
notification, a join.  A notification reaches a thread only if it waits at that moment, and a
wait may return without a notification.

The packets are numbered by the assignment whose state they carry, which is only a record of
what happens.  The notification of `started_cv` is for `acquire()` alone and is left out.
-/
import DistLock.Lib.Run
import DistLock.Model.Spec

namespace DistLock

/-- What the calling thread does with the resource. -/
inductive Op
  | setState (s : State)
  | reset
  | release
  deriving DecidableEq

/-- The state that is assigned first. -/
def Op.state : Op → State
  | setState s => s
  | reset => .idle
  | release => .released

/-- Where the beacon thread is in `Resource::run`: at the condition of the loop, at the test of
the state, before and in the wait on `beacon_cv`, before and after the packet of `sendBeacon`
has been built, before and in the wait on `cv`, or behind the loop. -/
inductive BeaconPc
  | head
  | testing
  | parking
  | parked
  | building
  | sending (m : ℕ × DLPacket)
  | resting
  | napping
  | ended
  deriving DecidableEq

/-- Where the calling thread is.  The first four steps are those of `setState`; `reset` goes on
with `clearing`, and `release` with the steps of `stop`, which reads `running`, stores `false`,
notifies `cv` and joins the thread. -/
inductive ApiPc
  | free (last : Option Op)
  | storing (op : Op)
  | building (op : Op)
  | sending (op : Op) (m : ℕ × DLPacket)
  | notifying (op : Op)
  | clearing
  | reading
  | dropping
  | waking
  | joining
  deriving DecidableEq

/-- A call of `setState` is in progress. -/
def ApiPc.InSetState : ApiPc → Prop
  | storing _ | building _ | sending _ _ | notifying _ => True
  | _ => False

/-- A call of `stop` is in progress. -/
def ApiPc.InStop : ApiPc → Prop
  | reading | dropping | waking | joining => True
  | _ => False

/-- The operation whose state has been stored, while its `setState` is in progress. -/
def ApiPc.stored : ApiPc → Option Op
  | building op | sending op _ | notifying op => some op
  | _ => none

/-- The thread goes on after `setState`. -/
def Op.rest : Op → ApiPc
  | setState s => .free (some (setState s))
  | reset => .clearing
  | release => .reading

/-- A resource of the instance `id`, its two threads, the states that have been assigned to it
since its construction, and the packets that have been sent about it. -/
structure Threads where
  id : UInt32
  res : Resource
  beacon : BeaconPc
  api : ApiPc
  assigned : List State
  sent : List (ℕ × DLPacket)
  deriving DecidableEq

/-- A step of the calling thread, which calls or goes on, or of the beacon thread, which goes
on or returns from a wait. -/
inductive Tick
  | call (op : Op)
  | api
  | beacon
  | timeout
  | spurious
  deriving DecidableEq

namespace Threads

/-- `Resource(DistributedLock* p, std::string name)`. -/
def new (id : UInt32) (name : Name) : Threads where
  id := id
  res := Resource.new name
  beacon := .head
  api := .free none
  assigned := []
  sent := []

/-- The packet that `sendBeacon` builds now. -/
def packet (T : Threads) : ℕ × DLPacket := (T.assigned.length, T.res.beacon T.id)

/-- The state after `n` assignments. -/
def stateAt (T : Threads) (n : ℕ) : Option State := (State.idle :: T.assigned)[n]?

/-- A step of `Resource::run`. -/
def runBeacon (T : Threads) : Option Threads :=
  match T.beacon with
  | .head => some { T with beacon := if T.res.running then .testing else .ended }
  | .testing => some { T with beacon := if T.res.state = .idle then .parking else .building }
  | .parking => some { T with beacon := .parked }
  | .building => some { T with beacon := .sending T.packet }
  | .sending m => some { T with beacon := .resting, sent := T.sent ++ [m] }
  | .resting => some { T with beacon := .napping }
  -- `timeout`, a notification or a spurious return ends the waits
  | .parked | .napping | .ended => none

/-- `beacon_cv.notify_all()`. -/
def notifyBeacon (T : Threads) : Threads :=
  if T.beacon = .parked then { T with beacon := .resting } else T

/-- `cv.notify_all()`. -/
def notifyCv (T : Threads) : Threads :=
  if T.beacon = .napping then { T with beacon := .ended } else T

/-- A step of `setState`, `reset` or `stop`. -/
def runApi (T : Threads) : Option Threads :=
  match T.api with
  | .free _ => none
  | .storing op =>
    some { T with
      res := { T.res with state := op.state }
      assigned := T.assigned ++ [op.state]
      api := .building op }
  | .building op => some { T with api := .sending op T.packet }
  | .sending op m => some { T with api := .notifying op, sent := T.sent ++ [m] }
  | .notifying op => some { T.notifyBeacon with api := op.rest }
  | .clearing => some { T with res := T.res.clearMembers, api := .free (some .reset) }
  -- `stop` does nothing if the thread does not run
  | .reading => some { T with api := if T.res.running then .dropping else .free (some .release) }
  | .dropping => some { T with res := { T.res with running := false }, api := .waking }
  | .waking => some { T.notifyCv with api := .joining }
  | .joining => if T.beacon = .ended then some { T with api := .free (some .release) } else none

/-- One step of the two threads. -/
def step (T : Threads) : Tick → Option Threads
  | .call op =>
    match T.api with
    | .free _ => some { T with api := .storing op }
    | _ => none
  | .api => T.runApi
  | .beacon => T.runBeacon
  | .timeout => if T.beacon = .napping then some { T with beacon := .head } else none
  | .spurious =>
    match T.beacon with
    | .parked => some { T with beacon := .resting }
    | .napping => some { T with beacon := .ended }
    | _ => none

variable {T T' : Threads} {e : Tick}

lemma notifyBeacon_eq (T : Threads) :
    T.notifyBeacon = { T with beacon := if T.beacon = .parked then .resting else T.beacon } := by
  rw [notifyBeacon]
  split_ifs <;> rfl

lemma notifyCv_eq (T : Threads) :
    T.notifyCv = { T with beacon := if T.beacon = .napping then .ended else T.beacon } := by
  rw [notifyCv]
  split_ifs <;> rfl

@[simp] lemma notifyBeacon_res (T : Threads) : T.notifyBeacon.res = T.res := by rw [notifyBeacon_eq]

@[simp] lemma notifyBeacon_assigned (T : Threads) : T.notifyBeacon.assigned = T.assigned := by
  rw [notifyBeacon_eq]

@[simp] lemma notifyBeacon_sent (T : Threads) : T.notifyBeacon.sent = T.sent := by
  rw [notifyBeacon_eq]

lemma notifyBeacon_beacon (T : Threads) :
    T.notifyBeacon.beacon = if T.beacon = .parked then .resting else T.beacon := by
  rw [notifyBeacon_eq]

@[simp] lemma notifyCv_res (T : Threads) : T.notifyCv.res = T.res := by rw [notifyCv_eq]

@[simp] lemma notifyCv_assigned (T : Threads) : T.notifyCv.assigned = T.assigned := by
  rw [notifyCv_eq]

@[simp] lemma notifyCv_sent (T : Threads) : T.notifyCv.sent = T.sent := by rw [notifyCv_eq]

lemma notifyCv_beacon (T : Threads) :
    T.notifyCv.beacon = if T.beacon = .napping then .ended else T.beacon := by
  rw [notifyCv_eq]

/-! ### What a step can do -/

/-- The steps in which only the position of the beacon thread changes. -/
inductive Moves (T : Threads) : Tick → BeaconPc → Prop
  | loop (h : T.beacon = .head) (hr : T.res.running = true) : Moves T .beacon .testing
  | leave (h : T.beacon = .head) (hr : T.res.running = false) : Moves T .beacon .ended
  | idle (h : T.beacon = .testing) (hs : T.res.state = .idle) : Moves T .beacon .parking
  | busy (h : T.beacon = .testing) (hs : T.res.state ≠ .idle) : Moves T .beacon .building
  | park (h : T.beacon = .parking) : Moves T .beacon .parked
  | build (h : T.beacon = .building) : Moves T .beacon (.sending T.packet)
  | nap (h : T.beacon = .resting) : Moves T .beacon .napping
  | timeout (h : T.beacon = .napping) : Moves T .timeout .head
  | unpark (h : T.beacon = .parked) : Moves T .spurious .resting
  | abandon (h : T.beacon = .napping) : Moves T .spurious .ended

/-- All steps. -/
inductive Effect (T : Threads) : Tick → Threads → Prop
  | call (op : Op) {last : Option Op} (h : T.api = .free last) :
    Effect T (.call op) { T with api := .storing op }
  | store (op : Op) (h : T.api = .storing op) :
    Effect T .api { T with
      res := { T.res with state := op.state }
      assigned := T.assigned ++ [op.state]
      api := .building op }
  | build (op : Op) (h : T.api = .building op) :
    Effect T .api { T with api := .sending op T.packet }
  | send (op : Op) (m : ℕ × DLPacket) (h : T.api = .sending op m) :
    Effect T .api { T with api := .notifying op, sent := T.sent ++ [m] }
  | notify (op : Op) (h : T.api = .notifying op) :
    Effect T .api { T.notifyBeacon with api := op.rest }
  | clear (h : T.api = .clearing) :
    Effect T .api { T with res := T.res.clearMembers, api := .free (some .reset) }
  | read (h : T.api = .reading) (hr : T.res.running = true) :
    Effect T .api { T with api := .dropping }
  | skip (h : T.api = .reading) (hr : T.res.running = false) :
    Effect T .api { T with api := .free (some .release) }
  | drop (h : T.api = .dropping) :
    Effect T .api { T with res := { T.res with running := false }, api := .waking }
  | wake (h : T.api = .waking) : Effect T .api { T.notifyCv with api := .joining }
  | join (h : T.api = .joining) (hb : T.beacon = .ended) :
    Effect T .api { T with api := .free (some .release) }
  | move {e : Tick} {pc : BeaconPc} (h : T.Moves e pc) : Effect T e { T with beacon := pc }
  | transmit (m : ℕ × DLPacket) (h : T.beacon = .sending m) :
    Effect T .beacon { T with beacon := .resting, sent := T.sent ++ [m] }

lemma effect_beacon (hs : T.runBeacon = some T') : T.Effect .beacon T' := by
  rw [runBeacon] at hs
  split at hs <;> simp only [Option.some.injEq, reduceCtorEq] at hs <;> subst hs
  next h =>
    cases hr : T.res.running with
    | true => exact .move (.loop h hr)
    | false => exact .move (.leave h hr)
  next h =>
    split_ifs with hi
    · exact .move (.idle h hi)
    · exact .move (.busy h hi)
  next h => exact .move (.park h)
  next h => exact .move (.build h)
  next m h => exact .transmit m h
  next h => exact .move (.nap h)

lemma effect_api (hs : T.runApi = some T') : T.Effect .api T' := by
  rw [runApi] at hs
  split at hs
  next => exact absurd hs (by simp)
  next op h => exact Option.some.inj hs ▸ .store op h
  next op h => exact Option.some.inj hs ▸ .build op h
  next op m h => exact Option.some.inj hs ▸ .send op m h
  next op h => exact Option.some.inj hs ▸ .notify op h
  next h => exact Option.some.inj hs ▸ .clear h
  next h =>
    obtain rfl := Option.some.inj hs
    cases hr : T.res.running with
    | true => exact .read h hr
    | false => exact .skip h hr
  next h => exact Option.some.inj hs ▸ .drop h
  next h => exact Option.some.inj hs ▸ .wake h
  next h =>
    split_ifs at hs with hb
    exact Option.some.inj hs ▸ .join h hb

theorem effect_step (hs : T.step e = some T') : T.Effect e T' := by
  cases e with
  | call op =>
    simp only [step] at hs
    split at hs
    next last h => exact Option.some.inj hs ▸ .call op h
    next => exact absurd hs (by simp)
  | api => exact effect_api hs
  | beacon => exact effect_beacon hs
  | timeout =>
    simp only [step] at hs
    split_ifs at hs with h
    exact Option.some.inj hs ▸ .move (.timeout h)
  | spurious =>
    simp only [step] at hs
    split at hs
    next h => exact Option.some.inj hs ▸ .move (.unpark h)
    next h => exact Option.some.inj hs ▸ .move (.abandon h)
    next => exact absurd hs (by simp)

/-! ### What holds under every schedule -/

/-- A thread that has been joined has ended, and `release` leaves the resource `RELEASED`. -/
structure Sound (T : Threads) : Prop where
  state : T.stateAt T.assigned.length = some T.res.state
  stored : ∀ op, T.api.stored = some op → T.res.state = op.state
  stopping : T.api.InStop → T.res.state = .released
  dropped : T.api = .waking ∨ T.api = .joining → T.res.running = false
  ended : T.res.running = false → T.beacon = .ended ∨ T.api = .waking ∨ T.api = .joining
  returned : T.api = .free (some .release) → T.res.state = .released ∧ T.beacon = .ended

lemma sound_new (id : UInt32) (name : Name) : (new id name).Sound where
  state := rfl
  stored _ h := absurd h (by simp [new, ApiPc.stored])
  stopping h := h.elim
  dropped h := absurd h (by simp [new])
  ended h := absurd h (by simp [new, Resource.new])
  returned h := absurd h (by simp [new])

/-- A further assignment does not change what was assigned before. -/
lemma getElem?_assign {n : ℕ} {s : State} (op : Op) (h : T.stateAt n = some s) :
    (State.idle :: (T.assigned ++ [op.state]))[n]? = some s := by
  rw [← List.cons_append, List.getElem?_append_left (List.getElem?_eq_some_iff.mp h).1]
  exact h

/-- Outside the join, a beacon thread that has to stop has ended. -/
lemma Sound.ended_of (h : T.Sound) (hw : T.api ≠ .waking) (hj : T.api ≠ .joining)
    (hr : T.res.running = false) : T.beacon = .ended :=
  (h.ended hr).resolve_right (not_or.mpr ⟨hw, hj⟩)

/-- The positions of the calling thread about which `Sound` says nothing but `stored`. -/
lemma Sound.move_api (h : T.Sound) {pc : ApiPc} (hw : T.api ≠ .waking) (hj : T.api ≠ .joining)
    (hstored : ∀ op, pc.stored = some op → T.res.state = op.state) (hstop : ¬ pc.InStop)
    (hpc : pc ≠ .free (some .release)) (sent : List (ℕ × DLPacket)) :
    Sound { T with api := pc, sent } where
  state := h.state
  stored := hstored
  stopping h' := absurd h' hstop
  dropped h' := absurd h' fun h' => by rcases h' with rfl | rfl <;> exact hstop trivial
  ended hr := .inl (h.ended_of hw hj hr)
  returned h' := absurd h' hpc

/-- The end of a call of `stop`. -/
lemma Sound.move_free (h : T.Sound) (hstop : T.api.InStop) (hb : T.beacon = .ended) :
    Sound { T with api := .free (some .release) } where
  state := h.state
  stored _ h' := absurd h' (by simp [ApiPc.stored])
  stopping h' := h'.elim
  dropped h' := absurd h' (by simp)
  ended _ := .inl hb
  returned _ := ⟨h.stopping hstop, hb⟩

theorem sound_step (h : T.Sound) (hs : T.step e = some T') : T'.Sound := by
  cases effect_step hs with
  | call op hf =>
    have hstored : ∀ op', (ApiPc.storing op).stored = some op' → T.res.state = op'.state := by
      intro op' h'
      cases h'
    exact h.move_api (by simp [hf]) (by simp [hf]) hstored False.elim (by simp) T.sent
  -- the state is now the one that the last call has assigned
  | store op hf =>
    exact {
      state := by
        show (State.idle :: (T.assigned ++ [op.state]))[(T.assigned ++ [op.state]).length]? = _
        simp
      stored := fun op' h => by rw [← Option.some.inj h]
      stopping := fun h => h.elim
      dropped := fun h => absurd h (by simp)
      ended := fun hr => .inl (h.ended_of (by simp [hf]) (by simp [hf]) hr)
      returned := fun h => absurd h (by simp) }
  | build op hf =>
    have hstored : ∀ op', (ApiPc.sending op T.packet).stored = some op' →
        T.res.state = op'.state := by
      intro op' h'
      exact h.stored op' (by rw [hf]; exact h')
    exact h.move_api (by simp [hf]) (by simp [hf]) hstored False.elim (by simp) T.sent
  | send op m hf =>
    have hstored : ∀ op', (ApiPc.notifying op).stored = some op' → T.res.state = op'.state := by
      intro op' h'
      exact h.stored op' (by rw [hf]; exact h')
    exact h.move_api (by simp [hf]) (by simp [hf]) hstored False.elim (by simp) _
  -- the notification reaches a beacon thread that waits, never one that has ended
  | notify op hf =>
    have hstate : T.res.state = op.state := h.stored op (by rw [hf]; rfl)
    exact {
      state := by
        simpa [stateAt] using h.state
      stored := fun op' h' => by cases op <;> exact absurd h' (by simp [Op.rest, ApiPc.stored])
      stopping := fun h' => by
        rw [notifyBeacon_res, hstate]
        cases op with
        | release => rfl
        | _ => exact h'.elim
      dropped := fun h' => by cases op <;> exact absurd h' (by simp [Op.rest])
      ended := fun hr => by
        rw [notifyBeacon_res] at hr
        have hb := h.ended_of (by simp [hf]) (by simp [hf]) hr
        exact .inl (by change T.notifyBeacon.beacon = _; rw [notifyBeacon_beacon, hb]; rfl)
      returned := fun h' => by cases op <;> exact absurd h' (by simp [Op.rest]) }
  | clear hf =>
    have hclear : Sound { T with res := T.res.clearMembers } := { h with }
    have hstored : ∀ op', (ApiPc.free (some .reset)).stored = some op' →
        T.res.state = op'.state := by
      intro op' h'
      cases h'
    exact hclear.move_api (by simp [hf]) (by simp [hf]) hstored False.elim (by simp) T.sent
  -- `stop` has seen that the thread runs
  | read hf hr =>
    exact { h with
      stored := fun _ h => absurd h (by simp [ApiPc.stored])
      stopping := fun _ => h.stopping (by rw [hf]; trivial)
      dropped := fun h => absurd h (by simp)
      ended := fun hr' => absurd (hr.symm.trans hr') (by simp)
      returned := fun h => absurd h (by simp) }
  | skip hf hr =>
    exact h.move_free (by rw [hf]; trivial) (h.ended_of (by simp [hf]) (by simp [hf]) hr)
  | drop hf =>
    exact { h with
      stored := fun _ h => absurd h (by simp [ApiPc.stored])
      stopping := fun _ => h.stopping (by rw [hf]; trivial)
      dropped := fun _ => rfl
      ended := fun _ => .inr (.inl rfl)
      returned := fun h => absurd h (by simp) }
  | wake hf =>
    exact {
      state := by simpa [stateAt] using h.state
      stored := fun _ h => absurd h (by simp [ApiPc.stored])
      stopping := fun _ => by
        rw [notifyCv_res]
        exact h.stopping (by rw [hf]; trivial)
      dropped := fun _ => by
        rw [notifyCv_res]
        exact h.dropped (.inl hf)
      ended := fun _ => .inr (.inr rfl)
      returned := fun h => absurd h (by simp) }
  | join hf hb =>
    exact h.move_free (by rw [hf]; trivial) hb
  -- the moves of the beacon thread: it cannot move after its end
  | move hm =>
    have hne : T.beacon ≠ .ended := by cases hm <;> simp_all
    exact { h with
      ended := fun hr => .inr ((h.ended hr).resolve_left hne)
      returned := fun hf => absurd (h.returned hf).2 hne }
  | transmit m hm =>
    have hne : T.beacon ≠ .ended := by simp [hm]
    exact { h with
      ended := fun hr => .inr ((h.ended hr).resolve_left hne)
      returned := fun hf => absurd (h.returned hf).2 hne }

/-! ### Without interleaving -/

section alone

variable {T : Threads} {L : Lock} {n : Name} {s : State}

/-- The steps of a call of `setState` with nothing in between are `Lock.setState`. -/
theorem setState_alone (hid : T.id = L.id) (hres : L.getResource n = some T.res)
    {last : Option Op} (hapi : T.api = .free last) :
    ∃ T', Lib.Run step (fun _ _ => True) T [.call (.setState s), .api, .api, .api, .api] T' ∧
      T'.api = .free (some (.setState s)) ∧
      (L.setState n s).1.getResource n = some T'.res ∧
      T'.sent.map Prod.snd = T.sent.map Prod.snd ++ (L.setState n s).2 := by
  have hcall : T.step (.call (.setState s)) = some { T with api := .storing (.setState s) } := by
    simp only [step, hapi]
  refine ⟨_, .cons trivial hcall (.cons trivial rfl (.cons trivial rfl
    (.cons trivial rfl (.cons trivial rfl (.nil _))))), rfl, ?_, ?_⟩
  · rw [Lock.getResource_setState, if_pos rfl, hres, Option.map_some]
    show _ = some (notifyBeacon _).res
    rw [notifyBeacon_res]
    rfl
  · rw [Lock.setState_sent hres]
    simp [packet, hid, Op.state]

/-- A turn of the beacon thread with nothing in between sends what `Inst.beaconOf` says. -/
theorem beacon_alone {I : Inst} {p : DLPacket} (hid : T.id = I.lock.id)
    (hres : I.lock.getResource n = some T.res) (hb : T.beacon = .head)
    (hp : I.beaconOf n = some p) :
    ∃ T', Lib.Run step (fun _ _ => True) T [.beacon, .beacon, .beacon, .beacon] T' ∧
      T'.res = T.res ∧ T'.api = T.api ∧ T'.sent.map Prod.snd = T.sent.map Prod.snd ++ [p] := by
  obtain ⟨R, hR, hif⟩ := Option.bind_eq_some_iff.mp hp
  obtain rfl : T.res = R := Option.some.inj (hres.symm.trans hR)
  split_ifs at hif with hbeacon
  have h₁ : T.step .beacon = some { T with beacon := .testing } := by
    simp [step, runBeacon, hb, hbeacon.1]
  have h₂ : step { T with beacon := .testing } .beacon = some { T with beacon := .building } := by
    simp [step, runBeacon, hbeacon.2]
  refine ⟨_, .cons trivial h₁ (.cons trivial h₂ (.cons trivial rfl (.cons trivial rfl
    (.nil _)))), rfl, rfl, ?_⟩
  simp [packet, hid, ← Option.some.inj hif]

/-- `stop` with nothing in between is `Lock.stop`, provided that the thread naps. -/
theorem stop_alone (hres : L.getResource n = some T.res) (hapi : T.api = .reading)
    (hb : T.beacon = .napping) (hr : T.res.running = true) :
    ∃ T', Lib.Run step (fun _ _ => True) T [.api, .api, .api, .api] T' ∧
      T'.api = .free (some .release) ∧ (L.stop n).getResource n = some T'.res ∧
      T'.sent = T.sent := by
  have h₁ : T.step .api = some { T with api := .dropping } := by simp [step, runApi, hapi, hr]
  have h₄ : ∀ T₁ : Threads, T₁.api = .joining → T₁.beacon = .ended →
      T₁.step .api = some { T₁ with api := .free (some .release) } := by
    intro T₁ ha hb
    simp [step, runApi, ha, hb]
  refine ⟨_, .cons trivial h₁ (.cons trivial rfl (.cons trivial rfl
    (.cons trivial (h₄ _ rfl ?_) (.nil _)))), rfl, ?_, ?_⟩
  · show (notifyCv _).beacon = _
    rw [notifyCv_beacon, if_pos hb]
  · rw [Lock.getResource_stop, if_pos rfl, hres]
    simp
  · exact notifyCv_sent _

end alone

end Threads
end DistLock
