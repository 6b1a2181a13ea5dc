/-
What one step of an instance can do.

A step of the calling thread does at most one thing to at most one resource (`Inst.next`), and
a delivery only changes member tables.  The later modules use these lemmas and do not unfold
the machine again, except where the control flow itself matters.
-/
import DistLock.Model.Api

namespace DistLock

open Lib (OrdMap)

/-! ### Resources of a lock -/

namespace Lock

variable {L : Lock} {res res' : Name} {s : State}

@[simp] lemma reset_id : (L.reset res).1.id = L.id := by
  rw [reset, modify_id, setState_id]

@[simp] lemma reset_names : (L.reset res).1.names = L.names := by
  rw [reset, names_modify, setState_names]

@[simp] lemma stop_id : (L.stop res).id = L.id := modify_id

@[simp] lemma stop_names : (L.stop res).names = L.names := names_modify

@[simp] lemma setState_retryMax : (L.setState res s).1.retryMax = L.retryMax := modify_retryMax

@[simp] lemma reset_retryMax : (L.reset res).1.retryMax = L.retryMax := by
  rw [reset, modify_retryMax, setState_retryMax]

@[simp] lemma stop_retryMax : (L.stop res).retryMax = L.retryMax := modify_retryMax

lemma getResource_reset :
    (L.reset res).1.getResource res' =
      if res' = res then
        (L.getResource res').map fun R => { R with state := .idle, members := .empty }
      else L.getResource res' := by
  rw [reset, getResource_modify, getResource_setState]
  split_ifs with h
  · rw [Option.map_map]
    rfl
  · rfl

lemma getResource_stop :
    (L.stop res).getResource res' =
      if res' = res then (L.getResource res').map fun R => { R with running := false }
      else L.getResource res' := by
  rw [stop, getResource_modify]
  split_ifs with h
  · congr 1
    funext R
    cases hR : R.running
    · simp only [Bool.false_eq_true, if_false]
      rw [← hR]
    · simp only [if_true]
  · rfl

lemma mem_names_of_stateOf (h : L.stateOf res = some s) : res ∈ L.names := by
  obtain ⟨R, hR, -⟩ := Option.map_eq_some_iff.mp h
  exact mem_names_iff.mpr ⟨R, hR⟩

/-- The packet that a broadcast of the resource contains does not depend on its members. -/
lemma sendBeacon_reset :
    (L.reset res).1.sendBeacon res = (L.setState res .idle).1.sendBeacon res := by
  rw [sendBeacon, sendBeacon, getResource_reset, getResource_setState, if_pos rfl, if_pos rfl,
    reset_id, setState_id]
  cases L.getResource res <;> rfl

lemma mem_sendBeacon {p : DLPacket} (h : p ∈ L.sendBeacon res) :
    ∃ R, L.getResource res = some R ∧ p = R.beacon L.id := by
  rw [sendBeacon] at h
  split at h
  · next R hR => exact ⟨R, hR, List.mem_singleton.mp h⟩
  · exact absurd h List.not_mem_nil

lemma targets_nodup (L : Lock) (scope : Option Name) : (L.targets scope).Nodup := by
  cases scope with
  | none => exact L.names_nodup
  | some r => exact List.nodup_singleton r

lemma targets_congr {L' : Lock} (h : L'.names = L.names) (scope : Option Name) :
    L'.targets scope = L.targets scope := by
  cases scope with
  | none => exact h
  | some r => rfl

end Lock

namespace Inst

/-! ### The calling thread -/

/-- What a step of the calling thread does to a resource. -/
inductive Action
  | setState (s : State)
  | reset
  | stop
  deriving DecidableEq

def Action.apply : Action → Resource → Resource
  | .setState s, R => { R with state := s }
  | .reset, R => { R with state := .idle, members := .empty }
  | .stop, R => { R with running := false }

/-- The resource on which the next step of the calling thread works, and what it does. -/
def next (I : Inst) : Option (Name × Action) :=
  match I.ctl with
  | .adquire _ _ (.start (res :: _)) => some (res, .setState .starting)
  | .adquire _ _ (.starting (res :: _)) => some (res, .setState .starting)
  | .adquire _ _ (.announcing (res :: _)) => some (res, .setState .acquiring)
  | .adquire _ _ (.marking res _) => some (res, .setState .acquired)
  | .adquire _ _ (.resetting (res :: _)) => some (res, .reset)
  | .query _ res .start => some (res, .setState .querying)
  | .releasing (res :: _) => some (res, .setState .released)
  | .stopping res _ => some (res, .stop)
  | _ => none

/-- The lock after the action, and what is broadcast. -/
def Action.on (L : Lock) (res : Name) : Action → Lock × List DLPacket
  | .setState s => L.setState res s
  | .reset => L.reset res
  | .stop => (L.stop res, [])

variable {I I' : Inst} {sent : List DLPacket} {res res' : Name} {a : Action} {pkt p : DLPacket}

/-- A step of the calling thread performs the action that is due, if any. -/
lemma run_eq (h : I.run = some (I', sent)) :
    (I'.lock, sent) = match I.next with
      | some (res, a) => a.on I.lock res
      | none => (I.lock, []) := by
  obtain ⟨L, ctl⟩ := I
  cases ctl with
  | free b => exact absurd h (by simp [run])
  | adquire scope retry pc =>
    simp only [run] at h
    cases pc with
    | start rest | starting rest | announcing rest | resetting rest =>
      cases rest <;> simp only [adquireLock, assign, Option.some.injEq, Prod.mk.injEq] at h <;>
        obtain ⟨rfl, rfl⟩ := h <;> rfl
    | marking res rest =>
      simp only [adquireLock, assign, Option.some.injEq, Prod.mk.injEq] at h
      obtain ⟨rfl, rfl⟩ := h
      rfl
    | loop =>
      simp only [adquireLock] at h
      split_ifs at h <;> simp only [Option.some.injEq, Prod.mk.injEq] at h <;>
        obtain ⟨rfl, rfl⟩ := h <;> rfl
    | checking rest =>
      cases rest with
      | nil =>
        simp only [adquireLock, Option.some.injEq, Prod.mk.injEq] at h
        obtain ⟨rfl, rfl⟩ := h
        rfl
      | cons res rest =>
        simp only [adquireLock] at h
        split_ifs at h <;> simp only [Option.some.injEq, Prod.mk.injEq] at h <;>
          obtain ⟨rfl, rfl⟩ := h <;> rfl
    | backoff =>
      simp only [adquireLock, Option.some.injEq, Prod.mk.injEq] at h
      obtain ⟨rfl, rfl⟩ := h
      rfl
    | waitForReady res rest | listening | colliding | backingOff =>
      exact absurd h (by simp [adquireLock])
  | query q res pc =>
    simp only [run] at h
    cases pc with
    | start | short | collect =>
      simp only [queryLock, assign, Option.some.injEq, Prod.mk.injEq] at h
      obtain ⟨rfl, rfl⟩ := h
      rfl
    | long b =>
      simp only [queryLock] at h
      split_ifs at h <;> simp only [Option.some.injEq, Prod.mk.injEq] at h <;>
        obtain ⟨rfl, rfl⟩ := h <;> rfl
    | shortListening | longListening b | longWoken b => exact absurd h (by simp [queryLock])
  | releasing rest =>
    cases rest <;> simp only [run, assign, Option.some.injEq, Prod.mk.injEq] at h <;>
      obtain ⟨rfl, rfl⟩ := h <;> rfl
  | stopping res rest =>
    simp only [run, Option.some.injEq, Prod.mk.injEq] at h
    obtain ⟨rfl, rfl⟩ := h
    rfl

lemma Action.getResource_on {L : Lock} :
    (a.on L res).1.getResource res' =
      if res' = res then (L.getResource res').map a.apply else L.getResource res' := by
  cases a with
  | setState s => exact Lock.getResource_setState
  | reset => exact Lock.getResource_reset
  | stop => exact Lock.getResource_stop

lemma Action.on_id {L : Lock} : (a.on L res).1.id = L.id := by
  cases a with
  | setState s => exact Lock.setState_id
  | reset => exact Lock.reset_id
  | stop => exact Lock.stop_id

lemma Action.on_names {L : Lock} : (a.on L res).1.names = L.names := by
  cases a with
  | setState s => exact Lock.setState_names
  | reset => exact Lock.reset_names
  | stop => exact Lock.stop_names

lemma Action.on_retryMax {L : Lock} : (a.on L res).1.retryMax = L.retryMax := by
  cases a with
  | setState s => exact Lock.setState_retryMax
  | reset => exact Lock.reset_retryMax
  | stop => exact Lock.stop_retryMax

/-- What is broadcast is a beacon of the resource in its new state. -/
lemma Action.mem_on {L : Lock} (h : p ∈ (a.on L res).2) :
    ∃ R, (a.on L res).1.getResource res = some R ∧ p = R.beacon L.id := by
  cases a with
  | setState s =>
    obtain ⟨R, hR, rfl⟩ := Lock.mem_sendBeacon h
    exact ⟨R, hR, by rw [Lock.modify_id]⟩
  | reset =>
    rw [show ((Action.reset).on L res).2 = (L.reset res).1.sendBeacon res from
      Lock.sendBeacon_reset.symm] at h
    obtain ⟨R, hR, rfl⟩ := Lock.mem_sendBeacon h
    exact ⟨R, hR, by rw [Lock.reset_id]⟩
  | stop => exact absurd h List.not_mem_nil

/-! ### Deliveries -/

/-- Waking up changes the position of the thread and nothing else. -/
lemma onWake_lock (h : I.onWake = some I') : I'.lock = I.lock := by
  rw [onWake] at h
  split at h <;> simp only [Option.some.injEq, reduceCtorEq] at h <;> subst h <;> rfl

lemma onTimeout_lock (h : I.onTimeout = some I') : I'.lock = I.lock := by
  rw [onTimeout] at h
  split at h <;> simp only [Option.some.injEq, reduceCtorEq] at h <;> subst h <;> rfl

/-- Only a query reads the clock, and only after an interrupted long listening. -/
lemma onElapsed_cases {n : UInt64} (h : I.onElapsed n = some I') :
    ∃ q res b, n ≤ b ∧ I.ctl = .query q res (.longWoken b) ∧
      I' = { I with ctl := .query q res (.long (b - n)) } := by
  rw [onElapsed] at h
  split at h
  · next q res b hctl =>
    split_ifs at h with hn
    exact ⟨q, res, b, hn, hctl, (Option.some.inj h).symm⟩
  · exact absurd h (by simp)

lemma onElapsed_lock {n : UInt64} (h : I.onElapsed n = some I') : I'.lock = I.lock := by
  obtain ⟨q, res, b, -, -, rfl⟩ := onElapsed_cases h
  rfl

lemma notify_cases (I : Inst) (c : CondVar) : I.notify c = I ∨ I.onWake = some (I.notify c) := by
  rw [notify]
  split_ifs
  · cases hw : I.onWake with
    | none => exact .inl rfl
    | some I' => exact .inr rfl
  · exact .inl rfl

/-- A thread that has been woken up is not waiting. -/
lemma waitsOn_of_onWake (h : I.onWake = some I') : I'.waitsOn = none := by
  rw [onWake] at h
  split at h <;> simp only [Option.some.injEq, reduceCtorEq] at h <;> subst h <;> rfl

/-- Only a thread that is waiting can be woken up. -/
lemma waitsOn_ne_none_of_onWake (h : I.onWake = some I') : I.waitsOn ≠ none := by
  rw [onWake] at h
  split at h
  case h_7 => cases h
  all_goals
    next hctl =>
      rw [waitsOn, hctl]
      simp

/-- Of several notifications in a row at most one wakes the thread up. -/
lemma notify_cases₂ (I : Inst) (c c' : CondVar) :
    (I.notify c).notify c' = I ∨ I.onWake = some ((I.notify c).notify c') := by
  rcases notify_cases I c with h | h
  · rw [h]
    exact notify_cases I c'
  · have hw : (I.notify c).notify c' = I.notify c := by
      rw [notify, waitsOn_of_onWake h, if_neg (by simp)]
    exact .inr (by rw [hw, h])

lemma notify_cases₃ (I : Inst) (c c' c'' : CondVar) :
    ((I.notify c).notify c').notify c'' = I ∨
      I.onWake = some (((I.notify c).notify c').notify c'') := by
  rcases notify_cases₂ I c c' with h | h
  · rw [h]
    exact notify_cases I c''
  · have hw : ((I.notify c).notify c').notify c'' = (I.notify c).notify c' := by
      rw [notify, waitsOn_of_onWake h, if_neg (by simp)]
    exact .inr (by rw [hw, h])

/-- The instance after the member table has been updated. -/
def hear (I : Inst) (pkt : DLPacket) : Inst :=
  match I.addressee pkt with
  | none => I
  | some R => I.record R pkt

/-- A packet is recorded, and it may wake up the calling thread. -/
lemma actionPerformed_cases (I : Inst) (pkt : DLPacket) :
    I.actionPerformed pkt = I.hear pkt ∨
      (I.hear pkt).onWake = some (I.actionPerformed pkt) := by
  cases hR : I.addressee pkt with
  | none =>
    have hp : I.actionPerformed pkt = I := by rw [actionPerformed, hR]
    have hh : I.hear pkt = I := by rw [hear, hR]
    exact .inl (hp.trans hh.symm)
  | some R =>
    have hh : I.hear pkt = I.record R pkt := by rw [hear, hR]
    rw [hh, actionPerformed, hR]
    dsimp only
    -- `any_cv`, then `listen_cv`, then `cv`, depending on the packet and on the resource
    split_ifs
    · exact notify_cases₃ _ _ _ _
    · exact notify_cases₂ _ _ _
    · exact notify_cases _ _

@[simp] lemma hear_ctl : (I.hear pkt).ctl = I.ctl := by
  unfold hear record
  split
  · rfl
  · split_ifs <;> rfl

/-- What the packet does to the resource of the given name. -/
def heardBy (I : Inst) (pkt : DLPacket) (res : Name) (R : Resource) : Resource :=
  if res = pkt.resource ∧ pkt.memberId ≠ I.lock.id ∧ R.state ≠ .idle then
    R.updateMember pkt.memberId (State.ofByte pkt.state) pkt.count
  else R

lemma getResource_hear :
    (I.hear pkt).lock.getResource res = (I.lock.getResource res).map (I.heardBy pkt res) := by
  have hsame : (∀ R, I.lock.getResource res = some R → I.heardBy pkt res R = R) →
      I.lock.getResource res = (I.lock.getResource res).map (I.heardBy pkt res) := by
    intro h
    cases hR : I.lock.getResource res with
    | none => rfl
    | some R => exact congrArg some (h R hR).symm
  unfold hear addressee
  split_ifs with hid
  · exact hsame fun R _ => if_neg fun h => h.2.1 hid
  · cases hR : I.lock.getResource pkt.resource with
    | none =>
      refine hsame fun R hR' => if_neg fun h => ?_
      rw [h.1, hR] at hR'
      exact absurd hR' (by simp)
    | some R =>
      show (I.record R pkt).lock.getResource res = _
      rw [record]
      split_ifs with hidle
      · refine hsame fun R' hR' => if_neg fun h => ?_
        rw [h.1, hR] at hR'
        exact h.2.2 (Option.some.inj hR' ▸ hidle)
      · rw [Lock.getResource_modify]
        split_ifs with hres
        · rw [hres, hR]
          exact congrArg some (if_pos ⟨rfl, hid, hidle⟩).symm
        · exact hsame fun R' _ => if_neg fun h => hres h.1

/-- What is recorded does not depend on the position of the thread. -/
lemma hear_of_ctl (I : Inst) (pkt : DLPacket) (ctl : Ctl) :
    (⟨I.lock, ctl⟩ : Inst).hear pkt = ⟨(I.hear pkt).lock, ctl⟩ := by
  have haddr : (⟨I.lock, ctl⟩ : Inst).addressee pkt = I.addressee pkt := rfl
  rw [hear, hear, haddr]
  cases I.addressee pkt with
  | none => rfl
  | some R =>
    show record _ R pkt = ⟨(I.record R pkt).lock, ctl⟩
    rw [record, record]
    split_ifs <;> rfl

lemma hear_lock_eq (I : Inst) (pkt : DLPacket) :
    (I.hear pkt).lock = I.lock ∨ ∃ f, (I.hear pkt).lock = I.lock.modify pkt.resource f := by
  unfold hear record
  split
  · exact .inl rfl
  · split_ifs
    · exact .inl rfl
    · exact .inr ⟨_, rfl⟩

@[simp] lemma hear_id : (I.hear pkt).lock.id = I.lock.id := by
  rcases hear_lock_eq I pkt with h | ⟨f, h⟩
  · rw [h]
  · rw [h, Lock.modify_id]

@[simp] lemma hear_names : (I.hear pkt).lock.names = I.lock.names := by
  rcases hear_lock_eq I pkt with h | ⟨f, h⟩
  · rw [h]
  · rw [h, Lock.names_modify]

@[simp] lemma hear_retryMax : (I.hear pkt).lock.retryMax = I.lock.retryMax := by
  rcases hear_lock_eq I pkt with h | ⟨f, h⟩
  · rw [h]
  · rw [h, Lock.modify_retryMax]

@[simp] lemma actionPerformed_lock : (I.actionPerformed pkt).lock = (I.hear pkt).lock := by
  rcases I.actionPerformed_cases pkt with h | h
  · rw [h]
  · exact onWake_lock h

section heardBy

variable {R : Resource}

@[simp] lemma heardBy_name : (I.heardBy pkt res R).name = R.name := by
  unfold heardBy; split_ifs <;> simp

@[simp] lemma heardBy_running : (I.heardBy pkt res R).running = R.running := by
  unfold heardBy; split_ifs <;> simp

@[simp] lemma heardBy_state : (I.heardBy pkt res R).state = R.state := by
  unfold heardBy; split_ifs <;> simp

@[simp] lemma heardBy_count : (I.heardBy pkt res R).count = R.count := by
  unfold heardBy; split_ifs <;> simp

/-- An idle resource does not record anything. -/
lemma heardBy_of_idle (h : R.state = .idle) : I.heardBy pkt res R = R :=
  if_neg fun hif => hif.2.2 h

end heardBy

/-! ### All events -/

/-- A public function is only called when the previous call has returned. -/
lemma step_call {c : Call} (h : I.step (.call c) = some (I', sent)) :
    (∃ b, I.ctl = .free b) ∧ I' = enter I.lock c ∧ sent = [] := by
  simp only [step] at h
  split at h
  · next b hb =>
    obtain ⟨rfl, rfl⟩ := Prod.mk.inj (Option.some.inj h)
    exact ⟨⟨b, hb⟩, rfl, rfl⟩
  · exact absurd h (by simp)

lemma step_timeout (h : I.step .timeout = some (I', sent)) : I.onTimeout = some I' ∧ sent = [] := by
  obtain ⟨I₁, h₁, hI⟩ := Option.map_eq_some_iff.mp h
  obtain ⟨rfl, rfl⟩ := Prod.mk.inj hI
  exact ⟨h₁, rfl⟩

lemma step_wake (h : I.step .wake = some (I', sent)) : I.onWake = some I' ∧ sent = [] := by
  obtain ⟨I₁, h₁, hI⟩ := Option.map_eq_some_iff.mp h
  obtain ⟨rfl, rfl⟩ := Prod.mk.inj hI
  exact ⟨h₁, rfl⟩

lemma step_elapsed {n : UInt64} (h : I.step (.elapsed n) = some (I', sent)) :
    I.onElapsed n = some I' ∧ sent = [] := by
  obtain ⟨I₁, h₁, hI⟩ := Option.map_eq_some_iff.mp h
  obtain ⟨rfl, rfl⟩ := Prod.mk.inj hI
  exact ⟨h₁, rfl⟩

/-- A beacon thread announces the state of its resource unless this is idle. -/
lemma step_beacon (h : I.step (.beacon res) = some (I', sent)) :
    I' = I ∧ ∃ R, I.lock.getResource res = some R ∧ R.running = true ∧ R.state ≠ .idle ∧
      sent = [R.beacon I.lock.id] := by
  obtain ⟨p, hp, hI⟩ := Option.map_eq_some_iff.mp h
  obtain ⟨rfl, rfl⟩ := Prod.mk.inj hI
  obtain ⟨R, hR, hif⟩ := Option.bind_eq_some_iff.mp hp
  split_ifs at hif with hbeacon
  exact ⟨rfl, R, hR, hbeacon.1, hbeacon.2, by rw [Option.some.inj hif]⟩

lemma step_deliver (h : I.step (.deliver pkt) = some (I', sent)) :
    I' = I.actionPerformed pkt ∧ sent = [] := by
  obtain ⟨rfl, rfl⟩ := Prod.mk.inj (Option.some.inj h)
  exact ⟨rfl, rfl⟩

/-- A step is the entry of a function, or one of those that `frame_step` describes. -/
lemma step_call_or {e : Event} (h : I.step e = some (I', sent)) :
    (∃ c, e = .call c ∧ (∃ b, I.ctl = .free b) ∧ I' = enter I.lock c ∧ sent = []) ∨
      e.isCall = false := by
  cases e with
  | call c => exact .inl ⟨c, rfl, step_call h⟩
  | _ => exact .inr rfl

/-- What an event that is not a call does to the resource of the given name. -/
def change (I : Inst) : Event → Name → Resource → Resource
  | .run, res, R =>
    match I.next with
    | some (r, a) => if res = r then a.apply R else R
    | none => R
  | .deliver pkt, res, R => I.heardBy pkt res R
  | _, _, R => R

section change

variable {e : Event} {R : Resource}

lemma change_run (h : I.next = some (res, a)) : I.change .run res R = a.apply R := by
  simp [change, h]

lemma change_run_of_ne (h : ∀ a, I.next ≠ some (res, a)) : I.change .run res R = R := by
  rw [change]
  cases hn : I.next with
  | none => rfl
  | some ra =>
    obtain ⟨r, a⟩ := ra
    refine if_neg fun hres => h a ?_
    rw [hn, hres]

/-- The effect of the calling thread on a resource: its action, if the resource is due. -/
lemma change_run_cases (I : Inst) (res : Name) (R : Resource) :
    I.change .run res R = R ∨ ∃ a, I.next = some (res, a) ∧ I.change .run res R = a.apply R := by
  by_cases h : ∃ a, I.next = some (res, a)
  · obtain ⟨a, ha⟩ := h
    exact .inr ⟨a, ha, change_run ha⟩
  · exact .inl (change_run_of_ne fun a ha => h ⟨a, ha⟩)

@[simp] lemma change_name : (I.change e res R).name = R.name := by
  cases e with
  | run =>
    rcases I.change_run_cases res R with h | ⟨a, -, h⟩
    · rw [h]
    · rw [h]
      cases a <;> rfl
  | deliver pkt => exact heardBy_name
  | _ => rfl

@[simp] lemma change_count : (I.change e res R).count = R.count := by
  cases e with
  | run =>
    rcases I.change_run_cases res R with h | ⟨a, -, h⟩
    · rw [h]
    · rw [h]
      cases a <;> rfl
  | deliver pkt => exact heardBy_count
  | _ => rfl

/-- Only the calling thread assigns states. -/
lemma change_state (h : e = .run → ∀ a, I.next = some (res, a) → a = .stop) :
    (I.change e res R).state = R.state := by
  cases e with
  | run =>
    rcases I.change_run_cases res R with hc | ⟨a, ha, hc⟩
    · rw [hc]
    · rw [hc, h rfl a ha]
      rfl
  | deliver pkt => exact heardBy_state
  | _ => rfl

/-- Only the calling thread stops a beacon thread. -/
lemma change_running (h : e = .run → I.next ≠ some (res, .stop)) :
    (I.change e res R).running = R.running := by
  cases e with
  | run =>
    rcases I.change_run_cases res R with hc | ⟨a, ha, hc⟩
    · rw [hc]
    · rw [hc]
      cases a with
      | stop => exact absurd ha (h rfl)
      | setState s => rfl
      | reset => rfl
  | deliver pkt => exact heardBy_running
  | _ => rfl

/-- An instance does not record its own packets. -/
lemma change_own (h : R.members.find? I.lock.id = none) :
    (I.change e res R).members.find? I.lock.id = none := by
  cases e with
  | run =>
    rcases I.change_run_cases res R with hc | ⟨a, -, hc⟩
    · rwa [hc]
    · rw [hc]
      cases a with
      | reset => exact OrdMap.find?_empty
      | setState s => exact h
      | stop => exact h
  | deliver pkt =>
    show (I.heardBy pkt res R).members.find? I.lock.id = none
    rw [heardBy]
    split_ifs with hif
    · rwa [Resource.updateMember_find?_of_ne hif.2.1.symm]
    · exact h
  | _ => exact h

end change

/-- What an event that is not a call does to the lock. -/
structure Frame (I I' : Inst) (e : Event) : Prop where
  id_eq : I'.lock.id = I.lock.id
  names_eq : I'.lock.names = I.lock.names
  retryMax_eq : I'.lock.retryMax = I.lock.retryMax
  resource : ∀ res, I'.lock.getResource res = (I.lock.getResource res).map (I.change e res)

lemma Frame.of_lock {e : Event} (h : I'.lock = I.lock) (he : ∀ res R, I.change e res R = R) :
    Frame I I' e where
  id_eq := by rw [h]
  names_eq := by rw [h]
  retryMax_eq := by rw [h]
  resource res := by
    rw [h, show I.change e res = id from funext (he res), Option.map_id, id]

lemma frame_run (h : I.run = some (I', sent)) : Frame I I' .run := by
  have heq := run_eq h
  cases hn : I.next with
  | none =>
    rw [hn] at heq
    exact .of_lock (congrArg Prod.fst heq) fun res R => by rw [change, hn]
  | some ra =>
    obtain ⟨r, a⟩ := ra
    rw [hn] at heq
    have hlock : I'.lock = (a.on I.lock r).1 := congrArg Prod.fst heq
    refine ⟨?_, ?_, ?_, fun res => ?_⟩
    · rw [hlock, Action.on_id]
    · rw [hlock, Action.on_names]
    · rw [hlock, Action.on_retryMax]
    · rw [hlock, Action.getResource_on]
      split_ifs with hres
      · congr 1
        funext R
        simp [change, hn, hres]
      · cases hR : I.lock.getResource res with
        | none => rfl
        | some R => simp [change, hn, hres]

/-- **What a step can do**, unless it is a call. -/
theorem frame_step {e : Event} (he : e.isCall = false) (h : I.step e = some (I', sent)) :
    Frame I I' e := by
  cases e with
  | call c => exact absurd he (by simp [Event.isCall])
  | run => exact frame_run h
  | timeout => exact .of_lock (onTimeout_lock (step_timeout h).1) fun _ _ => rfl
  | wake => exact .of_lock (onWake_lock (step_wake h).1) fun _ _ => rfl
  | elapsed n => exact .of_lock (onElapsed_lock (step_elapsed h).1) fun _ _ => rfl
  | beacon res =>
    obtain ⟨rfl, -⟩ := step_beacon h
    exact .of_lock rfl fun _ _ => rfl
  | deliver pkt =>
    obtain ⟨rfl, -⟩ := step_deliver h
    refine ⟨?_, ?_, ?_, fun res => ?_⟩
    · rw [actionPerformed_lock, hear_id]
    · rw [actionPerformed_lock, hear_names]
    · rw [actionPerformed_lock, hear_retryMax]
    · rw [actionPerformed_lock, getResource_hear]
      rfl

/-- The calling thread of `J` stays where it is, or its wait has ended. -/
def Resumes (J I' : Inst) : Prop :=
  I' = J ∨ J.onWake = some I' ∨ J.onTimeout = some I' ∨ ∃ n, J.onElapsed n = some I'

/-- Unless it takes a step of its own, the calling thread at most ends a wait. -/
lemma step_cases {e : Event} (he : e.isCall = false) (h : I.step e = some (I', sent)) :
    (e = .run ∧ I.run = some (I', sent)) ∨ (e ≠ .run ∧ Resumes ⟨I'.lock, I.ctl⟩ I') := by
  have hsame : I'.lock = I.lock → (⟨I'.lock, I.ctl⟩ : Inst) = I := fun h => by rw [h]
  cases e with
  | call c => exact absurd he (by simp [Event.isCall])
  | run => exact .inl ⟨rfl, h⟩
  | timeout =>
    obtain ⟨h₁, -⟩ := step_timeout h
    refine .inr ⟨by simp, ?_⟩
    rw [hsame (onTimeout_lock h₁)]
    exact .inr (.inr (.inl h₁))
  | wake =>
    obtain ⟨h₁, -⟩ := step_wake h
    refine .inr ⟨by simp, ?_⟩
    rw [hsame (onWake_lock h₁)]
    exact .inr (.inl h₁)
  | elapsed n =>
    obtain ⟨h₁, -⟩ := step_elapsed h
    refine .inr ⟨by simp, ?_⟩
    rw [hsame (onElapsed_lock h₁)]
    exact .inr (.inr (.inr ⟨n, h₁⟩))
  | beacon res =>
    obtain ⟨rfl, -⟩ := step_beacon h
    exact .inr ⟨by simp, .inl rfl⟩
  | deliver pkt =>
    obtain ⟨rfl, -⟩ := step_deliver h
    have hJ : (⟨(I.actionPerformed pkt).lock, I.ctl⟩ : Inst) = I.hear pkt := by
      rw [actionPerformed_lock, show I.ctl = (I.hear pkt).ctl from hear_ctl.symm]
    refine .inr ⟨by simp, ?_⟩
    rw [hJ]
    rcases I.actionPerformed_cases pkt with hp | hp
    · exact .inl hp
    · exact .inr (.inl hp)

/-- The function that the calling thread is in. -/
inductive Job
  | adquire (scope : Option Name)
  | query (q : Query) (res : Name)
  | release
  deriving DecidableEq

/-- The function in which a position lies, if any. -/
def job (I : Inst) : Option Job :=
  match I.ctl with
  | .free _ => none
  | .adquire scope _ _ => some (.adquire scope)
  | .query q res _ => some (.query q res)
  | .releasing _ | .stopping _ _ => some .release

lemma job_run (h : I.run = some (I', sent)) : I'.job = none ∨ I'.job = I.job := by
  obtain ⟨L, ctl⟩ := I
  cases ctl with
  | free b => exact absurd h (by simp [run])
  | adquire scope retry pc =>
    cases pc with
    | start rest | starting rest | announcing rest | resetting rest =>
      cases rest with
      | nil | cons res rest =>
        obtain ⟨rfl, -⟩ := Prod.mk.inj (Option.some.inj h)
        exact .inr rfl
    | loop =>
      simp only [run, adquireLock] at h
      split_ifs at h <;> obtain ⟨rfl, -⟩ := Prod.mk.inj (Option.some.inj h)
      · exact .inr rfl
      · exact .inl rfl
    | checking rest =>
      cases rest with
      | nil =>
        obtain ⟨rfl, -⟩ := Prod.mk.inj (Option.some.inj h)
        exact .inl rfl
      | cons res rest =>
        simp only [run, adquireLock] at h
        split_ifs at h <;> obtain ⟨rfl, -⟩ := Prod.mk.inj (Option.some.inj h) <;> exact .inr rfl
    | marking res rest | backoff =>
      obtain ⟨rfl, -⟩ := Prod.mk.inj (Option.some.inj h)
      exact .inr rfl
    | waitForReady res rest | listening | colliding | backingOff =>
      exact absurd h (by simp [run, adquireLock])
  | query q res pc =>
    cases pc with
    | start | short =>
      obtain ⟨rfl, -⟩ := Prod.mk.inj (Option.some.inj h)
      exact .inr rfl
    | collect =>
      obtain ⟨rfl, -⟩ := Prod.mk.inj (Option.some.inj h)
      exact .inl rfl
    | long b =>
      simp only [run, queryLock] at h
      split_ifs at h <;> obtain ⟨rfl, -⟩ := Prod.mk.inj (Option.some.inj h) <;> exact .inr rfl
    | shortListening | longListening b | longWoken b => exact absurd h (by simp [run, queryLock])
  | releasing rest =>
    cases rest with
    | nil =>
      obtain ⟨rfl, -⟩ := Prod.mk.inj (Option.some.inj h)
      exact .inl rfl
    | cons res rest =>
      obtain ⟨rfl, -⟩ := Prod.mk.inj (Option.some.inj h)
      exact .inr rfl
  | stopping res rest =>
    obtain ⟨rfl, -⟩ := Prod.mk.inj (Option.some.inj h)
    exact .inr rfl

lemma job_resumes (h : I.Resumes I') : I'.job = I.job := by
  obtain ⟨L, ctl⟩ := I
  rcases h with rfl | h | h | ⟨n, h⟩
  · rfl
  · rw [onWake] at h
    split at h <;> simp only [Option.some.injEq, reduceCtorEq] at h
    all_goals next hctl => subst h; obtain rfl := hctl; rfl
  · rw [onTimeout] at h
    split at h <;> simp only [Option.some.injEq, reduceCtorEq] at h
    all_goals next hctl => subst h; obtain rfl := hctl; rfl
  · obtain ⟨q, res, b, -, rfl, rfl⟩ := onElapsed_cases h
    rfl

/-- A function is entered by a call and left by returning from it. -/
lemma job_step {e : Event} (he : e.isCall = false) (h : I.step e = some (I', sent)) :
    I'.job = none ∨ I'.job = I.job := by
  rcases step_cases he h with ⟨rfl, hr⟩ | ⟨-, hr⟩
  · exact job_run hr
  · exact .inr (job_resumes (I := ⟨I'.lock, I.ctl⟩) hr)

/-- Whatever an instance broadcasts is a beacon of one of its resources, in the state that
this resource has after the step; the calling thread has just worked on the resource, or it is
not idle. -/
theorem mem_sent {e : Event} (h : I.step e = some (I', sent)) (hp : p ∈ sent) :
    ∃ res R, I'.lock.getResource res = some R ∧ p = R.beacon I'.lock.id ∧
      ((e = .run ∧ ∃ a, I.next = some (res, a)) ∨ (I' = I ∧ R.state ≠ .idle)) := by
  have hnil : sent ≠ [] := List.ne_nil_of_mem hp
  cases e with
  | call c => exact absurd (step_call h).2.2 hnil
  | run =>
    have heq := run_eq h
    cases hn : I.next with
    | none =>
      rw [hn] at heq
      exact absurd (congrArg Prod.snd heq) hnil
    | some ra =>
      obtain ⟨r, a⟩ := ra
      rw [hn] at heq
      have hlock : I'.lock = (a.on I.lock r).1 := congrArg Prod.fst heq
      have hsent : sent = (a.on I.lock r).2 := congrArg Prod.snd heq
      obtain ⟨R, hR, rfl⟩ := Action.mem_on (hsent ▸ hp)
      exact ⟨r, R, by rw [hlock, hR], by rw [hlock, Action.on_id], .inl ⟨rfl, a, rfl⟩⟩
  | timeout => exact absurd (step_timeout h).2 hnil
  | wake => exact absurd (step_wake h).2 hnil
  | elapsed n => exact absurd (step_elapsed h).2 hnil
  | beacon res =>
    obtain ⟨rfl, R, hR, -, hidle, rfl⟩ := step_beacon h
    exact ⟨res, R, hR, List.mem_singleton.mp hp, .inr ⟨rfl, hidle⟩⟩
  | deliver pkt => exact absurd (step_deliver h).2 hnil

/-! ### Calls -/

/-- The resource that the entry of a function creates unless it exists. -/
def creates : Call → Option Name
  | .defineResource res _ => some res
  | .acquire [] => none
  | .acquire res => some res
  | .query _ res => some res
  | _ => none

/-- What the entry of a function does to the resource that it creates or finds. -/
def recount : Call → Resource → Resource
  | .defineResource _ count, R => if count > 1 then R.setCount count else R
  | _, R => R

@[simp] lemma recount_name {c : Call} {R : Resource} : (recount c R).name = R.name := by
  cases c with
  | defineResource res count => simp only [recount]; split_ifs <;> rfl
  | _ => rfl

@[simp] lemma recount_state {c : Call} {R : Resource} : (recount c R).state = R.state := by
  cases c with
  | defineResource res count => simp only [recount]; split_ifs <;> rfl
  | _ => rfl

@[simp] lemma recount_running {c : Call} {R : Resource} :
    (recount c R).running = R.running := by
  cases c with
  | defineResource res count => simp only [recount]; split_ifs <;> rfl
  | _ => rfl

/-- The resources after the entry of a function. -/
lemma getResource_enter (L : Lock) (c : Call) (res : Name) :
    (enter L c).lock.getResource res =
      if creates c = some res then some (recount c ((L.getResource res).getD (Resource.new res)))
      else L.getResource res := by
  have hcreate : ∀ r, (L.createResource r).getResource res =
      if some r = some res then some ((L.getResource res).getD (Resource.new res))
      else L.getResource res := by
    intro r
    rw [Lock.getResource_createResource]
    by_cases hr : res = r
    · rw [if_pos hr, hr, if_pos rfl]
    · rw [if_neg hr, if_neg fun h => hr (Option.some.inj h).symm]
  cases c with
  | defineResource r count =>
    show (L.defineResource r count).getResource res = _
    unfold Lock.defineResource creates recount
    dsimp only
    split_ifs with hc hr hr
    · rw [Lock.getResource_modify, hcreate, if_pos hr, if_pos (Option.some.inj hr).symm]
      rfl
    · rw [Lock.getResource_modify, hcreate, if_neg hr, if_neg fun h => hr (congrArg some h.symm)]
    · rw [hcreate, if_pos hr]
    · rw [hcreate, if_neg hr]
  | acquire r =>
    cases r with
    | nil =>
      have hc : creates (.acquire []) ≠ some res := by simp [creates]
      rw [if_neg hc, enter]
      split_ifs <;> rfl
    | cons b bs => exact hcreate (b :: bs)
  | query q r => exact hcreate r
  | release r => rfl
  | releaseAll => rfl
  | setAdquireMaxRetry n => rfl

@[simp] lemma enter_id (L : Lock) (c : Call) : (enter L c).lock.id = L.id := by
  cases c with
  | defineResource r count =>
    show (L.defineResource r count).id = _
    unfold Lock.defineResource
    dsimp only
    split_ifs
    · rw [Lock.modify_id, Lock.createResource_id]
    · rw [Lock.createResource_id]
  | acquire r =>
    cases r with
    | nil => rw [enter]; split_ifs <;> rfl
    | cons b bs => exact Lock.createResource_id
  | query q r => exact Lock.createResource_id
  | _ => rfl

end Inst

lemma Inst.step_id {I I' : Inst} {e : Event} {sent : List DLPacket}
    (hs : I.step e = some (I', sent)) : I'.lock.id = I.lock.id := by
  rcases step_call_or hs with ⟨c, rfl, -, rfl, -⟩ | he
  · exact enter_id I.lock c
  · exact (frame_step he hs).id_eq

/-- Every resource is filed under its own name. -/
def Lock.Named (L : Lock) : Prop := ∀ res R, L.getResource res = some R → R.name = res

lemma Lock.named_new (id : UInt32) (beaconTime : UInt64) : (Lock.new id beaconTime).Named :=
  fun _ _ h => absurd h (by simp)

/-- The names stay where they are in every run. -/
lemma Inst.named_step {I I' : Inst} {e : Event} {sent : List DLPacket} (h : I.lock.Named)
    (hs : I.step e = some (I', sent)) : I'.lock.Named := by
  intro res R hR
  rcases step_call_or hs with ⟨c, rfl, -, rfl, -⟩ | he
  · rw [getResource_enter] at hR
    split_ifs at hR
    · obtain rfl := Option.some.inj hR
      rw [recount_name]
      cases hR₀ : I.lock.getResource res with
      | none => rfl
      | some R₀ => exact h res R₀ hR₀
    · exact h res R hR
  · rw [(frame_step he hs).resource] at hR
    obtain ⟨R₀, hR₀, rfl⟩ := Option.map_eq_some_iff.mp hR
    rw [change_name]
    exact h res R₀ hR₀

end DistLock
