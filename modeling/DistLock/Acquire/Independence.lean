/-
What `acquire` of one resource has to do with packets about other resources.

All resources of an instance share the condition variables on which `adquire_lock` waits.  The
handler notifies `cv` only if the resource of the packet is being acquired or is held, but
`listen_cv` for every resource of the instance, so a packet about another resource can end a
wait.  As long as none does, the other resources make no difference: leaving them away commutes
with every step.
-/
import DistLock.Acquire.Interrupt
import DistLock.Lib.Run

namespace DistLock

open Lib (OrdMap Run tracedStep)

/-! ### One resource alone -/

namespace Lock

/-- The lock without its other resources. -/
def only (r : Name) (L : Lock) : Lock :=
  { L with resources := L.resources.filterKeys fun n => n = r }

variable {L : Lock} {r res : Name} {s : State} {f : Resource → Resource}

@[simp] lemma only_id : (L.only r).id = L.id := rfl

@[simp] lemma only_beaconTime : (L.only r).beaconTime = L.beaconTime := rfl

@[simp] lemma only_retryMax : (L.only r).retryMax = L.retryMax := rfl

lemma getResource_only :
    (L.only r).getResource res = if res = r then L.getResource res else none := by
  rw [getResource, only, OrdMap.find?_filterKeys]
  by_cases h : res = r <;> simp [h, getResource]

@[simp] lemma getResource_only_self : (L.only r).getResource r = L.getResource r := by
  rw [getResource_only, if_pos rfl]

@[simp] lemma stateOf_only : (L.only r).stateOf r = L.stateOf r := by
  rw [stateOf, getResource_only_self, stateOf]

lemma modify_only : (L.only r).modify r f = (L.modify r f).only r := by
  refine ext_getResource (by simp) (by simp) (by simp) fun n => ?_
  rw [getResource_modify, getResource_only, getResource_only, getResource_modify]
  split_ifs <;> rfl

/-- The operations on other resources are not seen. -/
lemma modify_only_of_ne (h : res ≠ r) : (L.modify res f).only r = L.only r := by
  refine ext_getResource (by simp) (by simp) (by simp) fun n => ?_
  rw [getResource_only, getResource_only]
  split_ifs with hn
  · exact getResource_modify_of_ne (by rw [hn]; exact h.symm)
  · rfl

lemma setState_only : ((L.only r).setState r s).1 = (L.setState r s).1.only r := modify_only

lemma reset_only : ((L.only r).reset r).1 = (L.reset r).1.only r := by
  show ((L.only r).setState r .idle).1.modify r (·.clearMembers) = _
  rw [setState_only, modify_only]
  rfl

lemma isAcquirable_only : (L.only r).isAcquirable r = L.isAcquirable r := by
  rw [isAcquirable, getResource_only_self, isAcquirable]

end Lock

/-- The loops of `adquire_lock` visit no other resource than `r`. -/
def Pc.Visits (r : Name) : Pc → Prop
  | start rest | starting rest | announcing rest | checking rest | resetting rest =>
    ∀ res ∈ rest, res = r
  | waitForReady res rest | marking res rest => res = r ∧ ∀ res ∈ rest, res = r
  | loop | listening | colliding | backoff | backingOff => True

/-- The event is something else than a packet about another resource. -/
def Event.own (r : Name) : Event → Bool
  | .deliver pkt => pkt.resource = r
  | _ => true

namespace Inst

/-- The instance without its other resources. -/
def only (r : Name) (I : Inst) : Inst := { I with lock := I.lock.only r }

/-- The calling thread works on `r`, or has returned. -/
def WorksOn (r : Name) (I : Inst) : Prop :=
  match I.ctl with
  | .free _ => True
  | .adquire scope _ pc => scope = some r ∧ pc.Visits r
  | _ => False

/-- A step of an instance in which an event that finds nothing to do is lost: the expiry of a
timer on which nobody waits, or the turn of a thread that is blocked. -/
def tick (I : Inst) (e : Event) : Option Inst := some (((I.step e).map Prod.fst).getD I)

/-- The state of `r` after the event, if it is a new one. -/
def newState (r : Name) (I : Inst) (e : Event) : Option State :=
  ((I.tick e).bind fun J => J.lock.stateOf r).filter fun s => I.lock.stateOf r ≠ some s

/-- The event does not end a wait of the calling thread with a packet about another resource than
`r`. -/
def Undisturbed (r : Name) (I : Inst) (e : Event) : Prop :=
  e.isCall = false ∧ ¬ (e.own r = false ∧ I.Wakes e)

instance (r : Name) (I : Inst) (e : Event) : Decidable (I.Undisturbed r e) :=
  inferInstanceAs (Decidable (_ ∧ _))

/-- A step of an instance, and of a second one that does not receive the packets about other
resources. -/
def beside (r : Name) (s : Inst × Inst) (e : Event) : Option (Inst × Inst) :=
  (s.1.tick e).bind fun I => if e.own r then (s.2.tick e).map fun K => (I, K) else some (I, s.2)

variable {r : Name} {I I' J : Inst} {L : Lock} {e : Event} {sent : List DLPacket} {pkt : DLPacket}
  {retry : UInt32} {pc : Pc}

@[simp] lemma only_ctl : (I.only r).ctl = I.ctl := rfl

@[simp] lemma only_lock : (I.only r).lock = I.lock.only r := rfl

lemma worksOn_cases (h : I.WorksOn r) :
    (∃ b, I.ctl = .free b) ∨ ∃ retry pc, I.ctl = .adquire (some r) retry pc ∧ pc.Visits r := by
  rw [WorksOn] at h
  split at h
  · next b hctl => exact .inl ⟨b, hctl⟩
  · next scope retry pc hctl =>
    obtain ⟨rfl, hpc⟩ := h
    exact .inr ⟨retry, pc, hctl, hpc⟩
  · exact h.elim

/-! ### The calling thread -/

lemma worksOn_targets (L : Lock) : ∀ res ∈ L.targets (some r), res = r :=
  fun _ hres => List.mem_singleton.mp hres

/-- `adquire_lock(res)` does not look at other resources. -/
lemma adquireLock_only (h : pc.Visits r) :
    (adquireLock (L.only r) (some r) retry pc).map Prod.fst =
      ((adquireLock L (some r) retry pc).map Prod.fst).map (only r) := by
  cases pc with
  | start rest | starting rest | announcing rest =>
    cases rest with
    | nil => rfl
    | cons res rest =>
      obtain rfl := h res List.mem_cons_self
      simp only [adquireLock, assign, Option.map_some, Lock.setState_only]
      rfl
  | resetting rest =>
    cases rest with
    | nil => rfl
    | cons res rest =>
      obtain rfl := h res List.mem_cons_self
      simp only [adquireLock, Option.map_some, Lock.reset_only]
      rfl
  | marking res rest =>
    obtain ⟨rfl, -⟩ := h
    simp only [adquireLock, assign, Option.map_some, Lock.setState_only]
    rfl
  | checking rest =>
    cases rest with
    | nil => rfl
    | cons res rest =>
      obtain rfl := h res List.mem_cons_self
      simp only [adquireLock, Lock.isAcquirable_only]
      split_ifs <;> rfl
  | loop =>
    have hmay : (L.only r).mayTry retry ↔ L.mayTry retry := Iff.rfl
    simp only [adquireLock, hmay]
    split_ifs <;> rfl
  | _ => rfl

lemma run_only (h : I.WorksOn r) :
    (I.only r).run.map Prod.fst = (I.run.map Prod.fst).map (only r) := by
  obtain ⟨b, hctl⟩ | ⟨retry, pc, hctl, hpc⟩ := worksOn_cases h
  · rw [run, run, only_ctl, hctl]
    rfl
  · rw [run, run, only_ctl, hctl]
    exact adquireLock_only hpc

lemma worksOn_run (h : I.WorksOn r) (hs : I.run = some (I', sent)) : I'.WorksOn r := by
  obtain ⟨b, hctl⟩ | ⟨retry, pc, hctl, hpc⟩ := worksOn_cases h
  · rw [run, hctl] at hs
    cases hs
  · rw [run, hctl] at hs
    cases pc with
    | start rest =>
      cases rest with
      | nil =>
        obtain ⟨rfl, -⟩ := Prod.mk.inj (Option.some.inj hs)
        exact ⟨rfl, trivial⟩
      | cons res rest =>
        obtain ⟨rfl, -⟩ := Prod.mk.inj (Option.some.inj hs)
        exact ⟨rfl, List.forall_mem_cons.mp hpc⟩
    | starting rest | announcing rest | resetting rest =>
      cases rest with
      | nil =>
        obtain ⟨rfl, -⟩ := Prod.mk.inj (Option.some.inj hs)
        exact ⟨rfl, trivial⟩
      | cons res rest =>
        obtain ⟨rfl, -⟩ := Prod.mk.inj (Option.some.inj hs)
        exact ⟨rfl, (List.forall_mem_cons.mp hpc).2⟩
    | checking rest =>
      cases rest with
      | nil =>
        obtain ⟨rfl, -⟩ := Prod.mk.inj (Option.some.inj hs)
        trivial
      | cons res rest =>
        simp only [adquireLock] at hs
        split_ifs at hs <;> obtain ⟨rfl, -⟩ := Prod.mk.inj (Option.some.inj hs)
        · exact ⟨rfl, List.forall_mem_cons.mp hpc⟩
        · exact ⟨rfl, worksOn_targets I.lock⟩
    | marking res rest =>
      obtain ⟨rfl, -⟩ := Prod.mk.inj (Option.some.inj hs)
      exact ⟨rfl, hpc.2⟩
    | loop =>
      simp only [adquireLock] at hs
      split_ifs at hs <;> obtain ⟨rfl, -⟩ := Prod.mk.inj (Option.some.inj hs)
      · exact ⟨rfl, worksOn_targets I.lock⟩
      · trivial
    | backoff =>
      obtain ⟨rfl, -⟩ := Prod.mk.inj (Option.some.inj hs)
      exact ⟨rfl, trivial⟩
    | waitForReady res rest | listening | colliding | backingOff => cases hs

/-! ### Waits and deliveries -/

lemma onTimeout_only (h : I.WorksOn r) :
    (I.only r).onTimeout = I.onTimeout.map (only r) ∧
      ∀ I', I.onTimeout = some I' → I'.WorksOn r := by
  obtain ⟨b, hctl⟩ | ⟨retry, pc, hctl, hpc⟩ := worksOn_cases h
  · refine ⟨by rw [onTimeout, onTimeout, only_ctl, hctl]; rfl, fun I' hI' => ?_⟩
    rw [onTimeout, hctl] at hI'
    cases hI'
  · refine ⟨by rw [onTimeout, onTimeout, only_ctl, hctl]; cases pc <;> rfl, fun I' hI' => ?_⟩
    rw [onTimeout, hctl] at hI'
    cases pc with
    | listening | colliding =>
      obtain rfl := Option.some.inj hI'
      exact ⟨rfl, worksOn_targets I.lock⟩
    | backingOff =>
      obtain rfl := Option.some.inj hI'
      exact ⟨rfl, trivial⟩
    | _ => cases hI'

lemma onWake_only (h : I.WorksOn r) :
    (I.only r).onWake = I.onWake.map (only r) ∧ ∀ I', I.onWake = some I' → I'.WorksOn r := by
  obtain ⟨b, hctl⟩ | ⟨retry, pc, hctl, hpc⟩ := worksOn_cases h
  · refine ⟨by rw [onWake, onWake, only_ctl, hctl]; rfl, fun I' hI' => ?_⟩
    rw [onWake, hctl] at hI'
    cases hI'
  · refine ⟨by rw [onWake, onWake, only_ctl, hctl]; cases pc <;> rfl, fun I' hI' => ?_⟩
    rw [onWake, hctl] at hI'
    cases pc with
    | waitForReady res rest =>
      obtain rfl := Option.some.inj hI'
      exact ⟨rfl, hpc.2⟩
    | listening | backingOff =>
      obtain rfl := Option.some.inj hI'
      exact ⟨rfl, trivial⟩
    | colliding =>
      obtain rfl := Option.some.inj hI'
      exact ⟨rfl, worksOn_targets I.lock⟩
    | _ => cases hI'

lemma hear_only (hp : pkt.resource = r) : (I.only r).hear pkt = (I.hear pkt).only r := by
  have haddr : (I.only r).addressee pkt = I.addressee pkt := by
    rw [addressee, addressee, only_lock, Lock.only_id, hp, Lock.getResource_only_self]
  rw [hear, hear, haddr]
  cases I.addressee pkt with
  | none => rfl
  | some R =>
    show (I.only r).record R pkt = (I.record R pkt).only r
    rw [record, record]
    split_ifs
    · rfl
    · rw [hp]
      exact congrArg (Inst.mk · I.ctl) Lock.modify_only

lemma hear_only_of_ne (hp : pkt.resource ≠ r) : (I.hear pkt).only r = I.only r := by
  have hlock : (I.hear pkt).lock.only r = I.lock.only r := by
    rcases hear_lock_eq I pkt with h | ⟨f, h⟩
    · rw [h]
    · rw [h, Lock.modify_only_of_ne hp]
  rw [only, only, hlock, hear_ctl]

lemma worksOn_congr (h : I.WorksOn r) (hctl : I'.ctl = I.ctl) : I'.WorksOn r := by
  rw [WorksOn, hctl]
  exact h

/-- A packet is recorded, and it wakes up the calling thread if it interrupts its wait. -/
lemma actionPerformed_worksOn (pkt : DLPacket) (h : I.WorksOn r) :
    (¬ I.Interrupts pkt ∧ I.actionPerformed pkt = I.hear pkt) ∨
      (I.Interrupts pkt ∧ (I.hear pkt).onWake = some (I.actionPerformed pkt)) := by
  obtain ⟨b, hctl⟩ | ⟨retry, pc, hctl, -⟩ := worksOn_cases h
  · refine .inl ⟨?_, ?_⟩
    · rintro ⟨-, R, -, hR⟩
      rw [heeds, hctl] at hR
      cases hR
    · rcases I.actionPerformed_cases pkt with h | h
      · exact h
      · rw [onWake, hear_ctl, hctl] at h
        cases h
  · exact actionPerformed_adquire pkt hctl

lemma interrupts_only (hp : pkt.resource = r) : (I.only r).Interrupts pkt ↔ I.Interrupts pkt := by
  have haddr : (I.only r).addressee pkt = I.addressee pkt := by
    rw [addressee, addressee, only_lock, Lock.only_id, hp, Lock.getResource_only_self]
  rw [Interrupts, Interrupts, haddr]
  rfl

/-- A packet about `r` does the same when the other resources are left away. -/
lemma actionPerformed_only (h : I.WorksOn r) (hp : pkt.resource = r) :
    (I.only r).actionPerformed pkt = (I.actionPerformed pkt).only r := by
  have h' : (I.only r).WorksOn r := h
  have hear' : (I.hear pkt).WorksOn r := worksOn_congr h hear_ctl
  obtain ⟨hnot, heq⟩ | ⟨hint, hw⟩ := actionPerformed_worksOn pkt h
  · obtain ⟨-, heq'⟩ | ⟨hint', -⟩ := actionPerformed_worksOn pkt h'
    · rw [heq', heq, hear_only hp]
    · exact absurd ((interrupts_only hp).mp hint') hnot
  · obtain ⟨hnot', -⟩ | ⟨-, hw'⟩ := actionPerformed_worksOn pkt h'
    · exact absurd ((interrupts_only hp).mpr hint) hnot'
    · rw [hear_only hp, (onWake_only hear').1, hw] at hw'
      exact (Option.some.inj hw').symm

/-! ### All events -/

section tick

lemma tick_of_some (hs : I.step e = some (J, sent)) : I.tick e = some J := by
  rw [tick, hs]
  rfl

lemma tick_of_none (hs : I.step e = none) : I.tick e = some I := by
  rw [tick, hs]
  rfl

lemma tick_cases (ht : I.tick e = some J) : (∃ sent, I.step e = some (J, sent)) ∨
    (I.step e = none ∧ J = I) := by
  cases hs : I.step e with
  | none =>
    rw [tick_of_none hs] at ht
    exact .inr ⟨rfl, (Option.some.inj ht).symm⟩
  | some s =>
    rw [tick_of_some hs] at ht
    obtain rfl := Option.some.inj ht
    exact .inl ⟨s.2, rfl⟩

/-- The calling thread does not turn to another resource. -/
lemma worksOn_tick (h : I.WorksOn r) (he : e.isCall = false) (ht : I.tick e = some J) :
    J.WorksOn r := by
  obtain ⟨sent, hs⟩ | ⟨-, rfl⟩ := tick_cases ht
  · rcases step_cases he hs with ⟨rfl, hr⟩ | ⟨-, hr⟩
    · exact worksOn_run h hr
    · have h' : (⟨J.lock, I.ctl⟩ : Inst).WorksOn r := h
      rcases hr with hr | hr | hr | ⟨n, hr⟩
      · rw [hr]
        exact h'
      · exact (onWake_only h').2 J hr
      · exact (onTimeout_only h').2 J hr
      · obtain ⟨q, res, b, -, hq, -⟩ := onElapsed_cases hr
        rw [WorksOn, hq] at h'
        exact h'.elim
  · exact h

/-- **The other resources do not matter** for the events that are no packets about them. -/
lemma tick_only (h : I.WorksOn r) (he : e.isCall = false) (ho : e.own r = true)
    (ht : I.tick e = some J) : (I.only r).tick e = some (J.only r) := by
  have hmap : ((I.only r).step e).map Prod.fst = ((I.step e).map Prod.fst).map (only r) →
      (I.only r).tick e = some (J.only r) := by
    intro hstep
    obtain rfl := Option.some.inj ht
    rw [tick, hstep]
    cases (I.step e).map Prod.fst <;> rfl
  cases e with
  | call c => cases he
  | run => exact hmap (run_only h)
  | timeout =>
    refine hmap ?_
    rw [step, step, (onTimeout_only h).1]
    cases I.onTimeout <;> rfl
  | wake =>
    refine hmap ?_
    rw [step, step, (onWake_only h).1]
    cases I.onWake <;> rfl
  | elapsed n =>
    refine hmap ?_
    have hnone : ∀ K : Inst, K.WorksOn r → K.onElapsed n = none := by
      intro K hK
      obtain ⟨b, hctl⟩ | ⟨retry, pc, hctl, -⟩ := worksOn_cases hK <;> rw [onElapsed, hctl]
    rw [step, step, hnone I h, hnone (I.only r) h]
    rfl
  | beacon res =>
    -- a beacon changes nothing, whether it is sent or not
    have hsame : ∀ K : Inst, K.tick (.beacon res) = some K := by
      intro K
      rw [tick, step]
      cases K.beaconOf res <;> rfl
    rw [hsame] at ht ⊢
    rw [Option.some.inj ht]
  | deliver pkt =>
    obtain rfl := Option.some.inj ht
    have hp : pkt.resource = r := of_decide_eq_true ho
    exact congrArg some (actionPerformed_only h hp)

/-- A packet about another resource that ends no wait is not noticed. -/
lemma tick_other (h : I.WorksOn r) (hu : I.Undisturbed r e) (ho : e.own r = false)
    (ht : I.tick e = some J) : J.only r = I.only r := by
  cases e with
  | deliver pkt =>
    obtain rfl := Option.some.inj ht
    have hp : pkt.resource ≠ r := of_decide_eq_false ho
    obtain ⟨-, heq⟩ | ⟨hint, -⟩ := actionPerformed_worksOn pkt h
    · show (I.actionPerformed pkt).only r = _
      rw [heq, hear_only_of_ne hp]
    · exact absurd ⟨ho, hint⟩ hu.2
  | _ => cases ho

lemma newState_eq (ht : I.tick e = some J) :
    I.newState r e = (J.lock.stateOf r).filter fun s => I.lock.stateOf r ≠ some s := by
  rw [newState, ht]
  rfl

end tick

/-! ### Two calls -/

section calls

variable {I₀ J' : Inst} {es es' : List Event} {log log' : List State}

lemma worksOn_enter (hr : r ≠ []) (hcall : I.step (.call (.acquire r)) = some (I₀, sent)) :
    I₀.WorksOn r := by
  obtain ⟨-, rfl, -⟩ := step_call hcall
  cases r with
  | nil => exact absurd rfl hr
  | cons b bs => exact ⟨rfl, trivial⟩

/-- An undisturbed call, without the other resources and the packets about them. -/
lemma run_only_own (h₀ : I₀.WorksOn r)
    (h : Run (tracedStep tick (newState r)) (fun s e => s.1.Undisturbed r e) (I₀, []) es (J, log)) :
    Run (tracedStep tick (newState r)) (fun _ _ => True) (I₀.only r, []) (es.filter (Event.own r))
      (J.only r, log) := by
  refine h.project (fun s => (s.1.only r, s.2)) (I := fun s => s.1.WorksOn r) ?_ ?_ ?_ h₀
  · rintro ⟨K, tr⟩ e s' hK hu ht
    obtain ⟨K', hK', rfl⟩ := Option.map_eq_some_iff.mp ht
    exact worksOn_tick hK hu.1 hK'
  · rintro ⟨K, tr⟩ e s' hK hu ho ht
    obtain ⟨K', hK', rfl⟩ := Option.map_eq_some_iff.mp ht
    have hstep := tick_only hK hu.1 ho hK'
    have hnew : (K.only r).newState r e = K.newState r e := by
      rw [newState_eq hstep, newState_eq hK', only_lock, only_lock, Lock.stateOf_only,
        Lock.stateOf_only]
    rw [tracedStep, hstep, hnew]
    rfl
  · rintro ⟨K, tr⟩ e s' hK hu ho ht
    obtain ⟨K', hK', rfl⟩ := Option.map_eq_some_iff.mp ht
    have hsame := tick_other hK hu ho hK'
    have hstate : K'.lock.stateOf r = K.lock.stateOf r := by
      rw [← Lock.stateOf_only (L := K'.lock), ← Lock.stateOf_only (L := K.lock)]
      exact congrArg (fun I : Inst => I.lock.stateOf r) hsame
    have hnew : K.newState r e = none := by
      rw [newState_eq hK', hstate]
      cases K.lock.stateOf r with
      | none => rfl
      | some s => simp [Option.filter]
    rw [hnew, hsame]
    simp

/-- **Other resources do not interfere as long as no packet about them ends a wait.**  Two runs
of one call of `acquire` that differ only in such packets go through the same states of the
resource, and return the same result. -/
theorem acquire_independent (hr : r ≠ [])
    (hcall : I.step (.call (.acquire r)) = some (I₀, sent))
    (h : Run (tracedStep tick (newState r)) (fun s e => s.1.Undisturbed r e) (I₀, []) es (J, log))
    (h' : Run (tracedStep tick (newState r)) (fun s e => s.1.Undisturbed r e) (I₀, []) es'
      (J', log'))
    (hsame : es.filter (Event.own r) = es'.filter (Event.own r)) :
    log = log' ∧ J.ctl = J'.ctl ∧ J.lock.getResource r = J'.lock.getResource r := by
  have h₀ := worksOn_enter hr hcall
  have hrun := run_only_own h₀ h
  have hrun' := run_only_own h₀ h'
  rw [← hsame] at hrun'
  obtain ⟨honly, hlog⟩ := Prod.mk.inj (hrun.unique hrun')
  have hctl : (J.only r).ctl = (J'.only r).ctl := congrArg Inst.ctl honly
  have hres : (J.only r).lock.getResource r = (J'.only r).lock.getResource r :=
    congrArg (fun I : Inst => I.lock.getResource r) honly
  rw [only_lock, only_lock, Lock.getResource_only_self, Lock.getResource_only_self] at hres
  exact ⟨hlog, hctl, hres⟩

/-- A packet about another resource that ends a wait is noticed. -/
lemma tick_disturbs (h : I.WorksOn r) (ho : e.own r = false) (hw : I.Wakes e)
    (ht : I.tick e = some J) : J.ctl ≠ I.ctl := by
  cases e with
  | deliver pkt =>
    obtain rfl := Option.some.inj ht
    obtain ⟨hnot, -⟩ | ⟨-, hwake⟩ := actionPerformed_worksOn pkt h
    · exact absurd hw hnot
    · show (I.actionPerformed pkt).ctl ≠ I.ctl
      intro hctl
      -- a thread whose wait has ended does not wait, but it would still do so at `I.ctl`
      refine waitsOn_ne_none_of_onWake hwake ?_
      rw [waitsOn, hear_ctl, ← hctl]
      exact waitsOn_of_onWake hwake
  | _ => cases ho

/-- The calling thread and the resource are at every moment as they would be without the packets
about other resources, if and only if none of these packets ends a wait. -/
theorem undisturbed_iff {s : Inst × Inst} (hr : r ≠ [])
    (hcall : I.step (.call (.acquire r)) = some (I₀, sent))
    (h : Run (beside r) (fun _ e => e.isCall = false) (I₀, I₀) es s) :
    (∀ es₁ s₁, es₁ <+: es → Run (beside r) (fun _ e => e.isCall = false) (I₀, I₀) es₁ s₁ →
        s₁.1.only r = s₁.2.only r) ↔
      Run (beside r) (fun s e => s.1.Undisturbed r e) (I₀, I₀) es s := by
  have h₀ := worksOn_enter hr hcall
  have hworks : ∀ (s : Inst × Inst) e s', s.1.WorksOn r ∧ s.2.WorksOn r → e.isCall = false →
      beside r s e = some s' → s'.1.WorksOn r ∧ s'.2.WorksOn r := by
    rintro ⟨K, K'⟩ e s' ⟨hK, hK'⟩ he hs
    obtain ⟨L, hL, hs⟩ := Option.bind_eq_some_iff.mp hs
    split_ifs at hs
    · obtain ⟨L', hL', rfl⟩ := Option.map_eq_some_iff.mp hs
      exact ⟨worksOn_tick hK he hL, worksOn_tick hK' he hL'⟩
    · obtain rfl := Option.some.inj hs
      exact ⟨worksOn_tick hK he hL, hK'⟩
  have hstep : ∀ (s : Inst × Inst) e s', s.1.WorksOn r ∧ s.2.WorksOn r →
      s.1.only r = s.2.only r → e.isCall = false → beside r s e = some s' →
        (s'.1.only r = s'.2.only r ↔ ¬ (e.own r = false ∧ s.1.Wakes e)) := by
    rintro ⟨K, K'⟩ e s' ⟨hK, hK'⟩ hsame he hs
    obtain ⟨L, hL, hs⟩ := Option.bind_eq_some_iff.mp hs
    split_ifs at hs with ho
    · obtain ⟨L', hL', rfl⟩ := Option.map_eq_some_iff.mp hs
      refine iff_of_true ?_ (by simp [ho])
      have h₁ := tick_only hK he ho hL
      have h₂ := tick_only hK' he ho hL'
      rw [show K.only r = K'.only r from hsame] at h₁
      exact Option.some.inj (h₁.symm.trans h₂)
    · obtain rfl := Option.some.inj hs
      rw [Bool.not_eq_true] at ho
      constructor
      · rintro heq ⟨-, hw⟩
        have hctl : L.ctl = K.ctl :=
          (congrArg Inst.ctl heq).trans (congrArg Inst.ctl hsame).symm
        exact tick_disturbs hK ho hw hL hctl
      · intro hnot
        exact (tick_other hK ⟨he, hnot⟩ ho hL).trans hsame
  exact Run.forall_prefix_iff hworks hstep h ⟨h₀, h₀⟩ rfl

/-! ### An instance with two resources -/

/-- The instance `1` with the resources `a` and `b`, which tries only once. -/
def twoIdle : Inst where
  lock := { ((Lock.new 1 50).defineResource [97] 1).defineResource [98] 1 with retryMax := 1 }
  ctl := .free none

/-- The packet by which the instance `2` announces a resource as `ACQUIRING`. -/
def acquiringPacket (res : Name) : DLPacket :=
  ((DLPacket.new State.acquiring.toByte 2).setResource res).setCount 1

/-- A pass from the end of its listening on, and a second one that collides. -/
def twoPasses : List Event :=
  [.run, .run, .timeout, .run, .run, .run, .run, .timeout, .run, .run, .run,
    .deliver (acquiringPacket [97]), .run, .run, .run, .timeout, .run]

/-- The first pass succeeds if nothing disturbs it; `packets` arrive during its listening,
`packets'` right afterwards. -/
def passEvents (packets packets' : List Event) : List Event :=
  .run :: .run :: .run :: (packets ++ .timeout :: (packets' ++ twoPasses))

/-- A packet about `b` between the two waits. -/
theorem independent_between :
    ∃ I₀ J J' log log', twoIdle.step (.call (.acquire [97])) = some (I₀, []) ∧
      Run (tracedStep tick (newState [97])) (fun s e => s.1.Undisturbed [97] e) (I₀, [])
        (passEvents [] [.deliver (acquiringPacket [98])]) (J, log) ∧
      Run (tracedStep tick (newState [97])) (fun s e => s.1.Undisturbed [97] e) (I₀, [])
        (passEvents [] []) (J', log') ∧
      log = log' ∧ J.ctl = J'.ctl ∧ J.lock.getResource [97] = J'.lock.getResource [97] := by
  have hcall : twoIdle.step (.call (.acquire [97])) =
      some (enter twoIdle.lock (.acquire [97]), []) := rfl
  have hrun : Run (tracedStep tick (newState [97])) (fun s e => s.1.Undisturbed [97] e)
      (enter twoIdle.lock (.acquire [97]), [])
      (passEvents [] [.deliver (acquiringPacket [98])]) _ := Run.of_exec rfl
  have hrun' : Run (tracedStep tick (newState [97])) (fun s e => s.1.Undisturbed [97] e)
      (enter twoIdle.lock (.acquire [97]), []) (passEvents [] []) _ := Run.of_exec rfl
  exact ⟨_, _, _, _, _, hcall, hrun, hrun', acquire_independent (by decide) hcall hrun hrun' rfl⟩

/-- A packet about `b` during the listening: the same packets about `a` and the same timers, and
the call fails. -/
theorem independent_listening :
    ∃ I₀ J J' log log', twoIdle.step (.call (.acquire [97])) = some (I₀, []) ∧
      Run (tracedStep tick (newState [97])) (fun _ e => e.isCall = false) (I₀, [])
        (passEvents [.deliver (acquiringPacket [98])] []) (J, log) ∧
      Run (tracedStep tick (newState [97])) (fun _ e => e.isCall = false) (I₀, [])
        (passEvents [] []) (J', log') ∧
      (passEvents [.deliver (acquiringPacket [98])] []).filter (Event.own [97]) =
        (passEvents [] []).filter (Event.own [97]) ∧
      J.ctl = .free (some false) ∧ .acquired ∉ log ∧
      J'.ctl = .free (some true) ∧ .acquired ∈ log' := by
  have hrun : Run (tracedStep tick (newState [97])) (fun _ e => e.isCall = false)
      (enter twoIdle.lock (.acquire [97]), [])
      (passEvents [.deliver (acquiringPacket [98])] []) _ := Run.of_exec rfl
  have hrun' : Run (tracedStep tick (newState [97])) (fun _ e => e.isCall = false)
      (enter twoIdle.lock (.acquire [97]), []) (passEvents [] []) _ := Run.of_exec rfl
  exact ⟨_, _, _, _, _, rfl, hrun, hrun', rfl, rfl, by decide, rfl, by decide⟩

end calls

end Inst
end DistLock
