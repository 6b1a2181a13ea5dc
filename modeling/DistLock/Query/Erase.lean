/-
Erasing observers from the member tables.

An observer is a participant that only queries, so that all its packets say `QUERYING`.  What
an instance does is independent of the entries that the observers have left in its tables:
erasing them commutes with every step (`Inst.step_erase`), except for the answer of `isAny`.
-/
import DistLock.Model.Spec

namespace DistLock

open Lib (OrdMap)

variable {obs : UInt32 → Bool}

namespace Resource

/-- The resource without the members that are observers. -/
def erase (obs : UInt32 → Bool) (R : Resource) : Resource :=
  { R with members := R.members.filterKeys fun id => !obs id }

/-- The observers have been heard as such. -/
def Unobserved (obs : UInt32 → Bool) (R : Resource) : Prop :=
  ∀ id m, R.members.find? id = some m → obs id = true → m.state = .querying

variable {R : Resource} {id : UInt32} {s : State} {c : UInt32}

lemma erase_updateMember (h : obs id = false) :
    (R.updateMember id s c).erase obs = (R.erase obs).updateMember id s c := by
  by_cases hc : R.count = c ∨ R.state = .querying
  · have hc' : (R.erase obs).count = c ∨ (R.erase obs).state = .querying := hc
    have hget : (R.erase obs).getMember id = R.getMember id := by
      rw [getMember, erase, OrdMap.find?_filterKeys, getMember]
      simp [h]
    rw [updateMember_eq hc, updateMember_eq hc', hget, erase,
      OrdMap.filterKeys_insert (by simp [h])]
    rfl
  · have hc' : ¬ ((R.erase obs).count = c ∨ (R.erase obs).state = .querying) := hc
    rw [updateMember_of_not hc, updateMember_of_not hc']

lemma erase_updateMember_of_obs (h : obs id = true) :
    (R.updateMember id s c).erase obs = R.erase obs := by
  by_cases hc : R.count = c ∨ R.state = .querying
  · rw [updateMember_eq hc, erase, OrdMap.filterKeys_insert_of_not (by simp [h])]
    rfl
  · rw [updateMember_of_not hc]

/-- Without an observer in the table there is nothing to erase. -/
lemma members_erase (h : ∀ id m, obs id = true → R.members.find? id ≠ some m) :
    (R.erase obs).members = R.members := by
  refine OrdMap.ext_find? fun id => ?_
  rw [erase, OrdMap.find?_filterKeys]
  cases ho : obs id with
  | false => simp
  | true =>
    cases hm : R.members.find? id with
    | none => simp
    | some m => exact absurd hm (h id m ho)

/-- Observers are not counted as holders. -/
lemma isAcquirable_erase (h : R.Unobserved obs) : (R.erase obs).isAcquirable = R.isAcquirable := by
  have hcount : (R.erase obs).members.entries.countP (fun e => e.2.state = .acquired) =
      R.members.entries.countP fun e => e.2.state = .acquired := by
    rw [erase, OrdMap.filterKeys, List.countP_filter]
    refine List.countP_congr fun e he => ?_
    have hobs : obs e.1 = true → e.2.state = .querying :=
      h e.1 e.2 (OrdMap.mem_entries_iff.mp he)
    cases ho : obs e.1 with
    | false => simp
    | true => simp [hobs ho]
  have hnum : (R.erase obs).numMembers = R.numMembers := by
    apply UInt32.toNat_inj.mp
    rw [toNat_numMembers, toNat_numMembers, hcount]
  rw [isAcquirable, hnum, isAcquirable]
  rfl

end Resource

/-- Observers make a difference only to `isAny`. -/
lemma Query.answer_erase {R : Resource} {q : Query} (h : R.Unobserved obs) (hq : q ≠ .isAny) :
    q.answer (R.erase obs).members = q.answer R.members := by
  have hany : ∀ p : State → Bool, p .querying = false →
      (R.erase obs).members.entries.any (fun e => p e.2.state) =
        R.members.entries.any fun e => p e.2.state := by
    intro p hp
    rw [Resource.erase, OrdMap.filterKeys, List.any_filter]
    refine Bool.eq_iff_iff.mpr ?_
    simp only [List.any_eq_true]
    refine exists_congr fun e => and_congr_right fun he => ?_
    have hobs : obs e.1 = true → e.2.state = .querying :=
      h e.1 e.2 (OrdMap.mem_entries_iff.mp he)
    cases ho : obs e.1 with
    | false => simp
    | true => simp [hobs ho, hp]
  cases q with
  | isBusy => exact hany (fun s => s = .acquired) rfl
  | isAny => exact absurd rfl hq
  | isWaiting => exact hany (fun s => s = .acquiring ∨ s = .starting ∨ s = .idle) rfl

namespace Lock

/-- The lock without the observers. -/
def erase (obs : UInt32 → Bool) (L : Lock) : Lock :=
  { L with resources := L.resources.mapValues (Resource.erase obs) }

variable {L : Lock} {res : Name} {s : State} {f g : Resource → Resource}

@[simp] lemma erase_id : (L.erase obs).id = L.id := rfl

@[simp] lemma erase_beaconTime : (L.erase obs).beaconTime = L.beaconTime := rfl

@[simp] lemma erase_retryMax : (L.erase obs).retryMax = L.retryMax := rfl

@[simp] lemma erase_names : (L.erase obs).names = L.names := OrdMap.keys_mapValues

@[simp] lemma getResource_erase : (L.erase obs).getResource res =
    (L.getResource res).map (Resource.erase obs) := OrdMap.find?_mapValues

@[simp] lemma targets_erase {scope : Option Name} :
    (L.erase obs).targets scope = L.targets scope := targets_congr erase_names scope

/-- An operation that does not look at the observers. -/
lemma erase_modify (h : ∀ R, (f R).erase obs = g (R.erase obs)) :
    (L.modify res f).erase obs = (L.erase obs).modify res g := by
  refine ext_getResource (by simp) (by simp) (by simp) fun n => ?_
  rw [getResource_erase, getResource_modify, getResource_modify, getResource_erase]
  split_ifs
  · rw [Option.map_map, Option.map_map]
    exact congrArg (fun φ => (L.getResource n).map φ) (funext h)
  · rfl

lemma erase_createResource :
    (L.createResource res).erase obs = (L.erase obs).createResource res := by
  refine ext_getResource (by simp) (by simp) (by simp) fun n => ?_
  rw [getResource_erase, getResource_createResource, getResource_createResource, getResource_erase]
  split_ifs with h
  · cases hR : L.getResource res <;> rfl
  · exact getResource_erase.symm

lemma erase_defineResource {c : UInt32} :
    (L.defineResource res c).erase obs = (L.erase obs).defineResource res c := by
  unfold defineResource
  dsimp only
  rw [← erase_createResource]
  split_ifs
  · exact erase_modify fun R => rfl
  · rfl

/-- A beacon says nothing about the members. -/
lemma sendBeacon_erase : (L.erase obs).sendBeacon res = L.sendBeacon res := by
  rw [sendBeacon, sendBeacon, getResource_erase]
  cases L.getResource res <;> rfl

lemma setState_erase : (L.erase obs).setState res s =
    ((L.setState res s).1.erase obs, (L.setState res s).2) := by
  have h : (L.modify res fun R => { R with state := s }).erase obs =
      (L.erase obs).modify res fun R => { R with state := s } := erase_modify fun _ => rfl
  rw [setState, ← h]
  exact congrArg (Prod.mk _) sendBeacon_erase

lemma reset_erase : (L.erase obs).reset res = ((L.reset res).1.erase obs, (L.reset res).2) := by
  have h : ((L.setState res .idle).1.modify res (·.clearMembers)).erase obs =
      ((L.setState res .idle).1.erase obs).modify res (·.clearMembers) := by
    refine erase_modify fun R => ?_
    rfl
  rw [reset]
  rw [setState_erase]
  exact congrArg (fun L' => (L', (L.setState res .idle).2)) h.symm

lemma stop_erase : (L.erase obs).stop res = (L.stop res).erase obs := by
  refine (erase_modify fun R => ?_).symm
  show Resource.erase obs (if R.running then _ else R) = if R.running then _ else _
  split_ifs <;> rfl

end Lock

namespace Inst

/-- The instance without the observers. -/
def erase (obs : UInt32 → Bool) (I : Inst) : Inst := { I with lock := I.lock.erase obs }

/-- The observers have been heard as such. -/
def Unobserved (obs : UInt32 → Bool) (I : Inst) : Prop :=
  ∀ n R, I.lock.getResource n = some R → R.Unobserved obs

variable {I I' : Inst} {L : Lock} {e : Event} {sent : List DLPacket} {res : Name} {p : DLPacket}

@[simp] lemma erase_ctl : (I.erase obs).ctl = I.ctl := rfl

@[simp] lemma erase_lock : (I.erase obs).lock = I.lock.erase obs := rfl

/-! ### The calling thread -/

lemma enter_erase (L : Lock) (c : Call) : enter (L.erase obs) c = (enter L c).erase obs := by
  cases c with
  | defineResource res count => rw [enter, ← Lock.erase_defineResource]; rfl
  | acquire res =>
    cases res with
    | nil =>
      have hlen : (L.erase obs).resources.entries.length = L.resources.entries.length :=
        List.length_map _
      rw [enter, enter, hlen, Lock.erase_names]
      split_ifs <;> rfl
    | cons b bs =>
      show Inst.mk ((L.erase obs).createResource _) _ = _
      rw [← Lock.erase_createResource]
      rfl
  | release res => rfl
  | releaseAll => rw [enter, Lock.erase_names]; rfl
  | query q res => rw [enter, ← Lock.erase_createResource]; rfl
  | setAdquireMaxRetry n => rfl

lemma assign_erase {s : State} {ctl : Ctl} :
    assign (L.erase obs) res s ctl =
      ((assign L res s ctl).1.erase obs, (assign L res s ctl).2) := by
  rw [assign, Lock.setState_erase]
  rfl

/-- The result of a step, without the observers. -/
def eraseStep (obs : UInt32 → Bool) (s : Inst × List DLPacket) : Inst × List DLPacket :=
  (s.1.erase obs, s.2)

lemma adquireLock_erase (h : ∀ n R, L.getResource n = some R → R.Unobserved obs)
    (scope : Option Name) (retry : UInt32) (pc : Pc) :
    adquireLock (L.erase obs) scope retry pc =
      (adquireLock L scope retry pc).map (eraseStep obs) := by
  have hacq : ∀ res, (L.erase obs).isAcquirable res = L.isAcquirable res := by
    intro res
    rw [Lock.isAcquirable, Lock.getResource_erase, Lock.isAcquirable]
    cases hR : L.getResource res with
    | none => rfl
    | some R => exact Resource.isAcquirable_erase (h res R hR)
  cases pc with
  | start rest | starting rest | announcing rest =>
    cases rest with
    | nil => rfl
    | cons res rest =>
      simp only [adquireLock, assign_erase]
      rfl
  | resetting rest =>
    cases rest with
    | nil => rfl
    | cons res rest =>
      simp only [adquireLock, Lock.reset_erase]
      rfl
  | marking res rest =>
    simp only [adquireLock, assign_erase]
    rfl
  | loop =>
    have hmay : (L.erase obs).mayTry retry ↔ L.mayTry retry := Iff.rfl
    simp only [adquireLock, hmay, Lock.targets_erase]
    split_ifs <;> rfl
  | checking rest =>
    cases rest with
    | nil => rfl
    | cons res rest =>
      simp only [adquireLock, hacq, Lock.targets_erase]
      split_ifs <;> rfl
  | _ => rfl

lemma run_erase (h : I.Unobserved obs) (hc : ∀ q res, I.ctl ≠ .query q res .collect) :
    (I.erase obs).run = I.run.map (eraseStep obs) := by
  obtain ⟨L, ctl⟩ := I
  unfold run
  cases ctl with
  | free b => rfl
  | adquire scope retry pc => exact adquireLock_erase h scope retry pc
  | query q res pc =>
    cases pc with
    | start =>
      simp only [erase, queryLock, assign_erase]
      rfl
    | long b =>
      simp only [erase, queryLock]
      split_ifs <;> rfl
    | collect => exact absurd rfl (hc q res)
    | _ => rfl
  | releasing rest =>
    cases rest with
    | nil => rfl
    | cons res rest =>
      simp only [erase, assign_erase]
      rfl
  | stopping res rest =>
    simp only [erase, Lock.stop_erase]
    rfl

/-! ### Waits and deliveries -/

lemma onTimeout_erase : (I.erase obs).onTimeout = I.onTimeout.map (erase obs) := by
  obtain ⟨L, ctl⟩ := I
  unfold onTimeout erase
  dsimp only
  split <;> simp

lemma onWake_erase : (I.erase obs).onWake = I.onWake.map (erase obs) := by
  obtain ⟨L, ctl⟩ := I
  unfold onWake erase
  dsimp only
  split <;> simp

lemma onElapsed_erase {n : UInt64} :
    (I.erase obs).onElapsed n = (I.onElapsed n).map (erase obs) := by
  obtain ⟨L, ctl⟩ := I
  unfold onElapsed erase
  dsimp only
  split
  · split_ifs <;> rfl
  · rfl

lemma notify_erase {c : CondVar} : (I.erase obs).notify c = (I.notify c).erase obs := by
  have hw : (I.erase obs).waitsOn = I.waitsOn := rfl
  rw [notify, notify, hw, onWake_erase]
  split_ifs
  · cases I.onWake <;> rfl
  · rfl

lemma record_erase {R : Resource} (h : obs p.memberId = false) :
    (I.erase obs).record (R.erase obs) p = (I.record R p).erase obs := by
  have hstate : (R.erase obs).state = R.state := rfl
  rw [record, record, hstate]
  split_ifs
  · rfl
  · exact congrArg (Inst.mk · I.ctl) (Lock.erase_modify fun R => Resource.erase_updateMember h).symm

lemma record_erase_of_obs {R : Resource} (h : obs p.memberId = true) :
    (I.record R p).erase obs = I.erase obs := by
  rw [record]
  split_ifs
  · rfl
  · refine congrArg (Inst.mk · I.ctl) ?_
    refine Lock.ext_getResource (by simp) (by simp) (by simp) fun n => ?_
    rw [Lock.getResource_erase, Lock.getResource_modify, Lock.getResource_erase]
    split_ifs
    · rw [Option.map_map]
      exact congrArg (fun φ => (I.lock.getResource n).map φ)
        (funext fun R => Resource.erase_updateMember_of_obs h)
    · rfl

lemma addressee_erase : (I.erase obs).addressee p = (I.addressee p).map (Resource.erase obs) := by
  rw [addressee, addressee, erase_lock, Lock.erase_id, Lock.getResource_erase]
  split_ifs <;> rfl

lemma actionPerformed_erase (h : obs p.memberId = false) :
    (I.erase obs).actionPerformed p = (I.actionPerformed p).erase obs := by
  rw [actionPerformed, actionPerformed, addressee_erase]
  cases hR : I.addressee p with
  | none => rfl
  | some R =>
    have hstate : (R.erase obs).state = R.state := rfl
    simp only [Option.map_some, record_erase h, notify_erase, hstate]
    split_ifs <;> rfl

lemma beaconOf_erase : (I.erase obs).beaconOf res = I.beaconOf res := by
  rw [beaconOf, beaconOf, erase_lock, Lock.getResource_erase]
  cases I.lock.getResource res <;> rfl

/-! ### All events -/

/-- **Erasing the observers commutes with every step**, except with the answer of a query and
with the packets of the observers themselves. -/
theorem step_erase (h : I.Unobserved obs) (hd : ∀ p, e = .deliver p → obs p.memberId = false)
    (hc : e = .run → ∀ q res, I.ctl ≠ .query q res .collect) :
    (I.erase obs).step e = (I.step e).map (eraseStep obs) := by
  cases e with
  | call c =>
    obtain ⟨L, ctl⟩ := I
    cases ctl with
    | free b => exact congrArg (fun J => some (J, [])) (enter_erase L c)
    | _ => rfl
  | run => exact run_erase h (hc rfl)
  | timeout =>
    rw [step, step, onTimeout_erase, Option.map_map, Option.map_map]
    rfl
  | wake =>
    rw [step, step, onWake_erase, Option.map_map, Option.map_map]
    rfl
  | elapsed n =>
    rw [step, step, onElapsed_erase, Option.map_map, Option.map_map]
    rfl
  | beacon res =>
    rw [step, step, beaconOf_erase, Option.map_map]
    rfl
  | deliver p => exact congrArg (fun J => some (J, [])) (actionPerformed_erase (hd p rfl))

/-- **The packet of an observer** changes nothing else, but it interrupts the listening of a
query. -/
theorem actionPerformed_of_obs (h : obs p.memberId = true)
    (hp : State.ofByte p.state = .querying) :
    (I.actionPerformed p).erase obs = I.erase obs ∨
      (I.actionPerformed p).erase obs = (I.erase obs).notify .anyCv := by
  rw [actionPerformed]
  cases hR : I.addressee p with
  | none => exact .inl rfl
  | some R =>
    dsimp only
    rw [if_neg (by simp [hp]), ← notify_erase, record_erase_of_obs h]
    exact .inr rfl

lemma unobserved_new (id : UInt32) (beaconTime : UInt64) (b : Option Bool) :
    (⟨.new id beaconTime, .free b⟩ : Inst).Unobserved obs :=
  fun _ _ h => absurd h (by simp)

/-- The observers stay what they are. -/
theorem unobserved_step (h : I.Unobserved obs)
    (hp : ∀ p, e = .deliver p → obs p.memberId = true → State.ofByte p.state = .querying)
    (hs : I.step e = some (I', sent)) : I'.Unobserved obs := by
  intro n R hR
  rcases step_call_or hs with ⟨c, rfl, -, rfl, -⟩ | he
  · rw [getResource_enter] at hR
    split_ifs at hR
    · obtain rfl := Option.some.inj hR
      have hold : ((I.lock.getResource n).getD (Resource.new n)).Unobserved obs := by
        cases hR₀ : I.lock.getResource n with
        | none => exact fun id m hm => absurd hm (by simp [Resource.new])
        | some R₀ => exact h n R₀ hR₀
      cases c with
      | defineResource res count =>
        rw [recount]
        split_ifs <;> exact hold
      | _ => exact hold
    · exact h n R hR
  · rw [(frame_step he hs).resource] at hR
    obtain ⟨R₀, hR₀, rfl⟩ := Option.map_eq_some_iff.mp hR
    have hold := h n R₀ hR₀
    -- only a delivery adds an entry, and an observer sends nothing but queries
    cases e with
    | run =>
      rcases I.change_run_cases n R₀ with hc | ⟨a, -, hc⟩
      · rwa [hc]
      · rw [hc]
        cases a with
        | reset => exact fun id m hm => absurd hm (by simp [Action.apply])
        | _ => exact hold
    | deliver p =>
      intro id m hm ho
      change (I.heardBy p n R₀).members.find? id = some m at hm
      rw [heardBy] at hm
      split_ifs at hm with hif
      · by_cases hid : id = p.memberId
        · by_cases hc : R₀.count = p.count ∨ R₀.state = .querying
          · obtain ⟨m', hm', hst, -⟩ : ∃ m', (R₀.updateMember p.memberId (State.ofByte p.state)
                p.count).members.find? p.memberId = some m' ∧ m'.state = State.ofByte p.state ∧
                  m'.count = p.count := Resource.updateMember_find?_self hc
            rw [hid, hm'] at hm
            rw [← Option.some.inj hm, hst]
            exact hp p rfl (hid ▸ ho)
          · rw [Resource.updateMember_of_not hc] at hm
            exact hold id m hm ho
        · rw [Resource.updateMember_find?_of_ne hid] at hm
          exact hold id m hm ho
      · exact hold id m hm ho
    | _ => exact hold

end Inst
end DistLock
