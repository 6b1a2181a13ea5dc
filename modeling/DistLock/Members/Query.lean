/-
What a query answers.

`query_lock` listens and then copies the member table, which nothing clears before.  The answer
is therefore determined by the packets that are heard until the copy and by the members that were
in the table when the query began and have not been heard since (`answer_iff_fresh`).
-/
import DistLock.Acquire.Ownership
import DistLock.Members.Window

namespace DistLock

namespace Query

/-- The states of a member that make the answer true. -/
def Counts : Query → State → Prop
  | isBusy, s => s = .acquired
  | isAny, _ => True
  | isWaiting, s => s = .starting ∨ s = .acquiring ∨ s = .idle

/-- What the packets that have been heard say. -/
def Fresh (pkts : List DLPacket) : Query → Prop
  | isBusy => ∃ id pkt, lastFrom id pkts = some pkt ∧ State.ofByte pkt.state = .acquired
  | isAny => ∃ pkt, pkt ∈ pkts
  | isWaiting => ∃ id pkt, lastFrom id pkts = some pkt ∧
      (State.ofByte pkt.state = .starting ∨ State.ofByte pkt.state = .acquiring ∨
        State.ofByte pkt.state = .idle)

/-- A member that was in the table before, and has not been heard since, makes the answer true. -/
def Stale (R : Resource) (pkts : List DLPacket) (q : Query) : Prop :=
  ∃ id s, R.memberState id = some s ∧ q.Counts s ∧ lastFrom id pkts = none

variable {q : Query} {pkts : List DLPacket}

/-- Only the last packet of each member matters. -/
lemma fresh_iff :
    q.Fresh pkts ↔ ∃ id pkt, lastFrom id pkts = some pkt ∧ q.Counts (.ofByte pkt.state) := by
  cases q with
  | isBusy => exact Iff.rfl
  | isWaiting => exact Iff.rfl
  | isAny =>
    constructor
    · rintro ⟨pkt, hpkt⟩
      obtain ⟨p, hp⟩ := exists_lastFrom hpkt
      exact ⟨_, p, hp, trivial⟩
    · rintro ⟨id, pkt, hpkt, -⟩
      exact ⟨pkt, (lastFrom_eq_some hpkt).1⟩

/-- The answer is read off the states of the members. -/
lemma answer_iff {R : Resource} :
    q.answer R.members = true ↔ ∃ id s, R.memberState id = some s ∧ q.Counts s := by
  have hstate : (∃ id s, R.memberState id = some s ∧ q.Counts s) ↔
      ∃ e ∈ R.members.entries, q.Counts e.2.state := by
    constructor
    · rintro ⟨id, s, hs, hc⟩
      obtain ⟨m, hm, rfl⟩ := Option.map_eq_some_iff.mp hs
      exact ⟨⟨id, m⟩, Lib.OrdMap.mem_entries_iff.mpr hm, hc⟩
    · rintro ⟨⟨id, m⟩, he, hc⟩
      have hm : R.getMember id = some m := Lib.OrdMap.mem_entries_iff.mp he
      exact ⟨id, m.state, by rw [Resource.memberState, hm]; rfl, hc⟩
  rw [hstate]
  cases q with
  | isBusy => simp [answer, Counts]
  | isAny =>
    simp only [answer, Counts, and_true, Bool.not_eq_true', List.isEmpty_eq_false_iff]
    exact ⟨List.exists_mem_of_ne_nil _, fun he => List.ne_nil_of_mem he.choose_spec⟩
  | isWaiting =>
    simp only [answer, Counts, List.any_eq_true, decide_eq_true_iff]
    exact exists_congr fun e => and_congr_right fun _ => by tauto

end Query

namespace Inst

variable {I I' : Inst} {e : Event} {sent : List DLPacket} {q : Query} {res : Name}

/-- The thread is inside a query and has assigned `QUERYING`, or has returned. -/
def Asked (I : Inst) : Prop :=
  match I.ctl with
  | .free _ => True
  | .query _ _ pc => pc ≠ .start
  | _ => False

lemma next_of_asked (h : I.Asked) : I.next = none := by
  rw [Asked] at h
  split at h
  · next b hctl => rw [next, hctl]
  · next q r pc hctl =>
    cases pc with
    | start => exact absurd rfl h
    | _ => rw [next, hctl]
  · exact h.elim

lemma asked_run (h : I.Asked) (hr : I.run = some (I', sent)) : I'.Asked := by
  obtain ⟨L, ctl⟩ := I
  cases ctl with
  | query q r pc =>
    cases pc with
    | start => exact absurd rfl h
    | short | collect =>
      obtain ⟨rfl, -⟩ := Prod.mk.inj (Option.some.inj hr)
      simp [Asked]
    | long b =>
      simp only [run, queryLock] at hr
      split_ifs at hr <;> obtain ⟨rfl, -⟩ := Prod.mk.inj (Option.some.inj hr) <;> simp [Asked]
    | shortListening | longListening b | longWoken b =>
      exact absurd hr (by simp [run, queryLock])
  | free b => exact absurd hr (by simp [run])
  | _ => exact h.elim

lemma asked_resumes (h : I.Asked) (hr : I.Resumes I') : I'.Asked := by
  obtain ⟨L, ctl⟩ := I
  rcases hr with rfl | hr | hr | ⟨n, hr⟩
  · exact h
  · rw [onWake] at hr
    split at hr <;> simp only [Option.some.injEq, reduceCtorEq] at hr
    all_goals next hctl => subst hr; subst hctl; first | exact h.elim | simp [Asked]
  · rw [onTimeout] at hr
    split at hr <;> simp only [Option.some.injEq, reduceCtorEq] at hr
    all_goals next hctl => subst hr; subst hctl; first | exact h.elim | simp [Asked]
  · obtain ⟨q, r, b, -, rfl, rfl⟩ := onElapsed_cases hr
    simp [Asked]

lemma asked_step (h : I.Asked) (he : e.isCall = false) (hs : I.step e = some (I', sent)) :
    I'.Asked := by
  rcases step_cases he hs with ⟨-, hr⟩ | ⟨-, hr⟩
  · exact asked_run h hr
  · exact asked_resumes (I := ⟨I'.lock, I.ctl⟩) h hr

/-- The resource that is queried exists. -/
def Known (I : Inst) : Prop := ∀ q r pc, I.ctl = .query q r pc → r ∈ I.lock.names

lemma known_step (h : I.Known) (hs : I.step e = some (I', sent)) : I'.Known := by
  intro q r pc hctl
  rcases step_call_or hs with ⟨c, rfl, -, rfl, -⟩ | he
  · cases c with
    | query q' r' =>
      obtain ⟨rfl, rfl, rfl⟩ := Ctl.query.inj hctl
      exact Lock.mem_names_createResource.mpr (.inl rfl)
    | acquire r' =>
      cases r' with
      | nil => rw [enter] at hctl; split_ifs at hctl
      | cons b bs => exact absurd hctl (by simp [enter])
    | _ => exact absurd hctl (by simp [enter])
  · have hjob : some (Job.query q r) = I.job := by
      rcases job_step he hs with hj | hj <;> rw [job, hctl] at hj
      · exact absurd hj (by simp)
      · exact hj
    refine mem_names_step ?_ hs
    rw [job] at hjob
    split at hjob <;> simp only [Option.some.injEq, Job.query.injEq, reduceCtorEq] at hjob
    next q₀ r₀ pc₀ hctl₀ => exact hjob.2 ▸ h q₀ r₀ pc₀ hctl₀

/-- While it listens, a query records all packets and clears nothing. -/
lemma memberState_query {es : List Event} {R : Resource}
    (hrun : Lib.Run proceed (fun _ e => e.isCall = false) I es I') (hasked : I.Asked)
    (hR : I.lock.getResource res = some R) (hq : R.state = .querying) :
    ∃ R', I'.lock.getResource res = some R' ∧ ∀ id, R'.memberState id =
      ((lastFrom id (heardPackets I.lock.id res es)).map
        fun pkt => State.ofByte pkt.state).or (R.memberState id) := by
  have hhas : I.lock.Has .querying res := by rw [Lock.Has, Lock.stateOf, hR, ← hq]; rfl
  have hinv := hrun.guard_invariant (I := fun I => I.Asked ∧ I.lock.Has .querying res)
    (fun I e I' h he hst => by
      obtain ⟨sent, hs⟩ := proceed_eq hst
      refine ⟨asked_step h.1 he hs, ((frame_step he hs).keeps fun _ a ha => ?_).has h.2⟩
      rw [next_of_asked h.1] at ha
      exact absurd ha (by simp)) ⟨hasked, hhas⟩
  have hhears : Lib.Run proceed
      (fun I e => e.isCall = false ∧ I.Hears res (fun _ => True) e) I es I' := by
    refine hinv.mono fun I e hguard => ?_
    obtain ⟨he, ha, hh⟩ := hguard
    refine ⟨he, ?_, fun R hR => ?_, fun R hR pkt => ?_⟩
    · simp [next_of_asked ha]
    all_goals
      rw [Lock.Has, Lock.stateOf, hR, Option.map_some] at hh
      simp [Option.some.inj hh]
  obtain ⟨R', hR', -, -, hmem⟩ := memberState_run hhears hR
  refine ⟨R', hR', fun id => ?_⟩
  simpa using hmem id

/-- The answer is read off the table. -/
lemma answer_collect {a : Bool} {R : Resource} (hR : I.lock.getResource res = some R)
    (hcollect : I.ctl = .query q res .collect) (hanswer : I.proceed .run = some I')
    (ha : I'.ctl = .free (some a)) : q.answer R.members = a := by
  obtain ⟨L, ctl⟩ := I
  obtain rfl := hcollect
  obtain rfl := Option.some.inj hanswer
  have h := Ctl.free.inj ha
  rw [show L.getResource res = some R from hR, Option.map_some] at h
  exact Option.some.inj h

/-- What has been heard since the query began, or a member from before, makes the answer true. -/
lemma answer_iff_fresh_or_stale {R R' : Resource} {pkts : List DLPacket}
    (hmem : ∀ i, R'.memberState i =
      ((lastFrom i pkts).map fun pkt => State.ofByte pkt.state).or (R.memberState i)) :
    q.answer R'.members = true ↔ q.Fresh pkts ∨ q.Stale R pkts := by
  rw [Query.answer_iff, Query.fresh_iff]
  constructor
  · rintro ⟨i, s, hs, hc⟩
    rw [hmem] at hs
    cases hl : lastFrom i pkts with
    | some pkt =>
      rw [hl] at hs
      obtain rfl : State.ofByte pkt.state = s := Option.some.inj hs
      exact .inl ⟨i, pkt, hl, hc⟩
    | none =>
      rw [hl] at hs
      exact .inr ⟨i, s, hs, hc, hl⟩
  · rintro (⟨i, pkt, hl, hc⟩ | ⟨i, s, hs, hc, hl⟩)
    · exact ⟨i, _, by rw [hmem, hl]; rfl, hc⟩
    · exact ⟨i, s, by rw [hmem, hl]; exact hs, hc⟩

/-- A query of the resource `a` in which a packet is heard. -/
def inquiry (q : Query) (pkt : DLPacket) : List Event :=
  [.call (.query q [97]), .run, .run, .deliver pkt, .run, .timeout, .run]

/-- A packet about the resource `a` from the member 2. -/
def fromPeer (s : State) : DLPacket :=
  ((DLPacket.new s.toByte 2).setResource [97]).setCount 1

end Inst
end DistLock
