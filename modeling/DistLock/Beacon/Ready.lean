/-
The beginning of `acquire()` (`DistributedLock.cc`).

For each resource `acquire()` assigns `STARTING` and calls `waitForReady`, which waits without a
timeout for the notification of `started_cv` that the beacon thread sends in every turn of its
loop.  The notification may come before the wait, but there is one in the next turn, so that the
wait ends as long as the beacon thread is at work.  Where it has ended, or sleeps on `beacon_cv`
because the notification of `setState` was lost, the wait never ends (`Readiness.woken_iff`).
-/
import DistLock.Beacon.Wakeup

namespace DistLock

/-- Whether the calling thread is in `waitForReady`, before the wait or in it. -/
inductive ReadyPc
  | outside
  | entering
  | asleep
  deriving DecidableEq

/-- The two threads of a resource with the notification of `started_cv`.  It is due when the beacon
thread has found that `running` is set. -/
structure Readiness where
  threads : Threads
  due : Bool
  wait : ReadyPc

/-- A step of the two threads as in `Tick`; the notification of `started_cv`; the calling thread
enters `waitForReady`, or begins to wait, or returns from the wait without a notification. -/
inductive ReadyEvent
  | tick (e : Tick)
  | notify
  | enter
  | sleep
  | spurious
  deriving DecidableEq

/-- The calling thread takes the step. -/
def Tick.ofApi : Tick → Bool
  | call _ | api => true
  | beacon | timeout | spurious => false

/-- The beacon thread takes the step. -/
def ReadyEvent.ofBeacon : ReadyEvent → Bool
  | tick .beacon | tick .timeout | notify => true
  | _ => false

/-- No wait returns without a notification or its timeout. -/
def ReadyEvent.isPrompt : ReadyEvent → Bool
  | tick .spurious | spurious => false
  | _ => true

/-- How many steps lead to the head of the loop, if the resource is not `IDLE`. -/
def BeaconPc.toHead : BeaconPc → ℕ
  | head => 0
  | napping => 1
  | resting => 2
  | sending _ => 3
  | building => 4
  | testing => 5
  | parking | parked | ended => 0

namespace Readiness

/-- The resource has been constructed. -/
def new (id : UInt32) (name : Name) : Readiness where
  threads := .new id name
  due := false
  wait := .outside

/-- Whether the notification is due after a step of the two threads. -/
def dueAfter (S : Readiness) : Tick → Bool
  | .beacon => S.threads.beacon = .head ∧ S.threads.res.running = true
  | _ => S.due

/-- The calling thread is busy with the wait, or the beacon thread with the notification. -/
def Blocks (S : Readiness) (e : Tick) : Prop :=
  (e.ofApi = true ∧ S.wait ≠ .outside) ∨ (e = .beacon ∧ S.due = true)

instance (S : Readiness) (e : Tick) : Decidable (S.Blocks e) :=
  inferInstanceAs (Decidable (_ ∨ _))

/-- One step.  `waitForReady` is called behind `setState(STARTING)`. -/
def step (S : Readiness) : ReadyEvent → Option Readiness
  | .tick e =>
    if S.Blocks e then none
    else (S.threads.step e).map fun T => { S with threads := T, due := S.dueAfter e }
  | .notify =>
    if S.due then
      some { S with due := false, wait := if S.wait = .asleep then .outside else S.wait }
    else none
  | .enter =>
    if S.wait = .outside ∧ S.threads.api = .free (some (.setState .starting)) then
      some { S with wait := .entering }
    else none
  | .sleep => if S.wait = .entering then some { S with wait := .asleep } else none
  | .spurious => if S.wait = .asleep then some { S with wait := .outside } else none

/-- The beacon thread does not come back to the notification: it has ended, or it waits on
`beacon_cv`, or is about to. -/
def Stuck (S : Readiness) : Prop :=
  S.threads.beacon = .parking ∨ S.threads.beacon = .parked ∨ S.threads.beacon = .ended

instance (S : Readiness) : Decidable S.Stuck := inferInstanceAs (Decidable (_ ∨ _))

/-- How many steps the beacon thread is away from the notification. -/
def toNotify (S : Readiness) : ℕ := if S.due then 1 else S.threads.beacon.toHead + 2

/-- The notifications of `setState` come in time, and the wait on `cv` does not return spuriously
unless the thread is to be stopped. -/
def Punctual (S : Readiness) : ReadyEvent → Prop
  | .tick t => S.threads.Punctual t
  | _ => True

instance (S : Readiness) : (e : ReadyEvent) → Decidable (S.Punctual e)
  | .tick t => inferInstanceAs (Decidable (S.threads.Punctual t))
  | .notify | .enter | .sleep | .spurious => isTrue trivial

end Readiness

/-! ### What holds in every run -/

namespace Threads

variable {T T' : Threads} {e : Tick}

/-- Behind `setState` the resource is in the state that has been assigned. -/
def Assigned (T : Threads) : Prop :=
  ∀ s, T.api = .free (some (.setState s)) → T.res.state = s

lemma assigned_step (h : T.Assigned) (hsound : T.Sound) (hs : T.step e = some T') :
    T'.Assigned := by
  intro s hs'
  cases effect_step hs with
  | notify op hf =>
    have hstate : T.res.state = op.state := hsound.stored op (by rw [hf]; rfl)
    rw [notifyBeacon_res, hstate]
    cases op with
    | setState s' =>
      cases hs'
      rfl
    | reset | release => cases hs'
  | move | transmit => exact h s hs'
  | call | store | build | send | clear | read | skip | drop | wake | join => cases hs'

/-- Only the calling thread changes the resource and its own position. -/
lemma res_of_not_api (he : e.ofApi = false) (hs : T.step e = some T') :
    T'.res = T.res ∧ T'.api = T.api := by
  cases effect_step hs with
  | move | transmit => exact ⟨rfl, rfl⟩
  | call | store | build | send | notify | clear | read | skip | drop | wake | join => cases he

end Threads

namespace Readiness

variable {S S' : Readiness} {e : ReadyEvent} {t : Tick} {es es' : List ReadyEvent} {id : UInt32}
  {name : Name}

/-- The invariant. -/
structure Sound (S : Readiness) : Prop where
  threads : S.threads.Sound
  assigned : S.threads.Assigned
  due : S.due = true → S.threads.beacon = .testing
  wait : S.wait ≠ .outside → S.threads.api = .free (some (.setState .starting))

lemma step_tick_inv (hs : S.step (.tick t) = some S') :
    ¬ S.Blocks t ∧ ∃ T, S.threads.step t = some T ∧
      S' = { S with threads := T, due := S.dueAfter t } := by
  simp only [step] at hs
  split_ifs at hs with h
  obtain ⟨T, hT, rfl⟩ := Option.map_eq_some_iff.mp hs
  exact ⟨h, T, hT, rfl⟩

lemma sound_new : (new id name).Sound where
  threads := Threads.sound_new id name
  assigned s h := by cases h
  due h := by cases h
  wait h := absurd rfl h

/-- What the two threads do to the position of the beacon thread while the notification is due. -/
lemma testing_step {T T' : Threads} (hb : T.beacon = .testing) (ht : t ≠ .beacon)
    (hs : T.step t = some T') : T'.beacon = .testing := by
  cases Threads.effect_step hs with
  | notify op =>
    show T.notifyBeacon.beacon = _
    rw [Threads.notifyBeacon_beacon, hb]
    rfl
  | wake =>
    show T.notifyCv.beacon = _
    rw [Threads.notifyCv_beacon, hb]
    rfl
  | transmit => exact absurd rfl ht
  | move hm =>
    cases hm with
    | timeout h | unpark h | abandon h =>
      rw [hb] at h
      cases h
    | _ => exact absurd rfl ht
  | call | store | build | send | clear | read | skip | drop | join => exact hb

lemma sound_step (h : S.Sound) (hs : S.step e = some S') : S'.Sound := by
  cases e with
  | tick t =>
    obtain ⟨hblocks, T, hT, rfl⟩ := step_tick_inv hs
    refine ⟨Threads.sound_step h.threads hT, Threads.assigned_step h.assigned h.threads hT,
      fun hdue => ?_, fun hw => ?_⟩
    · by_cases ht : t = .beacon
      · subst ht
        obtain ⟨hhead, hrunning⟩ := of_decide_eq_true hdue
        rw [Threads.step, Threads.runBeacon, hhead] at hT
        rw [← Option.some.inj hT]
        exact if_pos hrunning
      · refine testing_step (h.due ?_) ht hT
        cases t with
        | beacon => exact absurd rfl ht
        | _ => exact hdue
    · have hapi : t.ofApi = false := by
        rw [Bool.eq_false_iff]
        exact fun hapi => hblocks (.inl ⟨hapi, hw⟩)
      exact (Threads.res_of_not_api hapi hT).2.trans (h.wait hw)
  | notify =>
    simp only [step] at hs
    split_ifs at hs
    · obtain rfl := Option.some.inj hs
      exact ⟨h.threads, h.assigned, fun h => (by cases h), fun hw => absurd rfl hw⟩
    · obtain rfl := Option.some.inj hs
      exact ⟨h.threads, h.assigned, fun h => (by cases h), h.wait⟩
  | enter =>
    simp only [step] at hs
    split_ifs at hs with hif
    obtain rfl := Option.some.inj hs
    exact ⟨h.threads, h.assigned, h.due, fun _ => hif.2⟩
  | sleep =>
    simp only [step] at hs
    split_ifs at hs with hif
    obtain rfl := Option.some.inj hs
    exact ⟨h.threads, h.assigned, h.due, fun _ => h.wait (by simp [hif])⟩
  | spurious =>
    simp only [step] at hs
    split_ifs at hs
    obtain rfl := Option.some.inj hs
    exact ⟨h.threads, h.assigned, h.due, fun hw => absurd rfl hw⟩

/-- While the calling thread waits, the resource is `STARTING`. -/
lemma Sound.starting (h : S.Sound) (hw : S.wait = .asleep) :
    S.threads.res.state = .starting := h.assigned _ (h.wait (by simp [hw]))

/-! ### The wait -/

/-- Where nobody notifies, nobody will. -/
lemma stuck_step (h : S.Sound) (hw : S.wait = .asleep) (hstuck : S.Stuck)
    (he : e.isPrompt = true) (hs : S.step e = some S') : S'.wait = .asleep ∧ S'.Stuck := by
  cases e with
  | tick t =>
    obtain ⟨hblocks, T, hT, rfl⟩ := step_tick_inv hs
    refine ⟨hw, ?_⟩
    cases Threads.effect_step hT with
    | call | store | build | send | notify | clear | read | skip | drop | wake | join =>
      exact absurd (.inl ⟨rfl, by simp [hw]⟩) hblocks
    | transmit m hb =>
      rw [Stuck, hb] at hstuck
      simp at hstuck
    | move hm =>
      cases hm with
      | leave => exact .inr (.inr rfl)
      | idle => exact .inl rfl
      | park => exact .inr (.inl rfl)
      | abandon => exact .inr (.inr rfl)
      | unpark => cases he
      | loop hb | busy hb | build hb | nap hb | timeout hb =>
        rw [Stuck, hb] at hstuck
        simp at hstuck
  | notify =>
    simp only [step] at hs
    split_ifs at hs with hdue
    all_goals
      rw [Stuck, h.due hdue] at hstuck
      simp at hstuck
  | enter | sleep =>
    simp only [step, hw] at hs
    cases hs
  | spurious => cases he

/-- Where somebody is going to notify, it comes closer, or it has happened. -/
lemma closer_step (h : S.Sound) (hw : S.wait = .asleep) (hstuck : ¬ S.Stuck)
    (he : e.isPrompt = true) (hs : S.step e = some S') :
    S'.wait = .outside ∧ e = .notify ∨
      S'.wait = .asleep ∧ ¬ S'.Stuck ∧ S'.toNotify + e.ofBeacon.toNat ≤ S.toNotify := by
  cases e with
  | tick t =>
    obtain ⟨hblocks, T, hT, rfl⟩ := step_tick_inv hs
    refine .inr ⟨hw, ?_⟩
    have hdue : t = .beacon → S.due = false := by
      intro ht
      rw [Bool.eq_false_iff]
      exact fun hdue => hblocks (.inr ⟨ht, hdue⟩)
    cases Threads.effect_step hT with
    | call | store | build | send | notify | clear | read | skip | drop | wake | join =>
      exact absurd (.inl ⟨rfl, by simp [hw]⟩) hblocks
    | transmit m hb =>
      simp [Stuck, toNotify, dueAfter, hb, hdue, BeaconPc.toHead, ReadyEvent.ofBeacon]
    | move hm =>
      cases hm with
      | loop hb hr =>
        simp [Stuck, toNotify, dueAfter, hb, hr, hdue, BeaconPc.toHead, ReadyEvent.ofBeacon]
      | leave hb hr =>
        -- the thread of a resource that is not running has ended
        have hapi := h.wait (by simp [hw])
        have hended := h.threads.ended_of (by simp [hapi]) (by simp [hapi]) hr
        exact absurd (.inr (.inr hended)) hstuck
      | idle hb hi => exact absurd (hi.symm.trans (h.starting hw)) (by simp)
      | park hb => exact absurd (.inl hb) hstuck
      | busy hb | build hb | nap hb =>
        simp [Stuck, toNotify, dueAfter, hb, hdue, BeaconPc.toHead, ReadyEvent.ofBeacon]
      | timeout hb =>
        have hnot : S.due = false := by
          rw [Bool.eq_false_iff]
          intro hdue
          rw [h.due hdue] at hb
          cases hb
        simp [Stuck, toNotify, dueAfter, hb, hnot, BeaconPc.toHead, ReadyEvent.ofBeacon]
      | unpark | abandon => cases he
  | notify =>
    simp only [step, hw] at hs
    split_ifs at hs with hdue
    rw [← Option.some.inj hs]
    exact .inl ⟨rfl, rfl⟩
  | enter | sleep =>
    simp only [step, hw] at hs
    cases hs
  | spurious => cases he

lemma toNotify_le (S : Readiness) : S.toNotify ≤ 7 := by
  have hpc : S.threads.beacon.toHead ≤ 5 := by
    cases S.threads.beacon <;> simp [BeaconPc.toHead]
  rw [toNotify]
  split_ifs <;> omega

/-- The beacon thread is not blocked. -/
lemma enabled_of_not_stuck (hstuck : ¬ S.Stuck) :
    ∃ e, ReadyEvent.ofBeacon e = true ∧ (S.step e).isSome = true := by
  cases hdue : S.due with
  | true => exact ⟨.notify, rfl, by simp [step, hdue]⟩
  | false =>
    have hfree : ¬ S.Blocks .beacon := by simp [Blocks, Tick.ofApi, hdue]
    cases hb : S.threads.beacon with
    | parking | parked | ended => exact absurd (by simp [Stuck, hb]) hstuck
    | napping =>
      exact ⟨.tick .timeout, rfl, by simp [step, Blocks, Tick.ofApi, Threads.step, hb]⟩
    | _ => exact ⟨.tick .beacon, rfl, by
        simp only [step, if_neg hfree]
        simp [Threads.step, Threads.runBeacon, hb]⟩

/-- **`waitForReady` returns if and only if the beacon thread is at work.**  If it has ended when
the calling thread begins to wait, or if it waits on `beacon_cv`, then nothing but a spurious
return ends the wait, in any run.  Otherwise the beacon thread takes at most 7 steps until the wait
has ended, and it can always take one.  It is at work in every run in which the notifications of
`setState` come in time and the wait on `cv` does not return spuriously, unless the resource has
been released before. -/
theorem woken_iff (hrun : Lib.Run step (fun _ _ => True) (new id name) es S)
    (hw : S.wait = .asleep) :
    (S.Stuck → ∀ es' S', Lib.Run step (fun _ e => e.isPrompt = true) S es' S' →
      S'.wait = .asleep) ∧
    (¬ S.Stuck → ∀ es' S',
      Lib.Run step (fun S e => e.isPrompt = true ∧ S.wait = .asleep) S es' S' →
        es'.countP ReadyEvent.ofBeacon ≤ 7 ∧
          (S'.wait = .outside ∨ ∃ e, ReadyEvent.ofBeacon e = true ∧ (S'.step e).isSome = true)) ∧
    (Lib.Run step Punctual (new id name) es S → S.threads.res.running = true → ¬ S.Stuck) := by
  have hkeep : ∀ (S : Readiness) e S', S.Sound → True → S.step e = some S' → S'.Sound :=
    fun _ _ _ h _ hs => sound_step h hs
  have h : S.Sound := hrun.invariant hkeep sound_new
  refine ⟨fun hstuck es' S' hrun' => ?_, fun hstuck es' S' hrun' => ?_, fun hpun hr => ?_⟩
  · have hinv : S'.Sound ∧ S'.wait = .asleep ∧ S'.Stuck := by
      refine hrun'.invariant (I := fun S => S.Sound ∧ S.wait = .asleep ∧ S.Stuck) ?_
        ⟨h, hw, hstuck⟩
      rintro S e S' ⟨h, hw, hstuck⟩ he hs
      exact ⟨sound_step h hs, stuck_step h hw hstuck he hs⟩
    exact hinv.2.1
  · -- the beacon thread comes closer to its notification with every step
    let μ : Readiness → ℕ := fun S => if S.wait = .asleep then S.toNotify else 0
    obtain ⟨⟨-, hend⟩, hcount⟩ := hrun'.countP_add_le (μ := μ)
      (I := fun S => S.Sound ∧ (S.wait = .outside ∨ S.wait = .asleep ∧ ¬ S.Stuck))
      ReadyEvent.ofBeacon (fun S e S' hS hc hs => by
        obtain ⟨h, hcase⟩ := hS
        have hstuck : ¬ S.Stuck := by
          rcases hcase with hout | hcase
          · rw [hc.2] at hout
            cases hout
          · exact hcase.2
        have hμ : μ S = S.toNotify := if_pos hc.2
        rcases closer_step h hc.2 hstuck hc.1 hs with ⟨hout, rfl⟩ | ⟨hasleep, hstuck', hle⟩
        · refine ⟨⟨sound_step h hs, .inl hout⟩, ?_⟩
          have hμ' : μ S' = 0 := if_neg (by simp [hout])
          have hdue : S.due = true := by simpa [step] using congrArg Option.isSome hs
          rw [hμ, hμ', toNotify, if_pos hdue]
          exact le_rfl
        · refine ⟨⟨sound_step h hs, .inr ⟨hasleep, hstuck'⟩⟩, ?_⟩
          have hμ' : μ S' = S'.toNotify := if_pos hasleep
          rw [hμ, hμ']
          exact hle) ⟨h, .inr ⟨hw, hstuck⟩⟩
    have hμ : μ S ≤ 7 := by
      have hS : μ S = S.toNotify := if_pos hw
      rw [hS]
      exact S.toNotify_le
    refine ⟨by omega, hend.imp_right fun hend => enabled_of_not_stuck hend.2⟩
  · -- with notifications in time, a beacon thread that waits means that the state is `IDLE`
    have hawake : S.Sound ∧ S.threads.Awake := by
      refine hpun.invariant (I := fun S => S.Sound ∧ S.threads.Awake) ?_
        ⟨sound_new, Threads.awake_new id name⟩
      rintro S e S' ⟨h, hawake⟩ hc hs
      refine ⟨sound_step h hs, ?_⟩
      cases e with
      | tick t =>
        obtain ⟨-, T, hT, rfl⟩ := step_tick_inv hs
        exact Threads.awake_step hawake h.threads hc hT
      | notify | enter | sleep | spurious =>
        simp only [step] at hs
        split_ifs at hs <;> rw [← Option.some.inj hs] <;> exact hawake
    have hapi : ¬ S.threads.api.InSetState := by
      rw [h.wait (by simp [hw])]
      exact fun hin => hin
    rintro (hb | hb | hb)
    · exact absurd (hawake.2.idle_of_parked hapi (.inl hb)) (by simp [h.starting hw])
    · exact absurd (hawake.2.idle_of_parked hapi (.inr hb)) (by simp [h.starting hw])
    · exact absurd (hr.symm.trans (hawake.2.ended hb)) (by simp)

/-- The calling thread is in the wait before the beacon thread has done anything. -/
def entersAtOnce : List ReadyEvent :=
  [.tick (.call (.setState .starting)), .tick .api, .tick .api, .tick .api, .tick .api, .enter,
    .sleep]

/-- The notification of `setState` falls between the test of the beacon thread and its wait. -/
def entersLate : List ReadyEvent :=
  [.tick .beacon, .notify, .tick .beacon] ++ entersAtOnce

/-- The first wait comes to its end, and the second one does not. -/
theorem woken_iff_late :
    (∃ S, Lib.Run step Punctual (new 1 [97]) entersAtOnce S ∧ S.wait = .asleep ∧ ¬ S.Stuck) ∧
    ∃ S, Lib.Run step (fun _ _ => True) (new 1 [97]) entersLate S ∧ S.wait = .asleep ∧
      ∀ es' S', Lib.Run step (fun _ e => e.isPrompt = true) S es' S' → S'.wait = .asleep := by
  constructor
  · have hexec : (Lib.exec step Punctual (new 1 [97]) entersAtOnce).map
        (fun S => (S.wait, S.threads.res.running)) = some (.asleep, true) := by decide
    obtain ⟨S, hS, hend⟩ := Option.map_eq_some_iff.mp hexec
    obtain ⟨hw, hr⟩ := Prod.mk.inj hend
    have hrun := Lib.Run.of_exec hS
    have hnot := (woken_iff (hrun.mono fun _ _ _ => trivial) hw).2.2 hrun hr
    exact ⟨S, hrun, hw, hnot⟩
  · have hexec : (Lib.exec step (fun _ _ => True) (new 1 [97]) entersLate).map
        (fun S => (S.wait, S.threads.beacon)) = some (.asleep, .parking) := by decide
    obtain ⟨S, hS, hend⟩ := Option.map_eq_some_iff.mp hexec
    obtain ⟨hw, hb⟩ := Prod.mk.inj hend
    have hrun := Lib.Run.of_exec hS
    exact ⟨S, hrun, hw, (woken_iff hrun hw).1 (.inl hb)⟩

end Readiness
end DistLock
