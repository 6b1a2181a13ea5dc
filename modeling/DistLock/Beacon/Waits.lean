/-
How far the calling thread is from its next move (`DistributedLock.cc`).

In `setState` and `reset` it takes a few steps that never block.  In `waitForReady` it enters the
wait and waits for the beacon thread of one resource, and for no other (`Node.Waits`).  Either way
the number of the steps that are left is bounded, and nobody makes it larger.
-/
import DistLock.Acquire.Interrupt
import DistLock.Beacon.Tied

namespace DistLock

/-! ### The steps of an operation -/

/-- The calling thread is in `setState` or `reset`, whose steps do not block. -/
def ApiPc.Returning : ApiPc → Prop
  | building op | sending op _ | notifying op => op ≠ .release
  | clearing => True
  | _ => False

/-- The steps that are left of it, at most. -/
def ApiPc.left : ApiPc → ℕ
  | building _ => 4
  | sending _ _ => 3
  | notifying _ => 2
  | clearing => 1
  | _ => 0

namespace Threads

variable {T T' : Threads} {e : Tick}

/-- A notification of `beacon_cv` would be lost. -/
def Misses (T : Threads) : Prop := T.beacon = .parking ∧ T.res.state ≠ .idle

instance (T : Threads) : Decidable T.Misses := inferInstanceAs (Decidable (_ ∧ _))

/-- The steps that are left until the operation returns, with the one of the beacon thread for
whose wait the notification has to come in time. -/
def left (T : Threads) : ℕ := T.api.left + if T.Misses then 1 else 0

lemma left_le (T : Threads) : T.left ≤ 5 := by
  have hapi : T.api.left ≤ 4 := by cases T.api <;> simp [ApiPc.left]
  rw [left]
  split_ifs <;> omega

lemma left_lt (h : T'.Misses → T.Misses) (hapi : T'.api.left < T.api.left) : T'.left < T.left := by
  rw [left, left]
  split_ifs with h₁ h₂
  · omega
  · exact absurd (h h₁) h₂
  · omega
  · omega

/-- Each step of the operation brings it closer to its end. -/
lemma returning_step (h : T.api.Returning) (hs : T.step .api = some T') :
    (T'.api.isFree = false → T'.api.Returning) ∧ T'.left < T.left ∧
      T'.res.running = T.res.running := by
  cases effect_step hs with
  | build op hf | send op m hf =>
    rw [hf] at h
    exact ⟨fun _ => h, left_lt (fun hm => hm) (by simp [hf, ApiPc.left]), rfl⟩
  | notify op hf =>
    rw [hf] at h
    have hmiss : Misses { T.notifyBeacon with api := op.rest } → T.Misses := by
      rintro ⟨hb, hs⟩
      change T.notifyBeacon.beacon = .parking at hb
      change T.notifyBeacon.res.state ≠ .idle at hs
      rw [notifyBeacon_res] at hs
      rw [notifyBeacon_beacon] at hb
      split_ifs at hb
      exact ⟨hb, hs⟩
    have hrunning : T.notifyBeacon.res.running = T.res.running := by rw [notifyBeacon_res]
    have hleft : op.rest.left < T.api.left := by cases op <;> simp [hf, Op.rest, ApiPc.left]
    refine ⟨fun hfree => ?_, left_lt hmiss hleft, hrunning⟩
    cases op with
    | setState s => cases hfree
    | reset => trivial
    | release => exact absurd rfl h
  | clear hf =>
    refine ⟨fun hfree => ?_, left_lt (fun hm => hm) (by simp [hf, ApiPc.left]), rfl⟩
    cases hfree
  | store op hf | read hf | skip hf | drop hf | wake hf | join hf =>
    rw [hf] at h
    exact h.elim
  | move hm => cases hm

/-- And it can be taken. -/
lemma isSome_step_of_returning (h : T.api.Returning) : (T.step .api).isSome = true := by
  rw [step, runApi]
  cases hapi : T.api <;> rw [hapi] at h <;> first | rfl | exact h.elim

/-- The beacon thread goes to its wait only for a resource that is `IDLE`. -/
lemma left_of_not_api (he : e.ofApi = false) (hs : T.step e = some T') :
    T'.left + (if T.Misses then 1 else 0) ≤ T.left := by
  have hapi := (res_of_not_api he hs).2
  have hnot : ¬ T'.Misses := by
    rintro ⟨hb, hidle⟩
    cases effect_step hs with
    | move hm =>
      obtain rfl := hb
      cases hm with
      | idle _ hi => exact hidle hi
    | transmit => cases hb
    | call | store | build | send | notify | clear | read | skip | drop | wake | join => cases he
  rw [left, left, hapi, if_neg hnot]
  exact le_rfl

end Threads

/-- The calling thread takes the step, in `waitForReady`. -/
def ReadyEvent.ofWait : ReadyEvent → Bool
  | enter | sleep | spurious => true
  | tick _ | notify => false

namespace Readiness

variable {S S' : Readiness} {e : ReadyEvent}

/-- How many steps are left until `waitForReady` returns. -/
def toWake (S : Readiness) : ℕ :=
  match S.wait with
  | .outside => 9
  | .entering => 8
  | .asleep => S.toNotify

lemma toWake_of_asleep (h : S.wait = .asleep) : S.toWake = S.toNotify := by rw [toWake, h]

lemma toWake_congr (hw : S'.wait = S.wait) (hne : S.wait ≠ .asleep) : S'.toWake = S.toWake := by
  rw [toWake, toWake, hw]
  split
  · rfl
  · rfl
  · next h => exact absurd h hne

lemma toWake_le (S : Readiness) : S.toWake ≤ 9 := by
  have h := S.toNotify_le
  rw [toWake]
  split <;> omega

/-- The beacon thread does not move away from the end of the operation. -/
lemma left_step (h : S.Sound) (hof : ∀ t, e = .tick t → t.ofApi = false)
    (hs : S.step e = some S') :
    S'.threads.left + (if e.ofBeacon = true ∧ S.threads.Misses then 1 else 0) ≤
      S.threads.left := by
  cases e with
  | tick t =>
    obtain ⟨-, T, hT, rfl⟩ := step_tick_inv hs
    have hle := Threads.left_of_not_api (hof t rfl) hT
    show T.left + _ ≤ _
    by_cases hm : S.threads.Misses
    · rw [if_pos hm] at hle
      split_ifs <;> omega
    · rw [if_neg fun h => hm h.2]
      rwa [if_neg hm] at hle
  | notify =>
    -- then it is not about to wait
    have hdue : S.due = true := by simpa [step] using congrArg Option.isSome hs
    have hnot : ¬ S.threads.Misses := fun hm => by simp [Threads.Misses, h.due hdue] at hm
    rw [if_neg fun hm => hnot hm.2]
    simp only [step] at hs
    split_ifs at hs <;> rw [← Option.some.inj hs] <;> exact le_rfl
  | enter | sleep | spurious =>
    simp only [step] at hs
    split_ifs at hs
    rw [← Option.some.inj hs]
    exact le_rfl

/-- Nor from the end of the wait, and each step of the wait brings it closer. -/
lemma toWake_step (h : S.Sound) (hwork : S.wait = .asleep → ¬ S.Stuck ∧ e.isPrompt = true)
    (hnot : ¬ (S.wait = .asleep ∧ S'.wait = .outside)) (hs : S.step e = some S') :
    S'.toWake + (if e.ofWait = true ∨ e.ofBeacon = true ∧ S.wait = .asleep then 1 else 0) ≤
      S.toWake := by
  by_cases hw : S.wait = .asleep
  · obtain ⟨hstuck, hprompt⟩ := hwork hw
    obtain ⟨hw', -, hle⟩ := (closer_step h hw hstuck hprompt hs).resolve_left
      fun hend => hnot ⟨hw, hend.1⟩
    have hof : e.ofWait = false := by
      cases e with
      | enter | sleep => simp [step, hw] at hs
      | spurious => cases hprompt
      | tick | notify => rfl
    rw [toWake_of_asleep hw, toWake_of_asleep hw']
    cases hb : e.ofBeacon <;> rw [hb] at hle <;> simpa [hof, hb, hw] using hle
  · simp only [hw, and_false, or_false]
    cases e with
    | tick t =>
      obtain ⟨-, T, hT, rfl⟩ := step_tick_inv hs
      exact Nat.le_of_eq (toWake_congr rfl hw)
    | notify =>
      simp only [step, hw, if_false] at hs
      split_ifs at hs
      rw [← Option.some.inj hs]
      exact Nat.le_of_eq (toWake_congr rfl hw)
    | enter =>
      simp only [step] at hs
      split_ifs at hs with hif
      rw [← Option.some.inj hs]
      simp [toWake, hif.1, ReadyEvent.ofWait]
    | sleep =>
      simp only [step] at hs
      split_ifs at hs with hif
      rw [← Option.some.inj hs]
      have hle := toNotify_le { S with wait := .asleep }
      simp only [toWake, hif, ReadyEvent.ofWait, if_true]
      omega
    | spurious => simp [step, hw] at hs

end Readiness

namespace Node

variable {N N' : Node} {e : NodeEvent} {sent : List DLPacket} {n : Name}

/-! ### The waits for the beacon threads -/

/-- The wait of `waitForReady` is that of the calling thread, which has returned from
`setState(STARTING)` then. -/
structure Waits (N : Node) : Prop where
  wait : ∀ n, (N.ready n).wait ≠ .outside → N.op = none ∧ N.inst.waitsOn = some (.startedCv n)
  late : ∀ n, N.inst.waitsOn = some (.startedCv n) → N.late = none
  starting : ∀ n, N.inst.waitsOn = some (.startedCv n) →
    N.op = some n ∧ (N.ready n).threads.api.stored = some (.setState .starting) ∨
      N.op = none ∧ (N.ready n).threads.api = .free (some (.setState .starting))

lemma run_of_waitsOn {I : Inst} {c : CondVar} (h : I.waitsOn = some c) : I.run = none := by
  rw [Inst.waitsOn] at h
  split at h
  case h_7 => cases h
  all_goals
    next hctl => rw [Inst.run, hctl]; rfl

/-- Nothing but the beacon thread, or a spurious return, ends the wait. -/
lemma waiting_step {e' : Event} {I : Inst} {l : List DLPacket}
    (h : N.inst.waitsOn = some (.startedCv n)) (ht : N.takes e' = true)
    (hs : N.inst.step e' = some (I, l)) : False := by
  obtain ⟨scope, retry, rest, hctl⟩ := Inst.waitsOn_startedCv.mp h
  cases e' with
  | call c => simp [Inst.step, hctl] at hs
  | run => exact absurd (hs.symm.trans (run_of_waitsOn h)) (by simp)
  | timeout => simp [Inst.step, Inst.onTimeout, hctl] at hs
  | wake => simp [takes, h] at ht
  | elapsed n => simp [Inst.step, Inst.onElapsed, hctl] at hs
  | beacon res | deliver pkt => cases ht

lemma actionPerformed_waiting (pkt : DLPacket) (h : N.inst.waitsOn = some (.startedCv n)) :
    (N.inst.actionPerformed pkt).ctl = N.inst.ctl := by
  obtain ⟨scope, retry, rest, hctl⟩ := Inst.waitsOn_startedCv.mp h
  rcases Inst.actionPerformed_adquire pkt hctl with ⟨-, heq⟩ | ⟨⟨-, R, -, hR⟩, -⟩
  · rw [heq, Inst.hear_ctl]
  · rw [Inst.heeds, hctl] at hR
    cases hR

/-- A packet does not lead to the wait. -/
lemma waitsOn_actionPerformed (pkt : DLPacket)
    (h : (N.inst.actionPerformed pkt).waitsOn = some (.startedCv n)) :
    N.inst.waitsOn = some (.startedCv n) := by
  rcases N.inst.actionPerformed_cases pkt with heq | hw
  · rw [heq] at h
    rw [Inst.waitsOn] at h ⊢
    rwa [Inst.hear_ctl] at h
  · rw [Inst.waitsOn_of_onWake hw] at h
    cases h

/-- The wait begins behind `setState(STARTING)`. -/
lemma waitsOn_run {I I' : Inst} {l : List DLPacket} (hr : I.run = some (I', l))
    (h : I'.waitsOn = some (.startedCv n)) : I.next = some (n, .setState .starting) := by
  obtain ⟨scope, retry', rest', hctl'⟩ := Inst.waitsOn_startedCv.mp h
  obtain ⟨retry, pc, hctl⟩ := Inst.adquire_of_step (e := .run) rfl hr hctl'
  rw [Inst.run, hctl] at hr
  cases pc with
  | start rest =>
    cases rest with
    | nil =>
      obtain ⟨rfl, -⟩ := Prod.mk.inj (Option.some.inj hr)
      cases hctl'
    | cons r rest =>
      obtain ⟨rfl, -⟩ := Prod.mk.inj (Option.some.inj hr)
      obtain ⟨-, -, hpc⟩ := Ctl.adquire.inj hctl'
      obtain ⟨rfl, -⟩ := Pc.waitForReady.inj hpc
      rw [Inst.next, hctl]
  | loop =>
    simp only [Inst.adquireLock] at hr
    split_ifs at hr <;> obtain ⟨rfl, -⟩ := Prod.mk.inj (Option.some.inj hr) <;> cases hctl'
  | checking rest =>
    cases rest with
    | nil =>
      obtain ⟨rfl, -⟩ := Prod.mk.inj (Option.some.inj hr)
      cases hctl'
    | cons r rest =>
      simp only [Inst.adquireLock] at hr
      split_ifs at hr <;> obtain ⟨rfl, -⟩ := Prod.mk.inj (Option.some.inj hr) <;> cases hctl'
  | starting rest | announcing rest | resetting rest =>
    cases rest <;> obtain ⟨rfl, -⟩ := Prod.mk.inj (Option.some.inj hr) <;> cases hctl'
  | marking r rest | backoff =>
    obtain ⟨rfl, -⟩ := Prod.mk.inj (Option.some.inj hr)
    cases hctl'
  | waitForReady | listening | colliding | backingOff => cases hr

/-- The calling thread takes its steps, so that the waits are outside. -/
lemma Waits.outside (h : N.Waits) (hw : ∀ m, N.inst.waitsOn ≠ some (.startedCv m)) (n : Name) :
    (N.ready n).wait = .outside := by
  by_contra hout
  exact hw n (h.wait n hout).2

lemma wait_of_tick {R R' : Readiness} {t : Tick} (hs : R.step (.tick t) = some R') :
    R'.wait = R.wait := by
  obtain ⟨-, T, -, rfl⟩ := Readiness.step_tick_inv hs
  rfl

lemma recount_wait (e' : Event) : (N.recount e' n).wait = (N.ready n).wait := by
  cases e' with
  | call c =>
    rw [recount]
    dsimp only
    split_ifs <;> rfl
  | _ => rfl

/-- The steps outside of the operations do not lead to the wait. -/
lemma waitsOn_of_own {e' : Event} {I : Inst} {l : List DLPacket} (ht : N.takes e' = true)
    (hs : N.inst.step e' = some (I, l)) : I.waitsOn ≠ some (.startedCv n) := by
  intro hw
  cases e' with
  | call c =>
    obtain ⟨-, rfl, -⟩ := Inst.step_call hs
    obtain ⟨scope, retry, rest, hctl⟩ := Inst.waitsOn_startedCv.mp hw
    cases c with
    | acquire res =>
      cases res with
      | nil =>
        rw [Inst.enter] at hctl
        split_ifs at hctl
        cases hctl
      | cons b bs => cases hctl
    | _ => cases hctl
  | run =>
    rw [takes, waitsOn_run hs hw] at ht
    cases ht
  | timeout =>
    rw [waitsOn_of_onTimeout (Inst.step_timeout hs).1] at hw
    cases hw
  | wake =>
    rw [Inst.waitsOn_of_onWake (Inst.step_wake hs).1] at hw
    cases hw
  | elapsed n =>
    obtain ⟨q, res, b, -, -, rfl⟩ := Inst.onElapsed_cases (Inst.step_elapsed hs).1
    cases hw
  | beacon res | deliver pkt => cases ht

/-- **Every step keeps the invariant of the waits.** -/
theorem Does.waits (hN : N.Sound) (h : N.Waits) (hd : N.Does e N' sent) : N'.Waits := by
  cases hd with
  | @own e I l hop ht hs =>
    have hout := h.outside fun m hm => waiting_step hm ht hs
    have hnot : ∀ n, I.waitsOn ≠ some (.startedCv n) := fun n => waitsOn_of_own ht hs
    exact {
      wait := fun n hn => absurd ((recount_wait e).trans (hout n)) hn
      late := fun n hn => rfl
      starting := fun n hn => absurd hn (hnot n) }
  | @store res a op R R' I l hop hnext hmem ha hR hR' hr =>
    have hout := h.outside fun m hm => by simp [run_of_waitsOn hm] at hr
    refine ⟨fun n hn => absurd ?_ hn, fun n hn => rfl, fun n hn => .inl ?_⟩
    · show (Function.update N.ready res R' n).wait = .outside
      rcases eq_or_ne n res with rfl | hne
      · rw [Function.update_self, wait_of_tick hR', wait_of_tick hR]
        exact hout n
      · rw [Function.update_of_ne hne]
        exact hout n
    · obtain ⟨rfl, rfl⟩ := Prod.mk.inj (Option.some.inj (hnext.symm.trans (waitsOn_run hr hn)))
      obtain rfl := Option.some.inj ha
      refine ⟨rfl, ?_⟩
      show (Function.update N.ready res R' res).threads.api.stored = _
      rw [Function.update_self, threads_of_store hR hR']
      rfl
  | @api res R hop hR =>
    have hout : ∀ n, (N.ready n).wait = .outside := by
      intro n
      by_contra hn
      exact absurd (hop.symm.trans (h.wait n hn).1) (by simp)
    refine ⟨fun n hn => absurd ?_ hn, fun n hn => rfl, fun n hn => ?_⟩
    · show (Function.update N.ready res R n).wait = .outside
      rcases eq_or_ne n res with rfl | hne
      · rw [Function.update_self, wait_of_tick hR]
        exact hout n
      · rw [Function.update_of_ne hne]
        exact hout n
    · -- the thread was there before
      have hw : N.inst.waitsOn = some (.startedCv n) := by
        dsimp only at hn
        split_ifs at hn
        · rcases N.stopped_cases res with heq | ⟨hnext, l, hr⟩
          · rwa [heq] at hn
          · have hstart := waitsOn_run hr hn
            rw [hnext] at hstart
            cases hstart
        · exact hn
      obtain ⟨hop', hst⟩ := (h.starting n hw).resolve_right fun hend => by simp [hop] at hend
      obtain rfl : res = n := Option.some.inj (hop.symm.trans hop')
      dsimp only
      rw [Function.update_self]
      obtain ⟨-, T, hT, rfl⟩ := Readiness.step_tick_inv hR
      cases Threads.effect_step hT with
      | build op hf =>
        rw [hf] at hst
        exact .inl ⟨rfl, hst⟩
      | send op m hf =>
        rw [hf] at hst
        exact .inl ⟨rfl, hst⟩
      | notify op hf =>
        rw [hf] at hst
        obtain rfl := Option.some.inj hst
        exact .inr ⟨rfl, rfl⟩
      | store op hf | clear hf | read hf | skip hf | drop hf | wake hf | join hf =>
        rw [hf] at hst
        cases hst
      | move hm => cases hm
  | @ready res e R hp hR =>
    by_cases hwake : N.wakes res R = true
    · simp only [hwake, if_true]
      obtain ⟨hasleep, hout⟩ : (N.ready res).wait = .asleep ∧ R.wait = .outside := by
        simpa [wakes] using hwake
      have hw := (h.wait res (by simp [hasleep])).2
      have hnone : (N.inst.onWake.getD N.inst).waitsOn = none := by
        obtain ⟨scope, retry, rest, hctl⟩ := Inst.waitsOn_startedCv.mp hw
        rw [Inst.onWake, hctl]
        rfl
      refine ⟨fun n hn => absurd ?_ hn, fun n hn => rfl, fun n hn => ?_⟩
      · show (Function.update N.ready res R n).wait = .outside
        rcases eq_or_ne n res with rfl | hne
        · rw [Function.update_self]
          exact hout
        · rw [Function.update_of_ne hne]
          by_contra hn
          have := (h.wait n hn).2.symm.trans hw
          exact hne (CondVar.startedCv.inj (Option.some.inj this))
      · exact absurd (hnone.symm.trans hn) (by simp)
    · simp only [hwake, Bool.false_eq_true, if_false]
      refine ⟨fun n hn => ?_, h.late, fun n hn => ?_⟩
      · change (Function.update N.ready res R n).wait ≠ .outside at hn
        rcases eq_or_ne n res with rfl | hne
        · rw [Function.update_self] at hn
          cases e with
          | tick t => exact h.wait n (by rwa [wait_of_tick hR] at hn)
          | notify =>
            refine h.wait n fun hout => hn ?_
            simp only [Readiness.step] at hR
            split_ifs at hR with hdue hasleep
            · rw [← Option.some.inj hR]
            · rw [← Option.some.inj hR]
              exact hout
          | enter | sleep | spurious => simpa [permits] using hp
        · rw [Function.update_of_ne hne] at hn
          exact h.wait n hn
      · have hapi : (Function.update N.ready res R n).threads.api = (N.ready n).threads.api := by
          rcases eq_or_ne n res with rfl | hne
          · rw [Function.update_self, api_of_ready hp hR]
          · rw [Function.update_of_ne hne]
        rw [hapi]
        exact h.starting n hn
  | deliver pkt =>
    have hsame : ∀ n, N.inst.waitsOn = some (.startedCv n) →
        (N.hear pkt).inst.waitsOn = some (.startedCv n) := by
      intro n hn
      show (N.inst.actionPerformed pkt).waitsOn = _
      rw [Inst.waitsOn] at hn ⊢
      rwa [actionPerformed_waiting pkt hn]
    refine ⟨fun n hn => ?_, fun n hn => ?_, fun n hn => ?_⟩
    · exact ⟨(h.wait n hn).1, hsame n (h.wait n hn).2⟩
    · have hw := waitsOn_actionPerformed pkt hn
      show (if _ then N.late else _) = none
      rw [if_pos (actionPerformed_waiting pkt hw)]
      exact h.late n hw
    · exact h.starting n (waitsOn_actionPerformed pkt hn)
  | @late ctl hl =>
    have hout := h.outside fun m hm => by simp [h.late m hm] at hl
    refine ⟨fun n hn => absurd (hout n) hn, fun n hn => rfl, fun n hn => ?_⟩
    exact absurd ((hN.late ctl hl).2.symm.trans hn) (by simp)

lemma waits_new (id : UInt32) (beaconTime : UInt64) : (new id beaconTime).Waits where
  wait n hn := absurd rfl hn
  late n hn := by cases hn
  starting n hn := by cases hn

end Node
end DistLock
