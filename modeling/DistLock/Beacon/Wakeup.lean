/-
The wake-ups of the beacon thread.

`Resource::run` tests the state and then waits on `beacon_cv`, without a mutex that `setState`
takes as well, so that a notification may fall between the test and the wait and is lost.  The
loop also ends when the wait on `cv` returns without its timeout, for whatever reason.  As long
as neither happens, the beacon thread is awake whenever there is something to announce, and
`stop` never joins a thread that is parked.
-/
import DistLock.Beacon.Threads

namespace DistLock

/-- The next step notifies `beacon_cv`. -/
def ApiPc.isNotifying : ApiPc → Bool
  | notifying _ => true
  | _ => false

namespace Threads

/-- No notification of a state other than `IDLE` falls between the test and the wait on
`beacon_cv`, and the wait on `cv` lasts until its timeout unless the thread is to be stopped. -/
def Punctual (T : Threads) : Tick → Prop
  | .api => T.api.isNotifying → T.res.state ≠ .idle → T.beacon ≠ .parking
  | .spurious => T.beacon = .napping → T.res.running = false
  | _ => True

instance (T : Threads) : (e : Tick) → Decidable (T.Punctual e)
  | .api => inferInstanceAs (Decidable (_ → _ → _))
  | .spurious => inferInstanceAs (Decidable (_ → _))
  | .call _ | .beacon | .timeout => isTrue trivial

variable {T T' : Threads} {e : Tick} {es : List Tick} {id : UInt32} {name : Name}

/-- The thread goes to sleep only for a resource that is `IDLE`, and it ends only when it has
been told to. -/
structure Awake (T : Threads) : Prop where
  parked : T.beacon = .parking ∨ T.beacon = .parked → T.res.state = .idle ∨ T.api.InSetState
  ended : T.beacon = .ended → T.res.running = false

lemma awake_new (id : UInt32) (name : Name) : (new id name).Awake where
  parked h := absurd h (by simp [new])
  ended h := absurd h (by simp [new])

/-- Outside `setState` the thread sleeps only for a resource that is `IDLE`. -/
lemma Awake.idle_of_parked (h : T.Awake) (hapi : ¬ T.api.InSetState)
    (hb : T.beacon = .parking ∨ T.beacon = .parked) : T.res.state = .idle :=
  (h.parked hb).resolve_right hapi

theorem awake_step (h : T.Awake) (hsound : T.Sound) (hok : T.Punctual e)
    (hs : T.step e = some T') : T'.Awake := by
  cases effect_step hs with
  | call op hf => exact { h with parked := fun _ => .inr trivial }
  | store op hf => exact { h with parked := fun _ => .inr trivial }
  | build op hf => exact { h with parked := fun _ => .inr trivial }
  | send op m hf => exact { h with parked := fun _ => .inr trivial }
  | notify op hf =>
    constructor
    · intro hb
      rw [notifyBeacon_beacon] at hb
      -- a parked thread has been woken, so that the thread is on its way to the wait
      have hparking : T.beacon = .parking := by
        by_cases hp : T.beacon = .parked
        · simp [hp] at hb
        · simpa [hp] using hb
      rw [notifyBeacon_res]
      exact .inl (by_contra fun hne => hok (by rw [hf]; rfl) hne hparking)
    · intro hb
      rw [notifyBeacon_beacon] at hb
      rw [notifyBeacon_res]
      split_ifs at hb
      exact h.ended hb
  | clear hf =>
    have hidle := h.idle_of_parked (by simp [hf, ApiPc.InSetState])
    exact ⟨fun hb => .inl (hidle hb), h.ended⟩
  | read hf hr =>
    have hidle := h.idle_of_parked (by simp [hf, ApiPc.InSetState])
    exact ⟨fun hb => .inl (hidle hb), h.ended⟩
  | skip hf hr =>
    have hidle := h.idle_of_parked (by simp [hf, ApiPc.InSetState])
    exact ⟨fun hb => .inl (hidle hb), h.ended⟩
  | drop hf =>
    have hidle := h.idle_of_parked (by simp [hf, ApiPc.InSetState])
    exact ⟨fun hb => .inl (hidle hb), fun _ => rfl⟩
  | wake hf =>
    constructor
    · intro hb
      rw [notifyCv_beacon] at hb
      rw [notifyCv_res]
      split_ifs at hb with hn
      · exact absurd hb (by simp)
      · exact .inl (h.idle_of_parked (by simp [hf, ApiPc.InSetState]) hb)
    · intro _
      rw [notifyCv_res]
      exact hsound.dropped (.inl hf)
  | join hf hb =>
    have hidle := h.idle_of_parked (by simp [hf, ApiPc.InSetState])
    exact ⟨fun hb => .inl (hidle hb), h.ended⟩
  | transmit m hm => exact ⟨fun hb => absurd hb (by simp), fun hb => absurd hb (by simp)⟩
  | move hm =>
    cases hm with
    | leave hb hr => exact ⟨fun hb => absurd hb (by simp), fun _ => hr⟩
    | idle hb hi => exact ⟨fun _ => .inl hi, fun hb => absurd hb (by simp)⟩
    | park hb => exact ⟨fun _ => h.parked (.inl hb), fun hb => absurd hb (by simp)⟩
    | abandon hb => exact ⟨fun hb => absurd hb (by simp), fun _ => hok hb⟩
    | _ => exact ⟨fun hb => absurd hb (by simp), fun hb => absurd hb (by simp)⟩

/-- **The beacon thread is awake.**  If the notifications come in time, and the wait on `cv` does
not return spuriously before `stop`, the thread of a running resource that is not `IDLE` is in its
loop and does not wait on `beacon_cv` outside `setState`, and `stop` does not join a thread that
waits on `beacon_cv`. -/
theorem not_parked (hrun : Lib.Run step Punctual (new id name) es T) :
    (T.res.running = true → T.res.state ≠ .idle → ¬ T.api.InSetState →
      T.beacon ≠ .ended ∧ T.beacon ≠ .parked) ∧
    (T.api = .joining → T.beacon ≠ .parked) := by
  obtain ⟨hsound, hawake⟩ : T.Sound ∧ T.Awake := by
    refine hrun.invariant (I := fun T => T.Sound ∧ T.Awake) ?_
      ⟨sound_new id name, awake_new id name⟩
    rintro T e T' ⟨hsound, hawake⟩ hok hs
    exact ⟨sound_step hsound hs, awake_step hawake hsound hok hs⟩
  constructor
  · intro hr hidle hapi
    constructor
    · intro hb
      exact absurd (hr.symm.trans (hawake.ended hb)) (by simp)
    · intro hb
      exact hidle (hawake.idle_of_parked hapi (.inr hb))
  · intro hapi hb
    have hidle : T.res.state = .idle :=
      hawake.idle_of_parked (by simp [hapi, ApiPc.InSetState]) (.inr hb)
    have hreleased : T.res.state = .released := hsound.stopping (by rw [hapi]; trivial)
    exact absurd (hidle.symm.trans hreleased) (by simp)

/-- The thread is woken out of its first wait by `setState`. -/
theorem not_parked_starting :
    ∃ T, Lib.Run step Punctual (new 1 [97])
        [.beacon, .beacon, .beacon, .call (.setState .starting), .api, .api, .api, .api] T ∧
      T.res.state = .starting ∧ T.beacon ≠ .ended ∧ T.beacon ≠ .parked := by
  have hrun : Lib.Run step Punctual (new 1 [97])
      [.beacon, .beacon, .beacon, .call (.setState .starting), .api, .api, .api, .api] _ :=
    Lib.Run.of_exec rfl
  exact ⟨_, hrun, rfl, (not_parked hrun).1 rfl (by decide) (fun h => h)⟩

/-- The notification of `setState` falls between the test and the wait; the wait on `cv` ends
spuriously; the notification of `release` falls between the test and the wait. -/
theorem parked_starting :
    (∃ T, Lib.Run step (fun _ _ => True) (new 1 [97])
        [.beacon, .beacon, .call (.setState .starting), .api, .api, .api, .api, .beacon] T ∧
      T.res.running = true ∧ T.res.state = .starting ∧ ¬ T.api.InSetState ∧ T.beacon = .parked) ∧
    (∃ T, Lib.Run step (fun _ _ => True) (new 1 [97])
        [.call (.setState .starting), .api, .api, .api, .api, .beacon, .beacon, .beacon, .beacon,
          .beacon, .spurious] T ∧
      T.res.running = true ∧ T.res.state = .starting ∧ ¬ T.api.InSetState ∧ T.beacon = .ended) ∧
    ∃ T, Lib.Run step (fun _ _ => True) (new 1 [97])
        [.beacon, .beacon, .call .release, .api, .api, .api, .api, .api, .api, .api, .beacon] T ∧
      T.api = .joining ∧ T.beacon = .parked :=
  ⟨⟨_, Lib.Run.of_exec rfl, rfl, rfl, fun h => h, rfl⟩,
    ⟨_, Lib.Run.of_exec rfl, rfl, rfl, fun h => h, rfl⟩, ⟨_, Lib.Run.of_exec rfl, rfl, rfl⟩⟩

/-! ### What happens otherwise -/

/-- A notification that falls between the test and the wait is lost. -/
theorem notification_lost {op : Op} (hapi : T.api = .notifying op) (hb : T.beacon = .parking) :
    ∃ T', Lib.Run step (fun _ _ => True) T [.api, .beacon] T' ∧
      T'.res = T.res ∧ T'.api = op.rest ∧ T'.beacon = .parked := by
  have hnotify : T.notifyBeacon = T := if_neg (by simp [hb])
  have h₁ : T.step .api = some { T with api := op.rest } := by
    simp only [step, runApi, hapi, hnotify]
  have h₂ : ({ T with api := op.rest } : Threads).step .beacon =
      some { T with api := op.rest, beacon := .parked } := by
    simp only [step, runBeacon, hb]
  exact ⟨_, .cons trivial h₁ (.cons trivial h₂ (.nil _)), rfl, rfl, rfl⟩

/-- When `stop` joins a parked thread, only a spurious return from the wait can help. -/
theorem join_parked (hapi : T.api = .joining) (hb : T.beacon = .parked) (he : e ≠ .spurious) :
    T.step e = none := by
  cases e with
  | spurious => exact absurd rfl he
  | _ => simp [step, runApi, runBeacon, hapi, hb]

end Threads
end DistLock
