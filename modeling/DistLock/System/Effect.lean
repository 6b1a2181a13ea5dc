/-
One instance as a process of the admission protocol of `DistLock.Lib.Claim`, as far as one
resource `r` is concerned.

Each step of the instance has one of a few effects on its phase, on its window and on what it
says about `r` (`effect_step`).
-/
import DistLock.Acquire.Coherent
import DistLock.Lib.Claim
import DistLock.System.Sys

namespace DistLock

open Lib.Claim (Phase Stage)
open Lock (Keeps)

/-- The phase that a state announces. -/
def State.phase : State → Phase
  | starting => .trying
  | acquiring => .claiming
  | acquired => .holding
  | _ => .out

lemma State.claimed_iff {s : State} : s.Claimed ↔ s.phase.Active := by
  cases s <;> simp [Claimed, phase, Phase.Active]

lemma State.phase_holding {s : State} : s.phase = .holding ↔ s = .acquired := by
  cases s <;> simp [phase]

lemma State.phase_claiming {s : State} : s.phase = .claiming ↔ s = .acquiring := by
  cases s <;> simp [phase]

namespace Inst

/-- The phase of the instance with respect to the resource. -/
def phase (r : Name) (I : Inst) : Phase :=
  match I.lock.stateOf r with
  | some s => s.phase
  | none => .out

/-- The window of the instance with respect to the resource, for the time at which it was
opened: it ends for each resource separately when the resource is marked. -/
def stage (r : Name) (I : Inst) : ℕ → Stage :=
  match I.ctl with
  | .adquire scope _ .colliding => if r ∈ I.lock.targets scope then .waiting else fun _ => .outside
  | .adquire _ _ (.checking rest) => if r ∈ rest then .passed else fun _ => .outside
  | .adquire _ _ (.marking res rest) =>
    if r = res then .granted else if r ∈ rest then .passed else fun _ => .outside
  | _ => fun _ => .outside

/-- What the packets say about the resource. -/
def about (r : Name) (sent : List DLPacket) : List Phase :=
  (sent.filter fun p => p.resource = r).map fun p => (State.ofByte p.state).phase

variable {I I' : Inst} {e : Event} {sent : List DLPacket} {r res : Name} {a : Action} {s : State}

lemma phase_of_has (h : I.lock.Has s r) : I.phase r = s.phase := by
  rw [phase, h]

lemma phase_congr (h : I'.lock.stateOf r = I.lock.stateOf r) : I'.phase r = I.phase r := by
  rw [phase, phase, h]

lemma claims_iff : I.claims r = true ↔ (I.phase r).Active := by
  cases hs : I.lock.stateOf r with
  | none => simp [claims, phase, hs, Phase.Active]
  | some s => simp [claims, phase, hs, State.claimed_iff]

/-- What a broadcast says. -/
lemma about_sendBeacon {L : Lock} (hn : L.Named) (h : L.Has s res) :
    about r (L.sendBeacon res) = if res = r then [s.phase] else [] := by
  obtain ⟨R, hR, rfl⟩ := Option.map_eq_some_iff.mp h
  rw [Lock.sendBeacon, hR]
  have hname := hn res R hR
  split_ifs with hres
  · simp [about, hname, hres]
  · simp [about, hname, hres]

/-- The effect of a step on the phase, on the window and on what is said about `r`. -/
inductive Effect (r : Name) (I I' : Inst) (e : Event) (sent : List DLPacket) : Prop
  | silent (hp : I'.phase r = I.phase r) (hs : I'.stage r = I.stage r) (ha : about r sent = [])
  | renew (hp : I'.phase r = I.phase r) (hs : I'.stage r = I.stage r)
    (ha : about r sent = [I.phase r])
  | assign (hp : I'.phase r ≠ .holding) (hs : I.stage r = fun _ => .outside)
    (hs' : I'.stage r = fun _ => .outside) (ha : about r sent = [I'.phase r])
  | listen (hp : I'.phase r = I.phase r) (hc : I.phase r = .claiming)
    (hs : I.stage r = fun _ => .outside) (hs' : I'.stage r = .waiting)
    (hw : I'.inWindow = true ∧ I.inWindow = false) (ha : about r sent = [])
  | close (hp : I'.phase r = I.phase r) (hs : I.stage r = .waiting)
    (hs' : I'.stage r = .passed) (hw : I.inWindow = true) (he : e = .timeout)
    (ha : about r sent = [])
  | grant (hp : I'.phase r = I.phase r) (hs : I.stage r = .passed)
    (hs' : I'.stage r = .granted) (hacq : I.lock.isAcquirable r = true)
    (ha : about r sent = [])
  | enter (hp : I'.phase r = .holding) (hc : I.phase r = .claiming) (hs : I.stage r = .granted)
    (hs' : I'.stage r = fun _ => .outside) (ha : about r sent = [.holding])
  | quit (hp : I'.phase r = I.phase r) (hs' : I'.stage r = fun _ => .outside)
    (ha : about r sent = [])

lemma Keeps.phase (h : Keeps I.lock I'.lock r) : I'.phase r = I.phase r :=
  phase_congr h.stateOf_eq

/-- What the calling thread says about `r` when it works on `res`. -/
lemma about_run (hnm : I.lock.Named) (hr : I.run = some (I', sent)) (hn : I.next = some (res, a))
    (hmem : res ∈ I.lock.names) (ha : a ≠ .stop) :
    about r sent = if res = r then [I'.phase r] else [] := by
  have hnm' : I'.lock.Named := named_step (e := .run) hnm hr
  have hf := frame_run hr
  have heq := run_eq hr
  rw [hn] at heq
  have hlock : I'.lock = (a.on I.lock res).1 := congrArg Prod.fst heq
  have hsent : sent = I'.lock.sendBeacon res := by
    rw [show sent = (a.on I.lock res).2 from congrArg Prod.snd heq, hlock]
    cases a with
    | setState s => rfl
    | reset => exact Lock.sendBeacon_reset.symm
    | stop => exact absurd rfl ha
  have hhas : ∃ s, I'.lock.Has s res := by
    cases a with
    | setState s => exact ⟨s, hf.has hn hmem⟩
    | reset => exact ⟨.idle, (hf.clear hn hmem).has⟩
    | stop => exact absurd rfl ha
  obtain ⟨s, hs⟩ := hhas
  rw [hsent, about_sendBeacon hnm' hs]
  split_ifs with hres
  · rw [phase_of_has (hres ▸ hs)]
  · rfl

/-- A step of the calling thread outside the windows, if it does not mark the resource. -/
lemma effect_of_outside (hnm : I.lock.Named) (hc : I.Coherent) (hon : I.On (· ∈ I.lock.names))
    (hr : I.run = some (I', sent)) (hs : I.stage r = fun _ => .outside)
    (hs' : I'.stage r = fun _ => .outside) (hm : I.next ≠ some (r, .setState .acquired)) :
    Effect r I I' .run sent := by
  have hf := frame_run hr
  have heq := run_eq hr
  cases hn : I.next with
  | none =>
    rw [hn] at heq
    have hsent : sent = [] := congrArg Prod.snd heq
    refine .silent (Keeps.phase (hf.keeps fun _ a => ?_)) (hs'.trans hs.symm) (by rw [hsent]; rfl)
    simp [hn]
  | some ra =>
    obtain ⟨res, a⟩ := ra
    have hmem := on_next hc hon hn
    by_cases hres : res = r
    · subst hres
      cases a with
      | setState s =>
        have hhas := hf.has hn hmem
        refine .assign ?_ hs hs' ((about_run hnm hr hn hmem (by simp)).trans (if_pos rfl))
        rw [phase_of_has hhas, ne_eq, State.phase_holding]
        rintro rfl
        exact hm hn
      | reset =>
        have hhas := (hf.clear hn hmem).has
        refine .assign ?_ hs hs' ((about_run hnm hr hn hmem (by simp)).trans (if_pos rfl))
        rw [phase_of_has hhas, ne_eq, State.phase_holding]
        simp
      -- `stop` assigns no state
      | stop =>
        rw [hn] at heq
        have hsent : sent = [] := congrArg Prod.snd heq
        refine .silent (phase_congr ?_) (hs'.trans hs.symm) (by rw [hsent]; rfl)
        rw [Lock.stateOf, hf.resource, Option.map_map, Lock.stateOf]
        congr 1
        funext R
        exact change_state fun _ a ha => by
          rw [hn] at ha
          exact (congrArg Prod.snd (Option.some.inj ha)).symm
    · refine .silent (Keeps.phase (hf.keeps_of_ne hn fun h => hres h.symm)) (hs'.trans hs.symm) ?_
      by_cases ha : a = .stop
      · subst ha
        rw [hn] at heq
        have hsent : sent = [] := congrArg Prod.snd heq
        rw [hsent]
        rfl
      · rw [about_run hnm hr hn hmem ha, if_neg hres]

/-- **The effects of the calling thread.** -/
lemma effect_run (hnm : I.lock.Named) (hc : I.Coherent) (hon : I.On (· ∈ I.lock.names))
    (hr : I.run = some (I', sent)) : Effect r I I' .run sent := by
  have hout := effect_of_outside (r := r) hnm hc hon hr
  cases hctl : I.ctl with
  | free b => exact absurd hr (by simp [run, hctl])
  | adquire scope retry pc =>
    have hacq := hc _ _ _ hctl
    rw [Acquiring, hctl] at hacq
    obtain ⟨-, hsub, hcoh⟩ := hacq
    have hr' := hr
    simp only [run, hctl] at hr'
    cases pc with
    | start rest | starting rest | resetting rest =>
      cases rest with
      | nil | cons res rest =>
        obtain ⟨rfl, -⟩ := Prod.mk.inj (Option.some.inj hr')
        exact hout (by rw [stage, hctl]) rfl (by simp [next, hctl])
    | loop =>
      simp only [adquireLock] at hr'
      split_ifs at hr' <;> obtain ⟨rfl, -⟩ := Prod.mk.inj (Option.some.inj hr') <;>
        exact hout (by rw [stage, hctl]) rfl (by simp [next, hctl])
    | announcing rest =>
      cases rest with
      | nil =>
        obtain ⟨rfl, rfl⟩ := Prod.mk.inj (Option.some.inj hr')
        by_cases hmem : r ∈ I.lock.targets scope
        · -- the claim has been announced for all resources
          refine .listen rfl (phase_of_has (Visited.all hcoh r hmem)) (by rw [stage, hctl])
            (if_pos hmem) ⟨rfl, by rw [inWindow, hctl]⟩ rfl
        · exact hout (by rw [stage, hctl]) (if_neg hmem) (by simp [next, hctl])
      | cons res rest =>
        obtain ⟨rfl, -⟩ := Prod.mk.inj (Option.some.inj hr')
        exact hout (by rw [stage, hctl]) rfl (by simp [next, hctl])
    | checking rest =>
      cases rest with
      | nil =>
        obtain ⟨rfl, -⟩ := Prod.mk.inj (Option.some.inj hr')
        exact hout (by rw [stage, hctl]; exact if_neg List.not_mem_nil) rfl (by simp [next, hctl])
      | cons res rest =>
        simp only [adquireLock] at hr'
        split_ifs at hr' with hacq
        · -- the check of `r` itself is the grant
          obtain ⟨rfl, rfl⟩ := Prod.mk.inj (Option.some.inj hr')
          by_cases hres : r = res
          · subst hres
            exact .grant rfl (by rw [stage, hctl]; exact if_pos List.mem_cons_self) (if_pos rfl)
              hacq rfl
          · refine .silent rfl ?_ rfl
            rw [stage, stage, hctl]
            simp [hres]
        · obtain ⟨rfl, rfl⟩ := Prod.mk.inj (Option.some.inj hr')
          exact .quit rfl rfl rfl
    | marking res rest =>
      have hf := frame_run hr
      have hn : I.next = some (res, .setState .acquired) := by rw [next, hctl]
      have hv : Visited I.lock scope (res :: rest) (I.lock.Has .acquired) (I.lock.Has .acquiring) :=
        hcoh
      have hmem := hsub res hv.head
      have hab := about_run (r := r) hnm hr hn hmem (by simp)
      by_cases hres : res = r
      · subst hres
        have hp := phase_of_has (hf.has hn hmem)
        have hclaim : I.phase res = .claiming := by
          obtain ⟨done, -, -, hrest⟩ := hv
          exact phase_of_has (hrest res List.mem_cons_self)
        rw [if_pos rfl, hp] at hab
        obtain ⟨rfl, -⟩ := Prod.mk.inj (Option.some.inj hr')
        -- `r` does not occur again in the loop, so its window is over
        exact .enter hp hclaim (by rw [stage, hctl]; exact if_pos rfl) (if_neg hv.head_notMem) hab
      · have hp := Keeps.phase (hf.keeps_of_ne hn fun h => hres h.symm)
        rw [if_neg hres] at hab
        obtain ⟨rfl, -⟩ := Prod.mk.inj (Option.some.inj hr')
        refine .silent hp ?_ hab
        rw [stage, stage, hctl]
        exact (if_neg fun h => hres h.symm).symm
    | backoff =>
      obtain ⟨rfl, -⟩ := Prod.mk.inj (Option.some.inj hr')
      exact hout (by rw [stage, hctl]) rfl (by simp [next, hctl])
    | waitForReady res rest | listening | colliding | backingOff =>
      exact absurd hr' (by simp [adquireLock])
  | query q res pc =>
    have hr' := hr
    simp only [run, hctl] at hr'
    cases pc with
    | start | short | collect =>
      obtain ⟨rfl, -⟩ := Prod.mk.inj (Option.some.inj hr')
      exact hout (by rw [stage, hctl]) rfl (by simp [next, hctl])
    | long b =>
      simp only [queryLock] at hr'
      split_ifs at hr' <;> obtain ⟨rfl, -⟩ := Prod.mk.inj (Option.some.inj hr') <;>
        exact hout (by rw [stage, hctl]) rfl (by simp [next, hctl])
    | shortListening | longListening b | longWoken b => exact absurd hr' (by simp [queryLock])
  | releasing rest =>
    have hr' := hr
    simp only [run, hctl] at hr'
    cases rest with
    | nil | cons res rest =>
      obtain ⟨rfl, -⟩ := Prod.mk.inj (Option.some.inj hr')
      exact hout (by rw [stage, hctl]) rfl (by simp [next, hctl])
  | stopping res rest =>
    have hr' := hr
    simp only [run, hctl] at hr'
    obtain ⟨rfl, -⟩ := Prod.mk.inj (Option.some.inj hr')
    exact hout (by rw [stage, hctl]) rfl (by simp [next, hctl])

/-- Whatever a thread was waiting for, it is in no window after it has been woken up. -/
lemma stage_onWake (h : I.onWake = some I') : I'.stage r = fun _ => .outside := by
  rw [onWake] at h
  split at h <;> simp only [Option.some.injEq, reduceCtorEq] at h <;> subst h <;> rfl

/-- The end of a wait closes the window, if the timer has run out, or abandons it. -/
lemma effect_resumes (hr : I.Resumes I') :
    I'.stage r = I.stage r ∨ I'.stage r = (fun _ => .outside) ∨
      (I.onTimeout = some I' ∧ I.stage r = .waiting ∧ I'.stage r = .passed ∧
        I.inWindow = true) := by
  obtain ⟨L, ctl⟩ := I
  rcases hr with rfl | h | h | ⟨n, h⟩
  · exact .inl rfl
  · exact .inr (.inl (stage_onWake h))
  · cases ctl with
    | adquire scope retry pc =>
      cases pc with
      | colliding =>
        obtain rfl := Option.some.inj h
        by_cases hmem : r ∈ L.targets scope
        · exact .inr (.inr ⟨rfl, if_pos hmem, if_pos hmem, rfl⟩)
        · exact .inr (.inl (if_neg hmem))
      | listening | backingOff =>
        obtain rfl := Option.some.inj h
        exact .inl rfl
      | _ => exact absurd h (by simp [onTimeout])
    | query q res pc =>
      cases pc with
      | shortListening | longListening b =>
        obtain rfl := Option.some.inj h
        exact .inl rfl
      | _ => exact absurd h (by simp [onTimeout])
    | _ => exact absurd h (by simp [onTimeout])
  · obtain ⟨q, res, b, -, -, rfl⟩ := onElapsed_cases h
    exact .inr (.inl rfl)

/-- The entry of a function does not change a phase. -/
lemma phase_enter (L : Lock) (c : Call) (b : Option Bool) :
    (enter L c).phase r = (⟨L, .free b⟩ : Inst).phase r := by
  unfold phase Lock.stateOf
  rw [getResource_enter]
  split_ifs
  · cases hR : L.getResource r with
    | none => simp [Resource.new, State.phase]
    | some R => simp
  · rfl

lemma stage_enter (L : Lock) (c : Call) : (enter L c).stage r = fun _ => .outside := by
  cases c with
  | acquire res =>
    cases res with
    | nil => rw [enter]; split_ifs <;> rfl
    | cons b bs => rfl
  | _ => rfl

/-- **The effect of a step of the instance**, unless it is a delivery. -/
theorem effect_step (hnm : I.lock.Named) (hc : I.Coherent) (hon : I.On (· ∈ I.lock.names))
    (hd : ∀ p, e ≠ .deliver p) (hs : I.step e = some (I', sent)) : Effect r I I' e sent := by
  cases e with
  | call c =>
    obtain ⟨⟨b, hb⟩, rfl, rfl⟩ := step_call hs
    obtain ⟨L, ctl⟩ := I
    obtain rfl : ctl = .free b := hb
    exact .silent (phase_enter L c b) (stage_enter L c) rfl
  | run => exact effect_run hnm hc hon hs
  | timeout =>
    obtain ⟨h, rfl⟩ := step_timeout hs
    have hp : I'.phase r = I.phase r := phase_congr (by rw [onTimeout_lock h])
    rcases effect_resumes (r := r) (.inr (.inr (.inl h))) with h' | h' | ⟨-, hw, hp', hin⟩
    · exact .silent hp h' rfl
    · exact .quit hp h' rfl
    · exact .close hp hw hp' hin rfl rfl
  | wake =>
    obtain ⟨h, rfl⟩ := step_wake hs
    have hp : I'.phase r = I.phase r := phase_congr (by rw [onWake_lock h])
    exact .quit hp (stage_onWake h) rfl
  | elapsed n =>
    obtain ⟨h, rfl⟩ := step_elapsed hs
    have hp : I'.phase r = I.phase r := phase_congr (by rw [onElapsed_lock h])
    obtain ⟨q, res, b, -, -, rfl⟩ := onElapsed_cases h
    exact .quit hp rfl rfl
  | beacon res =>
    obtain ⟨hI, R, hR, -, -, rfl⟩ := step_beacon hs
    subst hI
    have hname := hnm res R hR
    by_cases hres : res = r
    · subst hres
      have hhas : I'.lock.Has R.state res := by
        rw [Lock.Has, Lock.stateOf, hR]
        rfl
      have hphase : I'.phase res = R.state.phase := phase_of_has hhas
      exact .renew rfl rfl (by simp [about, hname, hphase])
    · exact .silent rfl rfl (by simp [about, hname, hres])
  | deliver p => exact absurd rfl (hd p)

/-- A window that opens was closed before. -/
lemma stage_of_opens (hs : I.step e = some (I', sent)) (hw : I'.inWindow = true)
    (hw' : I.inWindow = false) : I.stage r = fun _ => .outside := by
  -- a thread that is busy with its checks does not get into a window in one step
  have hbusy : (∀ scope retry rest, I.ctl ≠ .adquire scope retry (.checking rest)) ∧
      ∀ scope retry res rest, I.ctl ≠ .adquire scope retry (.marking res rest) := by
    have hcall : e.isCall = false := by
      cases e with
      | call c =>
        obtain ⟨-, rfl, -⟩ := step_call hs
        cases c with
        | acquire res =>
          cases res with
          | nil => rw [enter] at hw; split_ifs at hw <;> exact absurd hw (by simp [inWindow])
          | cons b bs => exact absurd hw (by simp [enter, inWindow])
        | _ => exact absurd hw (by simp [enter, inWindow])
      | _ => rfl
    rcases step_cases hcall hs with ⟨rfl, hr⟩ | ⟨-, hr⟩
    · constructor
      · intro scope retry rest hctl
        simp only [run, hctl] at hr
        cases rest with
        | nil =>
          obtain ⟨rfl, -⟩ := Prod.mk.inj (Option.some.inj hr)
          exact absurd hw (by simp [inWindow])
        | cons res rest =>
          simp only [adquireLock] at hr
          split_ifs at hr <;> obtain ⟨rfl, -⟩ := Prod.mk.inj (Option.some.inj hr) <;>
            exact absurd hw (by simp [inWindow])
      · intro scope retry res rest hctl
        simp only [run, hctl] at hr
        obtain ⟨rfl, -⟩ := Prod.mk.inj (Option.some.inj hr)
        exact absurd hw (by simp [inWindow])
    · have hctl : ∀ {c}, I.ctl = c → onWake ⟨I'.lock, c⟩ = none → onTimeout ⟨I'.lock, c⟩ = none →
          (∀ n, onElapsed ⟨I'.lock, c⟩ n = none) → False := by
        rintro c rfl h₁ h₂ h₃
        rcases hr with h | h | h | ⟨n, h⟩
        · rw [h] at hw
          exact absurd (hw.symm.trans hw') (by simp)
        · exact absurd (h.symm.trans h₁) (by simp)
        · exact absurd (h.symm.trans h₂) (by simp)
        · exact absurd (h.symm.trans (h₃ n)) (by simp)
      constructor
      · intro scope retry rest h
        exact hctl h rfl rfl fun _ => rfl
      · intro scope retry res rest h
        exact hctl h rfl rfl fun _ => rfl
  rw [stage]
  split
  · next hctl => exact absurd hw' (by simp [inWindow, hctl])
  · next hctl => exact absurd hctl (hbusy.1 _ _ _)
  · next hctl => exact absurd hctl (hbusy.2 _ _ _ _)
  · rfl

end Inst
end DistLock
