/-
Whether the beacon thread of a resource runs while the resource is in use.

It does as long as no resource is used again after its release: `release_lock` stops the
thread but leaves the resource in the map, and the later functions find it there and do not
start the thread again (`claimed_running`).
-/
import DistLock.Acquire.Ownership

namespace DistLock

/-- The beacon thread of the resource has been stopped. -/
def Lock.stopped (L : Lock) (res : Name) : Bool :=
  match L.getResource res with
  | some R => !R.running
  | none => false

/-- The call is about to use a resource whose beacon thread has been stopped. -/
def Call.reuses (L : Lock) : Call → Bool
  | acquire [] => L.names.any L.stopped
  | acquire res => L.stopped res
  | query _ res => L.stopped res
  | _ => false

def Event.reuses (L : Lock) : Event → Bool
  | call c => c.reuses L
  | _ => false

namespace Inst

variable {I I' : Inst} {e : Event} {sent log : List DLPacket} {res : Name} {a : Action}

/-- The calling thread is working on the resource, other than to release it. -/
def Uses (I : Inst) (res : Name) : Prop :=
  (∃ scope, I.job = some (.adquire scope) ∧ res ∈ I.lock.targets scope) ∨ I.Querying res

/-- Whatever is claimed, or about to be, has a running beacon thread. -/
structure Beaconed (I : Inst) : Prop where
  claimed : ∀ r R, I.lock.getResource r = some R → R.state.Claimed ∨ R.state = .querying →
    R.running = true
  uses : ∀ r R, I.Uses r → I.lock.getResource r = some R → R.running = true
  stopping : ∀ r rest R, I.ctl = .stopping r rest → I.lock.getResource r = some R →
    R.state = .released

/-- What the calling thread does to a resource that it does not use. -/
lemma released_of_next (hc : I.Coherent) (hn : I.next = some (res, a)) (hu : ¬ I.Uses res) :
    (∃ rest, I.ctl = .stopping res rest) ∧ a = .stop ∨ a = .setState .released := by
  cases hctl : I.ctl with
  | free b => exact absurd hn (by simp [next, hctl])
  | adquire scope retry pc =>
    refine absurd (.inl ⟨scope, by rw [job, hctl], ?_⟩) hu
    exact (mem_targets_of_next (hc _ _ _ hctl) hn).1
  | query q r pc =>
    refine absurd (.inr ⟨q, ?_⟩) hu
    cases pc with
    | start =>
      simp only [next, hctl, Option.some.injEq, Prod.mk.injEq] at hn
      rw [job, hctl, hn.1]
    | _ => exact absurd hn (by simp [next, hctl])
  | releasing rest =>
    cases rest with
    | nil => exact absurd hn (by simp [next, hctl])
    | cons r rest =>
      simp only [next, hctl, Option.some.injEq, Prod.mk.injEq] at hn
      exact .inr hn.2.symm
  | stopping r rest =>
    simp only [next, hctl, Option.some.injEq, Prod.mk.injEq] at hn
    exact .inl ⟨⟨rest, by rw [hn.1]⟩, hn.2.symm⟩

lemma next_stop (hn : I.next = some (res, .stop)) : ∃ rest, I.ctl = .stopping res rest := by
  unfold next at hn
  split at hn <;> simp only [Option.some.injEq, Prod.mk.injEq, reduceCtorEq, and_false] at hn
  next r rest hctl => exact ⟨rest, by rw [hctl, hn.1]⟩

lemma uses_step (he : e.isCall = false) (hs : I.step e = some (I', sent)) (h : I'.Uses res) :
    I.Uses res := by
  have hnames := (frame_step he hs).names_eq
  rcases h with ⟨scope, hj, hmem⟩ | hq
  · rcases job_step he hs with hj' | hj'
    · exact absurd (hj'.symm.trans hj) (by simp)
    · exact .inl ⟨scope, hj' ▸ hj, Lock.targets_congr hnames scope ▸ hmem⟩
  · refine .inr (querying_of_step ?_ hs hq)
    cases e with
    | call c => exact absurd he (by simp [Event.isCall])
    | _ => exact id

/-- The thread waits for the end of a beacon thread right after it has announced the
release. -/
lemma stopping_step {rest : List Name} (he : e.isCall = false)
    (hs : I.step e = some (I', sent)) (h : I'.ctl = .stopping res rest) :
    I.ctl = .stopping res rest ∧ e ≠ .run ∨
      I.next = some (res, .setState .released) ∧ e = .run := by
  have hjob : I.job = some .release := by
    rcases job_step he hs with hj | hj <;> rw [job, h] at hj
    · exact absurd hj (by simp)
    · exact hj.symm
  rcases step_cases he hs with ⟨rfl, hr⟩ | ⟨hne, hr⟩
  · rcases release_of_job hjob with ⟨rs, hctl⟩ | ⟨r, rs, hctl⟩ <;> simp only [run, hctl] at hr
    · cases rs with
      | nil =>
        obtain ⟨rfl, -⟩ := Prod.mk.inj (Option.some.inj hr)
        exact absurd h (by simp)
      | cons r rs =>
        obtain ⟨rfl, -⟩ := Prod.mk.inj (Option.some.inj hr)
        obtain ⟨rfl, rfl⟩ := Ctl.stopping.inj h
        exact .inr ⟨by rw [next, hctl], rfl⟩
    · obtain ⟨rfl, -⟩ := Prod.mk.inj (Option.some.inj hr)
      exact absurd h (by simp)
  · rw [resumes_release (I := ⟨I'.lock, I.ctl⟩) hjob hr] at h
    exact .inl ⟨h, hne⟩

lemma beaconed_step (hc : I.Coherent) (h : I.Beaconed) (he : e.isCall = false)
    (hs : I.step e = some (I', sent)) : I'.Beaconed := by
  have hf := frame_step he hs
  have hres : ∀ {r R}, I'.lock.getResource r = some R →
      ∃ R₀, I.lock.getResource r = some R₀ ∧ R = I.change e r R₀ := by
    intro r R hR
    rw [hf.resource] at hR
    obtain ⟨R₀, hR₀, rfl⟩ := Option.map_eq_some_iff.mp hR
    exact ⟨R₀, hR₀, rfl⟩
  constructor
  · intro r R hR hstate
    obtain ⟨R₀, hR₀, rfl⟩ := hres hR
    by_cases hdue : e = .run ∧ ∃ a, I.next = some (r, a)
    · obtain ⟨rfl, a, ha⟩ := hdue
      rw [change_run ha] at hstate ⊢
      by_cases hu : I.Uses r
      · -- the thread of a used resource runs, whatever its next state is
        cases a with
        | setState s => exact h.uses r R₀ hu hR₀
        | reset => exact absurd hstate (by simp [Action.apply, State.Claimed])
        | stop =>
          obtain ⟨rest, hctl⟩ := next_stop ha
          rw [Action.apply, h.stopping r rest R₀ hctl hR₀] at hstate
          exact absurd hstate (by simp [State.Claimed])
      · -- a resource that is not used is being released
        rcases released_of_next hc ha hu with ⟨⟨rest, hctl⟩, rfl⟩ | rfl
        · rw [Action.apply, h.stopping r rest R₀ hctl hR₀] at hstate
          exact absurd hstate (by simp [State.Claimed])
        · exact absurd hstate (by simp [Action.apply, State.Claimed])
    · -- nothing but a packet reaches the resource in this step
      rw [change_state fun he a ha => absurd ⟨he, a, ha⟩ hdue] at hstate
      rw [change_running fun he ha => hdue ⟨he, _, ha⟩]
      exact h.claimed r R₀ hR₀ hstate
  · intro r R hu hR
    obtain ⟨R₀, hR₀, rfl⟩ := hres hR
    have hu₀ := uses_step he hs hu
    rw [change_running fun _ ha => ?_]
    · exact h.uses r R₀ hu₀ hR₀
    · obtain ⟨rest, hctl⟩ := next_stop ha
      rcases hu₀ with ⟨scope, hj, -⟩ | ⟨q, hj⟩ <;> rw [job, hctl] at hj <;>
        exact absurd hj (by simp)
  · intro r rest R hctl' hR
    obtain ⟨R₀, hR₀, rfl⟩ := hres hR
    rcases stopping_step he hs hctl' with ⟨hctl, hne⟩ | ⟨hn, rfl⟩
    · rw [change_state fun he => absurd he hne]
      exact h.stopping r rest R₀ hctl hR₀
    · rw [change_run hn]
      rfl

lemma beaconed_enter {L : Lock} {c : Call} (hr : c.reuses L = false)
    (h : ∀ r R, L.getResource r = some R → R.state.Claimed ∨ R.state = .querying →
      R.running = true) : (enter L c).Beaconed := by
  -- a resource is new or is as before; a new one runs
  have hnew : ∀ r R, (enter L c).lock.getResource r = some R →
      (R.state = .idle ∧ R.running = true) ∨
        ∃ R₀, L.getResource r = some R₀ ∧ R.state = R₀.state ∧ R.running = R₀.running := by
    intro r R hR
    rw [getResource_enter] at hR
    split_ifs at hR
    · obtain rfl := Option.some.inj hR
      cases hR₀ : L.getResource r with
      | none => exact .inl ⟨recount_state, recount_running⟩
      | some R₀ => exact .inr ⟨R₀, rfl, recount_state, recount_running⟩
    · exact .inr ⟨R, hR, rfl, rfl⟩
  have hstopped : ∀ {r R₀}, L.getResource r = some R₀ → L.stopped r = false →
      R₀.running = true := by
    intro r R₀ hR₀ hs
    simpa [Lock.stopped, hR₀] using hs
  constructor
  · intro r R hR hstate
    rcases hnew r R hR with ⟨hidle, hrun⟩ | ⟨R₀, hR₀, hs, hrun⟩
    · exact hrun
    · rw [hrun]
      exact h r R₀ hR₀ (by rwa [hs] at hstate)
  · intro r R hu hR
    rcases hnew r R hR with ⟨-, hrun⟩ | ⟨R₀, hR₀, -, hrun⟩
    · exact hrun
    rw [hrun]
    -- for those that the call is going to use, `reuses` excludes the stopped ones
    cases c with
    | acquire res =>
      cases res with
      | nil =>
        refine hstopped hR₀ ?_
        have hmem : r ∈ L.names := Lock.mem_names_iff.mpr ⟨R₀, hR₀⟩
        simpa using List.any_eq_false.mp hr r hmem
      | cons b bs =>
        rcases hu with ⟨scope, hj, hmem⟩ | ⟨q, hj⟩
        · obtain rfl : some (b :: bs) = scope := by simpa [job, enter] using hj
          rw [List.mem_singleton.mp hmem] at hR₀
          exact hstopped hR₀ hr
        · exact absurd hj (by simp [job, enter])
    | query q res =>
      rcases hu with ⟨scope, hj, -⟩ | ⟨q', hj⟩
      · exact absurd hj (by simp [job, enter])
      · obtain ⟨-, rfl⟩ : q = q' ∧ res = r := by simpa [job, enter] using hj
        exact hstopped hR₀ hr
    | _ => rcases hu with ⟨scope, hj, -⟩ | ⟨q', hj⟩ <;> exact absurd hj (by simp [job, enter])
  · intro r rest R hctl
    cases c with
    | acquire res =>
      cases res with
      | nil => rw [enter] at hctl; split_ifs at hctl
      | cons b bs => exact absurd hctl (by simp [enter])
    | _ => exact absurd hctl (by simp [enter])

/-- **Whatever is claimed is beaconed.**  In every run of an instance in which no resource is
used again after its release, each resource that is claimed or queried has a beacon thread that
has not been stopped, and so has a resource whose thread is waited for. -/
theorem claimed_running {id : UInt32} {beaconTime : UInt64} {es : List Event}
    (hrun : Lib.Run trace (fun s e => e.reuses s.1.lock = false)
      (⟨Lock.new id beaconTime, .free none⟩, []) es (I, log)) :
    (∀ r R, I.lock.getResource r = some R → R.state.Claimed ∨ R.state = .querying →
      R.running = true) ∧
    ∀ scope retry r rest, I.ctl = .adquire scope retry (.waitForReady r rest) →
      ∃ R, I.lock.getResource r = some R ∧ R.running = true := by
  have hinv : I.Coherent ∧ I.Beaconed := by
    refine hrun.invariant (I := fun s => s.1.Coherent ∧ s.1.Beaconed) ?_ ⟨?_, ?_, ?_, ?_⟩
    · rintro s e s' ⟨hc, hb⟩ he hst
      obtain ⟨⟨I₁, sent⟩, hs, rfl⟩ := Option.map_eq_some_iff.mp hst
      refine ⟨coherent_step hc hs, ?_⟩
      rcases step_call_or hs with ⟨c, rfl, -, rfl, -⟩ | hcall
      · exact beaconed_enter he hb.claimed
      · exact beaconed_step hc hb hcall hs
    · exact fun _ _ _ hctl => absurd hctl (by simp)
    · exact fun r R hR => absurd hR (by simp)
    · exact fun r R _ hR => absurd hR (by simp)
    · exact fun r rest R hctl => absurd hctl (by simp)
  obtain ⟨hc, hb⟩ := hinv
  refine ⟨hb.claimed, fun scope retry r rest hctl => ?_⟩
  have hacq := hc _ _ _ hctl
  rw [Acquiring, hctl] at hacq
  obtain ⟨-, hsub, hmem, -⟩ := hacq
  obtain ⟨R, hR⟩ := Lock.mem_names_iff.mp (hsub r hmem)
  exact ⟨R, hR, hb.uses r R (.inl ⟨scope, by rw [job, hctl], hmem⟩) hR⟩

/-- The release of the resource `a`. -/
def released : List Event := undisturbed [97] ++ [.call (.release [97]), .run, .run, .run]

/-- After a release another resource is acquired. -/
theorem claimed_running_other :
    ∃ I log, Lib.Run trace (fun s e => e.reuses s.1.lock = false) (fresh, [])
      (released ++ undisturbed [98]) (I, log) ∧
      ∀ r R, I.lock.getResource r = some R → R.state.Claimed ∨ R.state = .querying →
        R.running = true := by
  have hrun : Lib.Run trace (fun s e => e.reuses s.1.lock = false) (fresh, [])
      (released ++ undisturbed [98]) _ := Lib.Run.of_exec rfl
  exact ⟨_, _, hrun, (claimed_running hrun).1⟩

/-- A resource is acquired again after its release: it is announced once, and nobody beacons. -/
theorem claimed_stopped :
    (∃ I log R, Lib.Run trace (fun _ _ => True) (fresh, [])
      (released ++ [.call (.acquire [97]), .run, .run]) (I, log) ∧
      I.lock.getResource [97] = some R ∧ R.state = .starting ∧ R.running = false) ∧
    ∃ I log R, Lib.Run trace (fun _ _ => True) (fresh, [])
      (released ++ [.call (.acquire []), .run]) (I, log) ∧
      I.ctl = .adquire none 0 (.waitForReady [97] []) ∧
      I.lock.getResource [97] = some R ∧ R.running = false :=
  ⟨⟨_, _, _, Lib.Run.of_exec rfl, rfl, rfl, rfl⟩, ⟨_, _, _, Lib.Run.of_exec rfl, rfl, rfl, rfl⟩⟩

end Inst
end DistLock
