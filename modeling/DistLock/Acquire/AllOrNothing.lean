/-
What `adquire_lock()` announces in an attempt that it gives up.

The loop that checks the resources marks each of them as `ACQUIRED` before it looks at the next
one.  An attempt that is given up has therefore announced nothing if it was interrupted in the
collision wait or failed at the first resource, and has announced a lock that it does not get
if it failed at a later one (`announces_nothing_iff`).
-/
import DistLock.Acquire.Coherent

namespace DistLock

/-- The positions within an attempt of `adquire_lock()` before anything has been marked. -/
def Pc.Unmarked (L : Lock) : Pc → Prop
  | starting _ | listening | announcing _ | colliding => True
  | checking rest => rest = L.names
  | marking res rest => res :: rest = L.names
  | _ => False

/-- The positions at which it is still open how the attempt ends. -/
def Pc.Undecided : Pc → Prop
  | listening | colliding | checking _ => True
  | _ => False

/-- The positions to which the thread goes when it gives the attempt up. -/
def Pc.GivenUp : Pc → Prop
  | resetting _ | backoff => True
  | _ => False

namespace Inst

open Lock (Keeps)

/-- The retry loop starts over. -/
def startsAttempt (I : Inst) : Event → Bool
  | .run =>
    match I.ctl with
    | .adquire _ _ .loop => true
    | _ => false
  | _ => false

/-- One step of an instance, with everything that it has broadcast in the current attempt: an
attempt starts where the retry loop does. -/
def attempt (s : Inst × List DLPacket) (e : Event) : Option (Inst × List DLPacket) :=
  (s.1.step e).map fun s' => (s'.1, (if s.1.startsAttempt e then [] else s.2) ++ s'.2)

/-- No resource is `ACQUIRED`. -/
def NoneAcquired (L : Lock) : Prop := ∀ r, ¬ L.Has .acquired r

/-- No packet announces that a resource is `ACQUIRED`. -/
def Silent (log : List DLPacket) : Prop := ∀ p ∈ log, p.state ≠ State.acquired.toByte

/-- Before the first resource is marked, nothing is or has been announced. -/
def Discreet (s : Inst × List DLPacket) : Prop :=
  ∀ retry pc, s.1.ctl = .adquire none retry pc →
    (pc = .loop → NoneAcquired s.1.lock) ∧
    (pc.Unmarked s.1.lock → NoneAcquired s.1.lock ∧ Silent s.2)

variable {I I' : Inst} {e : Event} {sent log : List DLPacket} {retry : UInt32} {pc : Pc}

/-- What is broadcast while nothing is acquired does not announce an acquired resource. -/
lemma silent_sent (h : I.step e = some (I', sent)) (hn : NoneAcquired I'.lock) :
    Silent sent := by
  intro p hp hs
  obtain ⟨r, hr⟩ := has_of_sent h hp
  rw [hs, State.ofByte_toByte] at hr
  exact hn r hr

lemma Silent.append {log' : List DLPacket} (h : Silent log) (h' : Silent log') :
    Silent (log ++ log') := by
  intro p hp
  rcases List.mem_append.mp hp with hp | hp
  · exact h p hp
  · exact h' p hp

lemma silent_attempt {log' : List DLPacket} (h : attempt (I, log) e = some (I', log'))
    (hn : NoneAcquired I'.lock) (hl : I.startsAttempt e ∨ Silent log) : Silent log' := by
  obtain ⟨⟨I₁, sent⟩, hs, heq⟩ := Option.map_eq_some_iff.mp h
  obtain ⟨rfl, rfl⟩ := Prod.mk.inj heq
  refine Silent.append ?_ (silent_sent hs hn)
  split_ifs with hif
  · exact fun p hp => absurd hp List.not_mem_nil
  · exact hl.resolve_left hif

lemma noneAcquired_of_has {L : Lock} {s : State} (hs : s ≠ .acquired)
    (h : ∀ r ∈ L.names, L.Has s r) : NoneAcquired L :=
  fun r hr => hs ((h r (Lock.mem_names_of_stateOf hr)).eq hr)

/-- The backoff is entered from an interrupted listening or after a reset. -/
lemma noneAcquired_of_backingOff {L : Lock} (hc : Pc.Coherent L none retry .backingOff) :
    NoneAcquired L := by
  rcases hc with ⟨-, hc⟩ | hc
  · exact noneAcquired_of_has (by simp) hc
  · exact noneAcquired_of_has (by simp) fun r hr => (hc r hr).has

/-- Only marking makes a resource `ACQUIRED`. -/
lemma noneAcquired_step (he : e.isCall = false) (h : I.step e = some (I', sent))
    (hn : NoneAcquired I.lock) (hm : e = .run → ∀ r, I.next ≠ some (r, .setState .acquired)) :
    NoneAcquired I'.lock :=
  (frame_step he h).absent (by simp) hn hm

lemma unmarked_congr {L L' : Lock} (h : L'.names = L.names) : pc.Unmarked L' ↔ pc.Unmarked L := by
  cases pc <;> simp only [Pc.Unmarked, h]

lemma marking_of_next {r : Name} (h : I.next = some (r, .setState .acquired)) :
    ∃ scope retry rest, I.ctl = .adquire scope retry (.marking r rest) := by
  rw [next] at h
  split at h <;> simp only [Option.some.injEq, Prod.mk.injEq, Action.setState.injEq,
    reduceCtorEq, and_false] at h
  next scope retry res rest hctl =>
    rw [h.1] at hctl
    exact ⟨scope, retry, rest, hctl⟩

/-- The positions from which the thread gets to an unmarked one in a single step. -/
lemma unmarked_run {L : Lock} {retry' : UInt32} {pc' : Pc} (hc : pc.Coherent L none retry)
    (hr : (⟨L, .adquire none retry pc⟩ : Inst).run = some (I', sent))
    (hctl : I'.ctl = .adquire none retry' pc') (hu : pc'.Unmarked L) :
    pc = .loop ∨ pc.Unmarked L ∧ ∀ res rest, pc ≠ .marking res rest := by
  cases pc with
  | loop => exact .inl rfl
  | starting rest | announcing rest => exact .inr ⟨trivial, by simp⟩
  | start rest | resetting rest =>
    cases rest with
    | nil | cons res rest =>
      obtain ⟨rfl, -⟩ := Prod.mk.inj (Option.some.inj hr)
      obtain ⟨-, rfl, rfl⟩ := Ctl.adquire.inj hctl
      exact hu.elim
  | checking rest =>
    cases rest with
    | nil =>
      obtain ⟨rfl, -⟩ := Prod.mk.inj (Option.some.inj hr)
      exact absurd hctl (by simp)
    | cons res rest =>
      simp only [run, adquireLock] at hr
      split_ifs at hr
      · obtain ⟨rfl, -⟩ := Prod.mk.inj (Option.some.inj hr)
        obtain ⟨-, rfl, rfl⟩ := Ctl.adquire.inj hctl
        exact .inr ⟨hu, by simp⟩
      · obtain ⟨rfl, -⟩ := Prod.mk.inj (Option.some.inj hr)
        obtain ⟨-, rfl, rfl⟩ := Ctl.adquire.inj hctl
        exact hu.elim
  | marking res rest =>
    -- the list of unchecked resources has become shorter than the list of all
    obtain ⟨rfl, -⟩ := Prod.mk.inj (Option.some.inj hr)
    obtain ⟨-, rfl, rfl⟩ := Ctl.adquire.inj hctl
    obtain ⟨done, hd, -, -⟩ := hc
    have hlen : rest.length = (done ++ res :: rest).length := congrArg List.length (hu.trans hd)
    simp only [List.length_append, List.length_cons] at hlen
    omega
  | backoff =>
    obtain ⟨rfl, -⟩ := Prod.mk.inj (Option.some.inj hr)
    obtain ⟨-, rfl, rfl⟩ := Ctl.adquire.inj hctl
    exact hu.elim
  | waitForReady res rest | listening | colliding | backingOff =>
    exact absurd hr (by simp [run, adquireLock])

/-- The thread steps to the head of the retry loop only from the loop that starts the
resources. -/
lemma loop_run {L : Lock} {retry' : UInt32}
    (hr : (⟨L, .adquire none retry pc⟩ : Inst).run = some (I', sent))
    (hctl : I'.ctl = .adquire none retry' .loop) : pc = .start [] := by
  cases pc with
  | start rest =>
    cases rest with
    | nil => rfl
    | cons res rest =>
      obtain ⟨rfl, -⟩ := Prod.mk.inj (Option.some.inj hr)
      exact absurd hctl (by simp)
  | loop =>
    simp only [run, adquireLock] at hr
    split_ifs at hr <;> obtain ⟨rfl, -⟩ := Prod.mk.inj (Option.some.inj hr) <;>
      exact absurd hctl (by simp)
  | starting rest | announcing rest | resetting rest =>
    cases rest with
    | nil | cons res rest =>
      obtain ⟨rfl, -⟩ := Prod.mk.inj (Option.some.inj hr)
      exact absurd hctl (by simp)
  | checking rest =>
    cases rest with
    | nil =>
      obtain ⟨rfl, -⟩ := Prod.mk.inj (Option.some.inj hr)
      exact absurd hctl (by simp)
    | cons res rest =>
      simp only [run, adquireLock] at hr
      split_ifs at hr <;> obtain ⟨rfl, -⟩ := Prod.mk.inj (Option.some.inj hr) <;>
        exact absurd hctl (by simp)
  | marking res rest | backoff =>
    obtain ⟨rfl, -⟩ := Prod.mk.inj (Option.some.inj hr)
    exact absurd hctl (by simp)
  | waitForReady res rest | listening | colliding | backingOff =>
    exact absurd hr (by simp [run, adquireLock])

/-- The end of a wait leads to the head of the retry loop only from the backoff, and to an
unmarked position only from another one. -/
lemma unmarked_resumes {J : Inst} {retry' : UInt32} {pc' : Pc} (hr : J.Resumes I')
    (hj : J.Acquiring none) (hctl : I'.ctl = .adquire none retry' pc') :
    J.ctl = .adquire none retry' pc' ∨ (pc' = .loop ∧ NoneAcquired I'.lock) ∨
      (pc' ≠ .loop ∧ (pc'.Unmarked J.lock →
        ∃ retry pc, J.ctl = .adquire none retry pc ∧ pc.Unmarked J.lock)) := by
  obtain ⟨L, ctl⟩ := J
  rcases hr with rfl | hw | hw | ⟨n, hw⟩
  · exact .inl hctl
  · cases ctl with
    | adquire scope retry pc =>
      obtain ⟨rfl, hsub, hc⟩ := hj
      cases pc with
      | waitForReady res rest | listening | colliding =>
        obtain rfl := Option.some.inj hw
        obtain ⟨-, rfl, rfl⟩ := Ctl.adquire.inj hctl
        exact .inr (.inr ⟨by simp, False.elim⟩)
      | backingOff =>
        obtain rfl := Option.some.inj hw
        obtain ⟨-, rfl, rfl⟩ := Ctl.adquire.inj hctl
        exact .inr (.inl ⟨rfl, noneAcquired_of_backingOff hc⟩)
      | _ => exact absurd hw (by simp [onWake])
    | free b => exact absurd hw (by simp [onWake])
    | _ => exact hj.elim
  · cases ctl with
    | adquire scope retry pc =>
      obtain ⟨rfl, hsub, hc⟩ := hj
      cases pc with
      | listening | colliding =>
        obtain rfl := Option.some.inj hw
        obtain ⟨-, rfl, rfl⟩ := Ctl.adquire.inj hctl
        exact .inr (.inr ⟨by simp, fun _ => ⟨retry, _, rfl, trivial⟩⟩)
      | backingOff =>
        obtain rfl := Option.some.inj hw
        obtain ⟨-, rfl, rfl⟩ := Ctl.adquire.inj hctl
        exact .inr (.inl ⟨rfl, noneAcquired_of_backingOff hc⟩)
      | _ => exact absurd hw (by simp [onTimeout])
    | free b => exact absurd hw (by simp [onTimeout])
    | _ => exact hj.elim
  · obtain ⟨q, res, b, -, rfl, -⟩ := onElapsed_cases hw
    exact hj.elim

/-- The check does not wait. -/
lemma checking_resumes {J : Inst} {scope : Option Name} {rest : List Name}
    (hj : J.ctl = .adquire scope retry (.checking rest)) (hr : J.Resumes I') : I' = J := by
  rcases hr with h | h | h | ⟨n, h⟩
  · exact h
  · exact absurd h (by simp [onWake, hj])
  · exact absurd h (by simp [onTimeout, hj])
  · exact absurd h (by simp [onElapsed, hj])

/-- **Before the first resource is marked, nothing is announced.** -/
lemma discreet_step {s s' : Inst × List DLPacket} (he : e.isCall = false)
    (ha : s.1.Acquiring none) (hd : Discreet s) (h : attempt s e = some s') : Discreet s' := by
  obtain ⟨I, log⟩ := s
  obtain ⟨I', log'⟩ := s'
  obtain ⟨⟨I₁, sent⟩, hs, heq⟩ := Option.map_eq_some_iff.mp h
  obtain ⟨rfl, hlog⟩ := Prod.mk.inj heq
  have hf := frame_step he hs
  -- nothing is announced in this step either, if it does not mark a resource
  have hquiet : NoneAcquired I.lock → (e = .run → ∀ r, I.next ≠ some (r, .setState .acquired)) →
      (I.startsAttempt e ∨ Silent log) → NoneAcquired I₁.lock ∧ Silent log' := by
    intro hn hm hl
    have hn' := noneAcquired_step he hs hn hm
    exact ⟨hn', silent_attempt h hn' hl⟩
  intro retry' pc' hctl
  rcases step_cases he hs with ⟨rfl, hr⟩ | ⟨hne, hr⟩
  · -- the thread takes a step: it starts an attempt, or it is in one already
    obtain ⟨L, ctl⟩ := I
    cases ctl with
    | adquire scope retry pc =>
      obtain ⟨rfl, -, hc⟩ := ha
      obtain ⟨hloop, hunm⟩ := hd retry pc rfl
      refine ⟨?_, fun hu => ?_⟩
      · rintro rfl
        obtain rfl := loop_run hr hctl
        exact noneAcquired_step he hs (noneAcquired_of_has (by simp) hc.2.all) (by simp [next])
      · rcases unmarked_run hc hr hctl ((unmarked_congr hf.names_eq).mp hu) with rfl | ⟨hu', hm⟩
        · exact hquiet (hloop rfl) (by simp [next]) (.inl rfl)
        · refine hquiet (hunm hu').1 (fun _ r hr' => ?_) (.inr (hunm hu').2)
          obtain ⟨scope, retry, rest, hctl'⟩ := marking_of_next hr'
          exact hm r rest (Ctl.adquire.inj hctl').2.2
    | free b => exact absurd hr (by simp [run])
    | _ => exact ha.elim
  · -- the thread stays or its wait ends, so no state is assigned
    have hsame : NoneAcquired I.lock → NoneAcquired I₁.lock := fun hn =>
      noneAcquired_step he hs hn fun he => absurd he hne
    have hj : (⟨I₁.lock, I.ctl⟩ : Inst).Acquiring none :=
      acquiring_keeps hf.names_eq hf.retryMax_eq (fun r => hf.keeps fun he => absurd he hne) ha
    rcases unmarked_resumes hr hj hctl with hJ | ⟨rfl, hn⟩ | ⟨hnl, hu⟩
    · obtain ⟨hloop, hunm⟩ := hd retry' pc' hJ
      refine ⟨fun hl => hsame (hloop hl), fun hu => ?_⟩
      obtain ⟨hn, hl⟩ := hunm ((unmarked_congr hf.names_eq).mp hu)
      exact hquiet hn (fun he => absurd he hne) (.inr hl)
    · exact ⟨fun _ => hn, False.elim⟩
    · refine ⟨fun hl => absurd hl hnl, fun hu' => ?_⟩
      obtain ⟨retry, pc, hJ, hpc⟩ := hu hu'
      obtain ⟨hn, hl⟩ := (hd retry pc hJ).2 ((unmarked_congr hf.names_eq).mp hpc)
      exact hquiet hn (fun he => absurd he hne) (.inr hl)

/-- A run of `adquire_lock()` from its call. -/
lemma attempt_run {I₀ I₁ : Inst} {es : List Event} {s : Inst × List DLPacket}
    (hne : I₀.lock.names ≠ []) (hcall : I₀.step (.call (.acquire [])) = some (I₁, []))
    (hrun : Lib.Run attempt (fun _ e => e.isCall = false) (I₁, []) es s) :
    s.1.Acquiring none ∧ Discreet s ∧ s.1.lock.names = I₀.lock.names := by
  obtain ⟨henter, hacq⟩ := acquiring_enter hne
  have hI₁ : I₁ = ⟨I₀.lock, .adquire none 0 (.start I₀.lock.names)⟩ :=
    (step_call hcall).2.1.trans henter
  refine hrun.invariant (I := fun s => s.1.Acquiring none ∧ Discreet s ∧
    s.1.lock.names = I₀.lock.names) ?_ ⟨by rwa [hI₁, ← henter], ?_, by rw [hI₁]⟩
  · rintro s e s' ⟨ha, hd, hn⟩ he hst
    obtain ⟨⟨I', sent⟩, hI', heq⟩ := Option.map_eq_some_iff.mp hst
    obtain rfl := congrArg Prod.fst heq
    exact ⟨acquiring_step he ha hI', discreet_step he ha hd hst,
      (frame_step he hI').names_eq.trans hn⟩
  · intro retry pc hpc
    rw [hI₁] at hpc
    obtain ⟨-, rfl, rfl⟩ := Ctl.adquire.inj hpc
    exact ⟨by simp, False.elim⟩

/-- **When an attempt that is given up has announced nothing.**  Let the step `e` give up an
attempt of `adquire_lock()`, in any run from its call.  Nothing has been marked or announced as
`ACQUIRED` in this attempt if and only if the step is not the check of a resource that is
found complete after another one has been marked. -/
theorem announces_nothing_iff {I₀ I₁ I I' : Inst} {es : List Event} {log log' : List DLPacket}
    {e : Event} {retry retry' : UInt32} {pc pc' : Pc} (hne : I₀.lock.names ≠ [])
    (hcall : I₀.step (.call (.acquire [])) = some (I₁, []))
    (hrun : Lib.Run attempt (fun _ e => e.isCall = false) (I₁, []) es (I, log))
    (he : e.isCall = false) (hstep : attempt (I, log) e = some (I', log'))
    (hctl : I.ctl = .adquire none retry pc) (hpc : pc.Undecided)
    (hctl' : I'.ctl = .adquire none retry' pc') (hpc' : pc'.GivenUp) :
    NoneAcquired I'.lock ∧ Silent log' ↔
      ∀ res rest, pc = .checking (res :: rest) → I₀.lock.names.head? = some res := by
  obtain ⟨hacq, hdisc, hnames⟩ := attempt_run hne hcall hrun
  obtain ⟨⟨I₂, sent⟩, hs, heq⟩ := Option.map_eq_some_iff.mp hstep
  obtain rfl := congrArg Prod.fst heq
  obtain ⟨-, -, hc⟩ : none = none ∧ (∀ r ∈ I.lock.targets none, r ∈ I.lock.names) ∧
      pc.Coherent I.lock none retry := by rwa [Acquiring, hctl] at hacq
  have hnext : ∀ r a, I.next ≠ some (r, a) := by
    intro r a
    cases pc <;> first | exact hpc.elim | simp [next, hctl]
  rw [← hnames]
  constructor
  · rintro ⟨hn, -⟩ res rest rfl
    obtain ⟨done, hd, hP, -⟩ := hc
    change I.lock.names = _ at hd
    rw [hd]
    cases done with
    | nil => rfl
    | cons d done =>
      -- a resource that has been marked is still marked when the attempt is given up
      have hk : Keeps I.lock I₂.lock d := (frame_step he hs).keeps fun _ => hnext d
      exact absurd (hk.has (hP d List.mem_cons_self)) (hn d)
  · intro hfirst
    have hu : pc.Unmarked I.lock := by
      cases pc with
      | listening | colliding => exact trivial
      | checking rest =>
        cases rest with
        | nil =>
          -- the attempt is not given up
          rcases step_cases he hs with ⟨rfl, hr⟩ | ⟨-, hr⟩
          · rw [run, hctl] at hr
            obtain ⟨rfl, -⟩ := Prod.mk.inj (Option.some.inj hr)
            exact absurd hctl' (by simp)
          · rw [checking_resumes (J := ⟨I₂.lock, I.ctl⟩) hctl hr] at hctl'
            obtain ⟨-, -, rfl⟩ := Ctl.adquire.inj (hctl.symm.trans hctl')
            exact hpc'.elim
        | cons res rest =>
          obtain ⟨done, hd, -, -⟩ := hc
          change I.lock.names = _ at hd
          have hhead := hfirst res rest rfl
          have hnd : (done ++ res :: rest).Nodup := hd ▸ I.lock.names_nodup
          cases done with
          | nil => exact hd.symm
          | cons d done =>
            -- the first resource would occur twice in the map
            rw [hd] at hhead
            obtain rfl : d = res := Option.some.inj hhead
            exact absurd (List.mem_append_right done List.mem_cons_self) (List.nodup_cons.mp hnd).1
      | _ => exact hpc.elim
    obtain ⟨hn, hl⟩ := (hdisc retry pc hctl).2 hu
    have hn' := noneAcquired_step he hs hn fun _ r => hnext r _
    exact ⟨hn', silent_attempt hstep hn' (.inr hl)⟩

/-- An instance with the resources `a` and `b`. -/
def twoResources : Inst :=
  ⟨((Lock.new 1 50).defineResource [97] 1).defineResource [98] 1, .free none⟩

/-- `adquire_lock()` with two resources up to the collision wait, where a holder of `res` is
heard of, and on to the first check. -/
def untilCheck (res : Name) : List Event :=
  [.run, .wake, .run, .wake, .run, .run, .run, .run, .run, .timeout, .run, .run, .run,
    .deliver (((DLPacket.new State.acquired.toByte 2).setResource res).setCount 1), .timeout]

/-- The first resource is complete, and nothing has been announced. -/
theorem announces_nothing_first :
    ∃ I₁ s s', twoResources.step (.call (.acquire [])) = some (I₁, []) ∧
      Lib.Run attempt (fun _ e => e.isCall = false) (I₁, []) (untilCheck [97]) s ∧
      attempt s .run = some s' ∧ NoneAcquired s'.1.lock ∧ Silent s'.2 := by
  have hcall : twoResources.step (.call (.acquire [])) =
      some (enter twoResources.lock (.acquire []), []) := rfl
  have hrun : Lib.Run attempt (fun _ e => e.isCall = false)
      (enter twoResources.lock (.acquire []), []) (untilCheck [97]) _ := Lib.Run.of_exec rfl
  have hnothing : ∀ {s s' : Inst × List DLPacket},
      Lib.Run attempt (fun _ e => e.isCall = false)
        (enter twoResources.lock (.acquire []), []) (untilCheck [97]) s →
      attempt s .run = some s' → s.1.ctl = .adquire none 0 (.checking [[97], [98]]) →
      s'.1.ctl = .adquire none 0 (.resetting [[97], [98]]) →
      NoneAcquired s'.1.lock ∧ Silent s'.2 := by
    intro s s' hrun hstep hctl hctl'
    refine (announces_nothing_iff (by decide) hcall hrun rfl hstep hctl trivial hctl'
      trivial).mpr ?_
    rintro res rest ⟨⟩
    rfl
  exact ⟨_, _, _, hcall, hrun, rfl, hnothing hrun rfl rfl rfl⟩

/-- The second resource is complete: the attempt is given up after the first resource has been
announced as `ACQUIRED`. -/
theorem announces_half :
    ∃ I₁ I log retry, twoResources.step (.call (.acquire [])) = some (I₁, []) ∧
      Lib.Run attempt (fun _ e => e.isCall = false) (I₁, [])
        (untilCheck [98] ++ [.run, .run, .run]) (I, log) ∧
      I.ctl = .adquire none retry (.resetting I.lock.names) ∧
      ∃ p ∈ log, p.state = State.acquired.toByte ∧ p.resource = [97] := by
  have hrun : Lib.Run attempt (fun _ e => e.isCall = false)
      (enter twoResources.lock (.acquire []), [])
      (untilCheck [98] ++ [.run, .run, .run]) _ := Lib.Run.of_exec rfl
  exact ⟨_, _, _, 0, rfl, hrun, rfl, by decide⟩

end Inst
end DistLock
