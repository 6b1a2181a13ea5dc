/-
The process of the command-line tool that acquires the resources: the child of the first `fork`
of `main` (`dist_lock.cc`).

`main` is the thread that calls the instance `dl`, and between its steps anything may happen to
the instance.  After a successful `acquire` every path returns from `main` inside the branch, so
the call of `releaseAll` behind the branch has no way in and the destructor does not run.

What is printed and the signals to the parent process are left out, and so is the process that
the second `fork` makes for the command.
-/
import DistLock.Acquire.Coherent

namespace DistLock

open Lib (OrdMap Run)

/-- What the child reads of the command line. -/
structure Options where
  resMap : OrdMap Name UInt32
  resource : Name
  isAny : Bool
  query : Bool
  isWaiting : Bool
  retryNum : UInt32
  beaconTime : UInt64
  argv : List Name
  optind : ℕ

/-- Where `main` is.  The lists hold the entries of `res_map` that are still to be defined. -/
inductive ChildPc
  | constructing
  | limiting
  | defining (rest : List ((_ : Name) × UInt32))
  | defined (rest : List ((_ : Name) × UInt32))
  | dispatching
  | asking
  | acquiring
  | forking
  | waiting (pid : ℤ)
  | waited
  | releasing
  | released
  | deleting
  | destroying
  | exited (code : UInt32)
  deriving DecidableEq

/-- The child process: the object `dl`, the position of `main`, the variable `status`, and all
packets that have been broadcast. -/
structure Child where
  dl : Option Inst
  pc : ChildPc
  status : UInt32
  sent : List DLPacket
  deriving DecidableEq

/-- What can happen to the child: something inside the instance, a step of `main`, or the return
of the constructor of `DistributedLock` (with the random id, or by an exception), of `fork` and
of `waitpid`. -/
inductive ChildEvent
  | dl (e : Event)
  | main
  | constructed (id : Option UInt32)
  | forked (pid : ℤ)
  | waited (r : ℤ) (status : UInt32)
  deriving DecidableEq

/-- `WIFEXITED`. -/
def wifexited (status : UInt32) : Bool := status &&& 0x7f = 0

/-- `WEXITSTATUS`. -/
def wexitstatus (status : UInt32) : UInt32 := (status >>> 8) &&& 0xff

/-- The string `--`. -/
def dashes : Name := [45, 45]

namespace Child

def start : Child where
  dl := none
  pc := .constructing
  status := 0
  sent := []

/-- `main` returns, or calls `exit`. -/
def exit (s : Child) (code : UInt32) : Child := { s with dl := none, pc := .exited code }

/-- `main` calls a public function of `dl`. -/
def call (s : Child) (I : Inst) (c : Call) (pc : ChildPc) : Option Child :=
  (I.step (.call c)).map fun r => { s with dl := some r.1, pc := pc, sent := s.sent ++ r.2 }

/-- The branches after the definition of the resources. -/
def dispatch (o : Options) (s : Child) (I : Inst) : Option Child :=
  if o.query && !o.isAny && !o.isWaiting then s.call I (.query .isBusy o.resource) .asking
  else if !o.query && o.isAny && !o.isWaiting then s.call I (.query .isAny o.resource) .asking
  else if !o.query && !o.isAny && o.isWaiting then s.call I (.query .isWaiting o.resource) .asking
  else if !o.query && !o.isAny && !o.isWaiting then
    if o.optind > 0 then
      if o.argv[o.optind - 1]? = some dashes ∧ o.argv.length > o.optind then
        s.call I (.acquire []) .acquiring
      else some (s.exit 2)
    else some (s.exit 1)
  else some { s with pc := .deleting }

/-- A step of `main` outside the functions of `dl` and the system calls. -/
def mainStep (o : Options) (s : Child) (I : Inst) : Option Child :=
  match s.pc with
  | .limiting =>
    s.call I (.setAdquireMaxRetry o.retryNum) (.defining o.resMap.entries)
  | .defining (⟨res, count⟩ :: rest) => s.call I (.defineResource res count) (.defined rest)
  | .defined rest =>
    match I.ctl with
    | .free (some true) => some { s with pc := .defining rest }
    | .free (some false) => some (s.exit 4)
    | _ => none
  | .defining [] =>
    -- an empty map is refused without a round of the loop
    if o.resMap.entries.length > 0 then some { s with pc := .dispatching } else some (s.exit 1)
  | .dispatching => s.dispatch o I
  | .asking =>
    match I.ctl with
    | .free (some b) => some { s with status := if b then 1 else 0, pc := .deleting }
    | _ => none
  | .acquiring =>
    match I.ctl with
    | .free (some true) => some { s with pc := .forking }
    | .free (some false) => some (s.exit 5)
    | _ => none
  | .waited => some (s.exit (if wifexited s.status then wexitstatus s.status else 1))
  | .releasing => s.call I .releaseAll .released
  | .released =>
    match I.ctl with
    | .free (some _) => some { s with pc := .deleting }
    | _ => none
  | .deleting => s.call I .releaseAll .destroying
  | .destroying =>
    match I.ctl with
    | .free (some _) => some (s.exit s.status)
    | _ => none
  | _ => none

/-- One step of the child process. -/
def step (o : Options) (s : Child) : ChildEvent → Option Child
  | .dl e =>
    if e.isCall then none
    else s.dl.bind fun I => (I.step e).map fun r =>
      { s with dl := some r.1, sent := s.sent ++ r.2 }
  | .main => s.dl.bind fun I => s.mainStep o I
  | .constructed id =>
    match s.pc with
    | .constructing =>
      match id with
      | some id =>
        some { s with dl := some ⟨Lock.new id o.beaconTime, .free none⟩, pc := .limiting }
      | none => some (s.exit 3)
    | _ => none
  | .forked pid =>
    match s.pc with
    | .forking =>
      if pid < 0 then some (s.exit 4)
      else if pid > 0 then some { s with pc := .waiting pid } else none
    | _ => none
  | .waited r status =>
    match s.pc with
    | .waiting pid => some { s with status := if r = pid then status else s.status, pc := .waited }
    | _ => none

/-- The call of `acquire` has returned true. -/
def Acquired (s : Child) : Prop :=
  s.pc = .acquiring ∧ ∃ I, s.dl = some I ∧ I.ctl = .free (some true)

/-- A `RELEASED` packet has been broadcast for every resource of the map. -/
def ReleasesAll (o : Options) (s : Child) : Prop :=
  ∀ res ∈ o.resMap.keys, ∃ p ∈ s.sent, p.resource = res ∧ State.ofByte p.state = .released

end Child

/-! ### Nothing is released without a call -/

namespace Inst

section quiet

variable {I I' : Inst} {e : Event} {c : Call} {sent : List DLPacket}

/-- No resource is `RELEASED`, and no function that releases is at work. -/
structure Quiet (I : Inst) : Prop where
  absent : ∀ r, ¬ I.lock.Has .released r
  job : I.job ≠ some .release

lemma job_of_next_released {r : Name} (h : I.next = some (r, .setState .released)) :
    I.job = some .release := by
  obtain ⟨L, ctl⟩ := I
  cases ctl with
  | releasing rest | stopping res rest => rfl
  | free b => cases h
  | adquire scope retry pc =>
    cases pc with
    | start rest | starting rest | announcing rest | resetting rest => cases rest <;> cases h
    | _ => cases h
  | query q res pc => cases pc <;> cases h

lemma Quiet.step (hq : I.Quiet) (he : e.isCall = false) (hs : I.step e = some (I', sent)) :
    I'.Quiet ∧ ∀ p ∈ sent, State.ofByte p.state ≠ .released := by
  have habsent : ∀ r, ¬ I'.lock.Has .released r :=
    (frame_step he hs).absent (by simp) hq.absent
      fun _ r hr => hq.job (job_of_next_released hr)
  refine ⟨⟨habsent, ?_⟩, fun p hp hrel => ?_⟩
  · rcases job_step he hs with hj | hj
    · rw [hj]
      simp
    · rw [hj]
      exact hq.job
  · obtain ⟨r, hr⟩ := has_of_sent hs hp
    exact habsent r (hrel ▸ hr)

/-- The functions that do not release start quietly. -/
lemma Quiet.call (hq : I.Quiet) (hc : (enter I.lock c).job ≠ some .release)
    (hs : I.step (.call c) = some (I', sent)) : I'.Quiet ∧ sent = [] := by
  obtain ⟨-, rfl, rfl⟩ := step_call hs
  refine ⟨⟨fun r hr => ?_, hc⟩, rfl⟩
  rw [Lock.Has, Lock.stateOf, getResource_enter] at hr
  split_ifs at hr
  · rw [Option.map_some, recount_state] at hr
    cases hR : I.lock.getResource r with
    | none =>
      rw [hR] at hr
      cases hr
    | some R =>
      rw [hR] at hr
      refine hq.absent r ?_
      rw [Lock.Has, Lock.stateOf, hR]
      exact hr
  · exact hq.absent r hr

end quiet

end Inst

/-! ### The control flow of the child -/

namespace ChildPc

/-- The edges between the positions of `main`. -/
inductive Flow : ChildPc → ChildPc → Prop
  | stay (pc : ChildPc) : Flow pc pc
  | exit (pc : ChildPc) (code : UInt32) : Flow pc (.exited code)
  | construct : Flow .constructing .limiting
  | limit (rest : List ((_ : Name) × UInt32)) : Flow .limiting (.defining rest)
  | define (d : (_ : Name) × UInt32) (rest : List ((_ : Name) × UInt32)) :
    Flow (.defining (d :: rest)) (.defined rest)
  | next (rest : List ((_ : Name) × UInt32)) : Flow (.defined rest) (.defining rest)
  | dispatch : Flow (.defining []) .dispatching
  | ask : Flow .dispatching .asking
  | acquire : Flow .dispatching .acquiring
  | skip : Flow .dispatching .deleting
  | answer : Flow .asking .deleting
  | acquired : Flow .acquiring .forking
  | fork (pid : ℤ) : Flow .forking (.waiting pid)
  | wait (pid : ℤ) : Flow (.waiting pid) .waited
  | release : Flow .releasing .released
  | finish : Flow .released .deleting
  | delete : Flow .deleting .destroying

/-- The positions up to the return of `acquire`. -/
def Early : ChildPc → Prop
  | constructing | limiting | defining _ | defined _ | dispatching | asking | acquiring => True
  | _ => False

/-- The positions from the call of `acquire` on. -/
def Late : ChildPc → Prop
  | acquiring | forking | waiting _ | waited | exited _ => True
  | _ => False

/-- The positions from which `main` calls `releaseAll`. -/
def Releases (pc : ChildPc) : Prop := pc = .releasing ∨ pc = .deleting

lemma Flow.early {pc pc' : ChildPc} (h : Flow pc pc') (he : pc'.Early) : pc.Early := by
  cases h with
  | stay => exact he
  | exit | skip | answer | acquired | fork | wait | release | finish | delete =>
    exact absurd he (fun h => h)
  | _ => trivial

/-- Nothing leads from `acquire` to a call of `releaseAll`. -/
lemma Flow.late {pc pc' : ChildPc} (h : Flow pc pc') (hl : pc.Late) : pc'.Late := by
  cases h with
  | stay => exact hl
  | exit | acquired | fork | wait => trivial
  | _ => exact absurd hl (fun h => h)

lemma Early.not_releases {pc : ChildPc} (h : pc.Early) : ¬ pc.Releases := by
  rintro (rfl | rfl) <;> exact h

lemma Late.not_releases {pc : ChildPc} (h : pc.Late) : ¬ pc.Releases := by
  rintro (rfl | rfl) <;> exact h

end ChildPc

namespace Child

section step

variable {o : Options} {s s' : Child} {I : Inst} {c : Call} {e : ChildEvent} {pc : ChildPc}

lemma call_inv (h : s.call I c pc = some s') :
    ∃ I' sent, I.step (.call c) = some (I', sent) ∧
      s' = { s with dl := some I', pc := pc, sent := s.sent ++ sent } := by
  obtain ⟨⟨I', sent⟩, hs, rfl⟩ := Option.map_eq_some_iff.mp h
  exact ⟨I', sent, hs, rfl⟩

/-- The branches of `mainStep`, with what `main` has tested on each of them. -/
inductive Branch (o : Options) (s : Child) (I : Inst) (s' : Child) : Prop
  | limit (hpc : s.pc = .limiting)
    (h : s.call I (.setAdquireMaxRetry o.retryNum) (.defining o.resMap.entries) = some s')
  | define (d : (_ : Name) × UInt32) (rest : List ((_ : Name) × UInt32))
    (hpc : s.pc = .defining (d :: rest))
    (h : s.call I (.defineResource d.1 d.2) (.defined rest) = some s')
  | next (rest : List ((_ : Name) × UInt32)) (hpc : s.pc = .defined rest)
    (hctl : I.ctl = .free (some true)) (h : s' = { s with pc := .defining rest })
  | undefined (rest : List ((_ : Name) × UInt32)) (hpc : s.pc = .defined rest)
    (h : s' = s.exit 4) (hctl : I.ctl = .free (some false))
  | dispatch (hpc : s.pc = .defining []) (hlen : 0 < o.resMap.entries.length)
    (h : s' = { s with pc := .dispatching })
  | empty (hpc : s.pc = .defining []) (h : s' = s.exit 1)
    (hlen : ¬ 0 < o.resMap.entries.length)
  | ask (q : Query) (hpc : s.pc = .dispatching)
    (hq : (o.query || o.isAny || o.isWaiting) = true)
    (h : s.call I (.query q o.resource) .asking = some s')
  | acquire (hpc : s.pc = .dispatching) (hq : (o.query || o.isAny || o.isWaiting) = false)
    (h : s.call I (.acquire []) .acquiring = some s')
    (hb : 0 < o.optind ∧ o.argv[o.optind - 1]? = some dashes ∧ o.optind < o.argv.length)
  | usage (code : UInt32) (hpc : s.pc = .dispatching) (h : s' = s.exit code)
    (hnot : ¬ (0 < o.optind ∧ o.argv[o.optind - 1]? = some dashes ∧ o.optind < o.argv.length))
  | skip (hpc : s.pc = .dispatching) (hq : (o.query || o.isAny || o.isWaiting) = true)
    (h : s' = { s with pc := .deleting })
  | answer (b : Bool) (hpc : s.pc = .asking) (hctl : I.ctl = .free (some b))
    (h : s' = { s with status := if b then 1 else 0, pc := .deleting })
  | acquired (hpc : s.pc = .acquiring) (hctl : I.ctl = .free (some true))
    (h : s' = { s with pc := .forking })
  | refused (hpc : s.pc = .acquiring) (h : s' = s.exit 5) (hctl : I.ctl = .free (some false))
  | ended (hpc : s.pc = .waited)
    (h : s' = s.exit (if wifexited s.status then wexitstatus s.status else 1))
  | release (hpc : s.pc = .releasing) (h : s.call I .releaseAll .released = some s')
  | finish (hpc : s.pc = .released) (h : s' = { s with pc := .deleting })
  | delete (hpc : s.pc = .deleting) (h : s.call I .releaseAll .destroying = some s')
  | destroyed (hpc : s.pc = .destroying) (h : s' = s.exit s.status)

/-- The branches after the definition of the resources. -/
lemma branch_dispatch (hpc : s.pc = .dispatching) (h : s.dispatch o I = some s') :
    Branch o s I s' := by
  rw [Child.dispatch] at h
  split_ifs at h with hany hall hwait hnone hpos hdash
  · exact .ask .isBusy hpc (by simp_all) h
  · exact .ask .isAny hpc (by simp_all) h
  · exact .ask .isWaiting hpc (by simp_all) h
  · exact .acquire hpc (by simp_all) h ⟨hpos, hdash⟩
  · exact .usage 2 hpc (Option.some.inj h).symm fun hb => hdash hb.2
  · exact .usage 1 hpc (Option.some.inj h).symm fun hb => hpos hb.1
  · refine .skip hpc ?_ (Option.some.inj h).symm
    rw [← Bool.not_eq_false]
    intro hq
    simp_all

/-- **What a step of `main` does.** -/
lemma branch_of_mainStep (h : s.mainStep o I = some s') : Branch o s I s' := by
  rw [mainStep] at h
  cases hpc : s.pc with
  | limiting =>
    rw [hpc] at h
    exact .limit hpc h
  | defining rest =>
    rw [hpc] at h
    cases rest with
    | nil =>
      dsimp only at h
      split_ifs at h with hlen
      · exact .dispatch hpc hlen (Option.some.inj h).symm
      · exact .empty hpc (Option.some.inj h).symm hlen
    | cons d rest => exact .define d rest hpc h
  | defined rest =>
    rw [hpc] at h
    dsimp only at h
    split at h
    · next hctl => exact .next rest hpc hctl (Option.some.inj h).symm
    · next hctl => exact .undefined rest hpc (Option.some.inj h).symm hctl
    · cases h
  | dispatching =>
    rw [hpc] at h
    exact branch_dispatch hpc h
  | asking =>
    rw [hpc] at h
    dsimp only at h
    split at h
    · next b hctl => exact .answer b hpc hctl (Option.some.inj h).symm
    · cases h
  | acquiring =>
    rw [hpc] at h
    dsimp only at h
    split at h
    · next hctl => exact .acquired hpc hctl (Option.some.inj h).symm
    · next hctl => exact .refused hpc (Option.some.inj h).symm hctl
    · cases h
  | waited =>
    rw [hpc] at h
    exact .ended hpc (Option.some.inj h).symm
  | releasing =>
    rw [hpc] at h
    exact .release hpc h
  | deleting =>
    rw [hpc] at h
    exact .delete hpc h
  | released =>
    rw [hpc] at h
    dsimp only at h
    split at h
    · exact .finish hpc (Option.some.inj h).symm
    · cases h
  | destroying =>
    rw [hpc] at h
    dsimp only at h
    split at h
    · exact .destroyed hpc (Option.some.inj h).symm
    · cases h
  | constructing | forking | waiting | exited =>
    rw [hpc] at h
    cases h

/-- A step of `main` ends the process, goes on, or calls a function. -/
lemma mainStep_inv (h : s.mainStep o I = some s') :
    (∃ code, s' = s.exit code) ∨
      (∃ pc st, s.pc.Flow pc ∧ s' = { s with pc := pc, status := st }) ∨
      (∃ pc c, s.pc.Flow pc ∧ s.call I c pc = some s' ∧
        (¬ s.pc.Releases → (Inst.enter I.lock c).job ≠ some .release)) := by
  have hacquire : (Inst.enter I.lock (.acquire [])).job ≠ some .release := by
    rw [Inst.enter]
    split_ifs <;> simp [Inst.job]
  cases branch_of_mainStep h with
  | undefined _ _ h | empty _ h | usage _ _ h | refused _ h | ended _ h | destroyed _ h =>
    exact .inl ⟨_, h⟩
  | next rest hpc _ h => exact .inr (.inl ⟨_, s.status, hpc ▸ .next rest, h⟩)
  | dispatch hpc _ h => exact .inr (.inl ⟨_, s.status, hpc ▸ .dispatch, h⟩)
  | skip hpc _ h => exact .inr (.inl ⟨_, s.status, hpc ▸ .skip, h⟩)
  | answer b hpc _ h => exact .inr (.inl ⟨_, _, hpc ▸ .answer, h⟩)
  | acquired hpc _ h => exact .inr (.inl ⟨_, s.status, hpc ▸ .acquired, h⟩)
  | finish hpc h => exact .inr (.inl ⟨_, s.status, hpc ▸ .finish, h⟩)
  | limit hpc h =>
    exact .inr (.inr ⟨_, _, hpc ▸ .limit _, h, fun _ => by simp [Inst.enter, Inst.job]⟩)
  | define d rest hpc h =>
    exact .inr (.inr ⟨_, _, hpc ▸ .define d rest, h, fun _ => by simp [Inst.enter, Inst.job]⟩)
  | ask q hpc _ h =>
    exact .inr (.inr ⟨_, _, hpc ▸ .ask, h, fun _ => by simp [Inst.enter, Inst.job]⟩)
  | acquire hpc _ h => exact .inr (.inr ⟨_, _, hpc ▸ .acquire, h, fun _ => hacquire⟩)
  | release hpc h =>
    exact .inr (.inr ⟨_, _, hpc ▸ .release, h, fun hn => absurd (.inl hpc) hn⟩)
  | delete hpc h =>
    exact .inr (.inr ⟨_, _, hpc ▸ .delete, h, fun hn => absurd (.inr hpc) hn⟩)

/-- What can happen to the process at its position. -/
inductive Transition (o : Options) (s : Child) : ChildEvent → Child → Prop
  | dl (e : Event) (I I' : Inst) (sent : List DLPacket) (he : e.isCall = false)
    (hI : s.dl = some I) (hs : I.step e = some (I', sent)) :
    Transition o s (.dl e) { s with dl := some I', sent := s.sent ++ sent }
  | main (I : Inst) (s' : Child) (hI : s.dl = some I) (hs : s.mainStep o I = some s') :
    Transition o s .main s'
  | construct (id : UInt32) (hpc : s.pc = .constructing) :
    Transition o s (.constructed (some id))
      { s with dl := some ⟨Lock.new id o.beaconTime, .free none⟩, pc := .limiting }
  | throws (hpc : s.pc = .constructing) : Transition o s (.constructed none) (s.exit 3)
  | forkFails (pid : ℤ) (hpc : s.pc = .forking) (hneg : pid < 0) :
    Transition o s (.forked pid) (s.exit 4)
  | forks (pid : ℤ) (hpc : s.pc = .forking) (hpos : 0 < pid) :
    Transition o s (.forked pid) { s with pc := .waiting pid }
  | waits (pid r : ℤ) (status : UInt32) (hpc : s.pc = .waiting pid) :
    Transition o s (.waited r status)
      { s with status := if r = pid then status else s.status, pc := .waited }

/-- **Every step of the process is one of these.** -/
lemma transition_of_step (h : s.step o e = some s') : Transition o s e s' := by
  cases e with
  | dl e =>
    rw [step] at h
    split_ifs at h with he
    obtain ⟨I, hI, h⟩ := Option.bind_eq_some_iff.mp h
    obtain ⟨⟨I', sent⟩, hs, rfl⟩ := Option.map_eq_some_iff.mp h
    exact .dl e I I' sent (Bool.not_eq_true _ ▸ he) hI hs
  | main =>
    obtain ⟨I, hI, h⟩ := Option.bind_eq_some_iff.mp h
    exact .main I s' hI h
  | constructed id =>
    cases id with
    | some id =>
      rw [step] at h
      split at h
      · next hpc =>
        obtain rfl := Option.some.inj h
        exact .construct id hpc
      · cases h
    | none =>
      rw [step] at h
      split at h
      · next hpc =>
        obtain rfl := Option.some.inj h
        exact .throws hpc
      · cases h
  | forked pid =>
    rw [step] at h
    split at h
    · next hpc =>
      split_ifs at h with hneg hpos
      · obtain rfl := Option.some.inj h
        exact .forkFails pid hpc hneg
      · obtain rfl := Option.some.inj h
        exact .forks pid hpc hpos
    · cases h
  | waited r status =>
    rw [step] at h
    split at h
    · next pid hpc =>
      obtain rfl := Option.some.inj h
      exact .waits pid r status hpc
    · cases h

/-- Every step goes along an edge of the control flow. -/
lemma step_flow (h : s.step o e = some s') : s.pc.Flow s'.pc := by
  cases transition_of_step h with
  | dl => exact .stay s.pc
  | main I s' hI h =>
    obtain ⟨code, rfl⟩ | ⟨pc, st, hf, rfl⟩ | ⟨pc, c, hf, hc, -⟩ := mainStep_inv h
    · exact .exit s.pc code
    · exact hf
    · obtain ⟨I', sent, -, rfl⟩ := call_inv hc
      exact hf
  | construct id hpc =>
    rw [hpc]
    exact .construct
  | throws => exact .exit s.pc 3
  | forkFails => exact .exit s.pc 4
  | forks pid hpc =>
    rw [hpc]
    exact .fork pid
  | waits pid r status hpc =>
    rw [hpc]
    exact .wait pid

/-! ### Runs of the child -/

/-- The instance is quiet, and no `RELEASED` packet has been broadcast. -/
structure Quiet (s : Child) : Prop where
  dl : ∀ I, s.dl = some I → I.Quiet
  sent : ∀ p ∈ s.sent, State.ofByte p.state ≠ .released

lemma Quiet.start : Child.start.Quiet where
  dl := fun _ h => by cases h
  sent := fun _ hp => absurd hp List.not_mem_nil

lemma Quiet.exit (hq : s.Quiet) (code : UInt32) : (s.exit code).Quiet where
  dl := fun _ h => by cases h
  sent := hq.sent

/-- What the instance does quietly is quiet for the process. -/
lemma Quiet.update {I' : Inst} {sent : List DLPacket} (hq : s.Quiet) (hI : I'.Quiet)
    (hsent : ∀ p ∈ sent, State.ofByte p.state ≠ .released) :
    Quiet { s with dl := some I', pc := pc, sent := s.sent ++ sent } where
  dl := fun J hJ => by
    obtain rfl := Option.some.inj hJ
    exact hI
  sent := fun p hp => (List.mem_append.mp hp).elim (hq.sent p) (hsent p)

/-- Only the two calls of `releaseAll` make a noise. -/
lemma Quiet.step (hq : s.Quiet) (hpc : ¬ s.pc.Releases) (h : s.step o e = some s') :
    s'.Quiet := by
  cases transition_of_step h with
  | dl e I I' sent he hI hs =>
    obtain ⟨hI', hsent⟩ := (hq.dl I hI).step he hs
    exact hq.update hI' hsent
  | main I s' hI h =>
    obtain ⟨code, rfl⟩ | ⟨pc, st, -, rfl⟩ | ⟨pc, c, -, hc, hjob⟩ := mainStep_inv h
    · exact hq.exit code
    · exact ⟨hq.dl, hq.sent⟩
    · obtain ⟨I', sent, hs, rfl⟩ := call_inv hc
      obtain ⟨hI', rfl⟩ := (hq.dl I hI).call (hjob hpc) hs
      exact hq.update hI' fun p hp => absurd hp List.not_mem_nil
  | construct id =>
    refine ⟨fun I hI => ?_, hq.sent⟩
    obtain rfl := Option.some.inj hI
    refine ⟨fun r hr => ?_, by simp [Inst.job]⟩
    rw [Lock.Has, Lock.stateOf, Lock.getResource_new] at hr
    cases hr
  | throws | forkFails => exact hq.exit _
  | forks | waits => exact ⟨hq.dl, hq.sent⟩

end step

section runs

variable {o : Options} {s₁ s : Child} {es₁ es₂ : List ChildEvent}

/-- Until `acquire` returns, nothing is released. -/
lemma quiet_of_early (h : Run (step o) (fun _ _ => True) start es₁ s) (hpc : s.pc.Early) :
    s.Quiet := by
  refine h.invariant (I := fun s => s.pc.Early → s.Quiet) ?_ (fun _ => Quiet.start) hpc
  intro s e s' hs _ hstep hpc'
  have hpc := (step_flow hstep).early hpc'
  exact (hs hpc).step hpc.not_releases hstep

/-- **A child that has acquired releases nothing.**  In every run of the process in which
`acquire` returns true, whatever `fork`, `waitpid` and the command do, no `RELEASED` packet has
been broadcast at any later point, the exit of the process included. -/
theorem acquired_never_released (hne : o.resMap.keys ≠ [])
    (h₁ : Run (step o) (fun _ _ => True) start es₁ s₁) (hacq : s₁.Acquired)
    (h₂ : Run (step o) (fun _ _ => True) s₁ es₂ s) :
    (∀ p ∈ s.sent, State.ofByte p.state ≠ .released) ∧ ¬ s.ReleasesAll o := by
  have hearly : s₁.Quiet := quiet_of_early h₁ (by rw [hacq.1]; trivial)
  have hlate : s₁.pc.Late := by rw [hacq.1]; trivial
  have hinv : s.pc.Late ∧ s.Quiet := by
    refine h₂.invariant (I := fun s => s.pc.Late ∧ s.Quiet) ?_ ⟨hlate, hearly⟩
    rintro s e s' ⟨hl, hq⟩ - hstep
    exact ⟨(step_flow hstep).late hl, hq.step hl.not_releases hstep⟩
  refine ⟨hinv.2.sent, fun hall => ?_⟩
  obtain ⟨res, hres⟩ := List.exists_mem_of_ne_nil _ hne
  obtain ⟨p, hp, -, hrel⟩ := hall res hres
  exact hinv.2.sent p hp hrel

/-- `dist_lock -r a -- b`. -/
def oneResource : Options where
  resMap := .insert .empty [97] 1
  resource := [97]
  isAny := false
  query := false
  isWaiting := false
  retryNum := 0
  beaconTime := 50
  argv := [[100], [45, 114], [97], dashes, [98]]
  optind := 4

/-- The child of `dist_lock -r a -- b` up to the return of `acquire`; nobody else is there. -/
def untilAcquired : List ChildEvent :=
  [.constructed (some 1), .main, .main, .main, .main, .main, .dl .run, .dl .wake, .dl .run,
    .dl .run, .dl .run, .dl .run, .dl .timeout, .dl .run, .dl .run, .dl .timeout, .dl .run,
    .dl .run, .dl .run]

/-- The second `fork` fails. -/
theorem never_released_fork :
    ∃ s : Child, s.pc = .exited 4 ∧ (∀ p ∈ s.sent, State.ofByte p.state ≠ .released) ∧
      ¬ s.ReleasesAll oneResource := by
  have hrun : ∃ s₁, Run (step oneResource) (fun _ _ => True) start untilAcquired s₁ ∧
      s₁.Acquired ∧ ∃ s, Run (step oneResource) (fun _ _ => True) s₁ [.main, .forked (-1)] s ∧
        s.pc = .exited 4 :=
    ⟨_, Run.of_exec rfl, ⟨rfl, _, rfl, rfl⟩, _, Run.of_exec rfl, rfl⟩
  obtain ⟨s₁, h₁, hacq, s, h₂, hexit⟩ := hrun
  exact ⟨s, hexit, acquired_never_released (by decide) h₁ hacq h₂⟩

/-- The command succeeds, and the process exits with its exit code while the others are left to
find out that the resource is free. -/
theorem acquired_exits_unreleased :
    ∃ s₁ s, Run (step oneResource) (fun _ _ => True) start untilAcquired s₁ ∧ s₁.Acquired ∧
      Run (step oneResource) (fun _ _ => True) s₁ [.main, .forked 42, .waited 42 0, .main] s ∧
      s.pc = .exited 0 ∧ ¬ s.ReleasesAll oneResource := by
  refine ⟨_, _, Run.of_exec rfl, ⟨rfl, _, rfl, rfl⟩, Run.of_exec rfl, rfl, fun hall => ?_⟩
  exact absurd (hall [97] (by decide)) (by decide)

end runs

end Child
end DistLock
