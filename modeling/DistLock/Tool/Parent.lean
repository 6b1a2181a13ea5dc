/-
The two processes of the command-line tool (`dist_lock.cc`).

After the first `fork` of `main` the child acquires the resources and runs the command, as in
`DistLock.Tool.Child`, and the parent waits for its exit status.  With the option `-d` the parent
first waits for one of the signals that the child sends, and it leaves the child alone if the
signal is `SIGUSR1`.  A signal interrupts the parent wherever it is, and its handler only wakes
a parent that is in `parent_wait.wait` already.  `SIGINT` may reach either process at any time; its
handler kills a process group, which is that of the parent as long as the child has not called
`setsid`, and the handler runs in the child.

The exit code of the tool is that of the child, or 0 after `-d` once the resources have been
acquired (`exit_code`).  After `-d` the parent ends only if a signal finds it waiting
(`exits_iff`); without a command there is none (`no_exit_of_no_command`).
-/
import DistLock.Tool.Child

namespace DistLock

open Lib (Run)

/-- The signals that the child sends. -/
inductive Signal
  | usr1
  | usr2
  deriving DecidableEq

/-- Where `main` is in the parent process, which may also have been killed. -/
inductive ParentPc
  | forked
  | waiting
  | woken
  | reaping
  | exited (code : UInt32)
  | killed
  deriving DecidableEq

namespace ParentPc

/-- The parent has exited or has been killed. -/
def hasEnded : ParentPc → Bool
  | exited _ | killed => true
  | _ => false

/-- The positions up to the end of `parent_wait.wait`. -/
def Before : ParentPc → Prop
  | forked | waiting => True
  | _ => False

end ParentPc

/-- The two processes.  There is no child if `fork` has failed; `ended` is its wait status after
its end, `pending` has the signals that the parent has still to handle, `session` tells whether the
child has called `setsid`, and `sent` keeps a record of the signals. -/
structure Tool where
  parent : ParentPc
  acquired : Bool
  pending : List Signal
  session : Bool
  child : Option Child
  ended : Option UInt32
  sent : List Signal

/-- What can happen to the tool: a step of the child, its death by a signal, a step of the parent,
its handling of a signal, a spurious wakeup, the return of `waitpid`, or the handling of `SIGINT` by
the child or by the parent. -/
inductive ToolEvent
  | setsid
  | child (e : ChildEvent)
  | killed (status : UInt32)
  | parent
  | handle (sig : Signal)
  | spurious
  | reaped (ok : Bool)
  | interrupt (inChild : Bool)
  deriving DecidableEq

/-- The wait status of a process that has been killed by `SIGKILL`. -/
def sigkill : UInt32 := 9

/-- The wait status of a process that has exited with a code. -/
def exitStatus (code : UInt32) : UInt32 := (code &&& 0xff) <<< 8

/-- What both processes make of a wait status. -/
def exitCode (status : UInt32) : UInt32 := if wifexited status then wexitstatus status else 1

namespace Child

/-- What the last function of `dl` has returned. -/
def result (s : Child) : Option Bool :=
  s.dl.bind fun I =>
    match I.ctl with
    | .free b => b
    | _ => none

/-- `acquire` is about to call `on_start`: the beacon threads are ready. -/
def Starts (s : Child) : Prop :=
  s.pc = .acquiring ∧ ∃ I retry, s.dl = some I ∧ I.ctl = .adquire none retry (.start [])

/-- `acquire` is about to call `on_start`, as a test. -/
def starts (s : Child) : Bool :=
  s.pc = .acquiring && s.dl.any fun I =>
    match I.ctl with
    | .adquire none _ (.start []) => true
    | _ => false

/-- The signals that the child sends in a step. -/
def signals (o : Options) (detach : Bool) (s : Child) : ChildEvent → List Signal
  | .dl .run => if detach && o.retryNum = 0 && s.starts then [.usr1] else []
  | .main =>
    if detach then
      match s.pc with
      | .acquiring =>
        match s.result with
        | some true => if o.retryNum > 0 then [.usr1] else []
        | some false => [.usr2]
        | none => []
      | .deleting => [.usr2]
      | _ => []
    else []
  | _ => []

end Child

namespace Tool

/-- After the first `fork`. -/
def start (forks : Bool) : Tool where
  parent := .forked
  acquired := false
  pending := []
  session := false
  child := if forks then some Child.start else none
  ended := none
  sent := []

/-- `kill(getppid(), sig)`; a signal that is pending already is not queued. -/
def kill (T : Tool) (sig : Signal) : Tool :=
  if T.parent.hasEnded ∨ sig ∈ T.pending then { T with sent := T.sent ++ [sig] }
  else { T with pending := T.pending ++ [sig], sent := T.sent ++ [sig] }

/-- After a step of the child. -/
def afterChild (T : Tool) (s : Child) : Tool :=
  match s.pc with
  | .exited code => { T with child := some s, ended := some (exitStatus code) }
  | _ => { T with child := some s }

/-- `signal_handler` for the signals that the child sends. -/
def signalHandler (T : Tool) (sig : Signal) : Tool :=
  if T.parent = .waiting then { T with acquired := sig = .usr1, parent := .woken }
  else { T with acquired := sig = .usr1 }

/-- The child is there and has not ended. -/
def childLives (T : Tool) : Bool := T.child.isSome && T.ended.isNone

/-- `kill(-pid_d, SIGKILL)` in `signal_handler`.  In the child `pid_d` is 0, and the signal goes to
its own process group.  In the parent it goes to the group of the child, which exists only after
`setsid`. -/
def killGroup (T : Tool) (inChild : Bool) : Tool :=
  let T' := if T.childLives && (inChild || T.session) then { T with ended := some sigkill } else T
  if inChild && !T.session && !T.parent.hasEnded then { T' with parent := .killed } else T'

/-- One step of the tool. -/
def step (o : Options) (detach : Bool) (T : Tool) : ToolEvent → Option Tool
  | .setsid =>
    if detach && T.childLives && !T.session then some { T with session := true } else none
  | .child e =>
    if T.ended.isSome || detach && !T.session then none
    else T.child.bind fun s => (s.step o e).map fun s' =>
      ((s.signals o detach e).foldl kill T).afterChild s'
  | .killed status =>
    if T.childLives && !wifexited status then
      some { T with ended := some status }
    else none
  | .parent =>
    match T.parent with
    | .forked => some { T with parent := if detach then .waiting else .reaping }
    | .woken => some { T with parent := if T.acquired then .exited 0 else .reaping }
    | _ => none
  | .handle sig =>
    if T.parent.hasEnded || !decide (sig ∈ T.pending) then none
    else some ({ T with pending := T.pending.erase sig }.signalHandler sig)
  | .spurious => if T.parent = .waiting then some { T with parent := .woken } else none
  | .reaped ok =>
    if T.parent = .reaping then
      match T.child with
      -- `waitpid(-1, &status, 0)` returns -1, which is `pid_d`, and `status` is still 0
      | none => some { T with parent := .exited (exitCode 0) }
      | some _ =>
        if ok then T.ended.map fun status => { T with parent := .exited (exitCode status) }
        else some { T with parent := .exited 1 }
    else none
  | .interrupt inChild =>
    if (if inChild then T.childLives else !T.parent.hasEnded) then some (T.killGroup inChild)
    else none

/-- Condition variables do not wake up by themselves. -/
def Punctual (_ : Tool) (e : ToolEvent) : Prop := e ≠ .spurious

instance (T : Tool) (e : ToolEvent) : Decidable (T.Punctual e) :=
  inferInstanceAs (Decidable (e ≠ .spurious))

/-- `waitpid` does not fail while there is a child. -/
def Reaps (_ : Tool) (e : ToolEvent) : Prop := e ≠ .reaped false

instance (T : Tool) (e : ToolEvent) : Decidable (T.Reaps e) :=
  inferInstanceAs (Decidable (e ≠ .reaped false))

end Tool

/-! ### Exit codes and signals -/

/-- The lower eight bits of an exit code are what the parent reads. -/
lemma exitCode_exitStatus (code : UInt32) : exitCode (exitStatus code) = code &&& 0xff := by
  have hlow : (code &&& 0xff).toNat = code.toNat % 256 := by
    rw [UInt32.toNat_and]
    exact Nat.and_two_pow_sub_one_eq_mod code.toNat 8
  have hstatus : (exitStatus code).toNat = code.toNat % 256 * 256 := by
    rw [exitStatus, UInt32.toNat_shiftLeft, hlow, Nat.shiftLeft_eq]
    have hlt : code.toNat % 256 < 256 := Nat.mod_lt _ (by decide)
    exact Nat.mod_eq_of_lt (by simpa using by omega)
  have hexited : wifexited (exitStatus code) = true := by
    rw [wifexited, decide_eq_true_eq, ← UInt32.toNat_inj, UInt32.toNat_and, hstatus]
    refine (Nat.and_two_pow_sub_one_eq_mod _ 7).trans ?_
    show code.toNat % 256 * 256 % 128 = 0
    omega
  rw [exitCode, if_pos hexited, wexitstatus, ← UInt32.toNat_inj, UInt32.toNat_and,
    UInt32.toNat_shiftRight, hstatus, hlow]
  refine (Nat.and_two_pow_sub_one_eq_mod _ 8).trans ?_
  rw [Nat.shiftRight_eq_div_pow]
  show code.toNat % 256 * 256 / 256 % 256 = code.toNat % 256
  omega

namespace Child

variable {o : Options} {detach : Bool} {s : Child} {e : ChildEvent}

lemma result_eq_some {b : Bool} (h : s.result = some b) :
    ∃ I, s.dl = some I ∧ I.ctl = .free (some b) := by
  obtain ⟨I, hI, h⟩ := Option.bind_eq_some_iff.mp h
  refine ⟨I, hI, ?_⟩
  split at h
  · next hctl => rw [hctl, h]
  · cases h

lemma result_of_free {b : Option Bool} {I : Inst} (hdl : s.dl = some I) (hctl : I.ctl = .free b) :
    s.result = b := by
  simp only [result, hdl, Option.bind_some, hctl]

lemma Starts.of_test (h : s.starts = true) : s.Starts := by
  rw [starts, Bool.and_eq_true, decide_eq_true_eq, Option.any_eq_true] at h
  obtain ⟨hpc, I, hI, h⟩ := h
  refine ⟨hpc, I, ?_⟩
  split at h
  · next retry hctl => exact ⟨retry, hI, hctl⟩
  · cases h

/-- The child sends `SIGUSR1` when it has acquired, or at the start if it tries for ever. -/
lemma usr1_signals (h : .usr1 ∈ s.signals o detach e) :
    detach = true ∧ (0 < o.retryNum ∧ s.Acquired ∨ o.retryNum = 0 ∧ s.Starts) := by
  cases e with
  | dl e =>
    cases e with
    | run =>
      rw [signals] at h
      split_ifs at h with hcond
      · simp only [Bool.and_eq_true, decide_eq_true_eq] at hcond
        exact ⟨hcond.1.1, .inr ⟨hcond.1.2, .of_test hcond.2⟩⟩
      · exact absurd h List.not_mem_nil
    | _ => exact absurd h List.not_mem_nil
  | main =>
    rw [signals] at h
    by_cases hdetach : detach = true
    · refine ⟨hdetach, ?_⟩
      rw [if_pos hdetach] at h
      cases hpc : s.pc with
      | acquiring =>
        rw [hpc] at h
        dsimp only at h
        split at h
        · next hres =>
          split_ifs at h with hretry
          · exact .inl ⟨hretry, hpc, result_eq_some hres⟩
          · exact absurd h List.not_mem_nil
        · cases List.mem_singleton.mp h
        · exact absurd h List.not_mem_nil
      | deleting =>
        rw [hpc] at h
        cases List.mem_singleton.mp h
      | _ =>
        rw [hpc] at h
        exact absurd h List.not_mem_nil
    · rw [if_neg hdetach] at h
      exact absurd h List.not_mem_nil
  | _ => exact absurd h List.not_mem_nil

end Child

namespace Tool

variable {o : Options} {detach forks : Bool} {T T' : Tool} {e : ToolEvent} {es : List ToolEvent}
  {s : Child} {code : UInt32}

/-- The signals reach the parent, and nothing else of it. -/
lemma foldl_kill (sigs : List Signal) (T : Tool) :
    (sigs.foldl kill T).parent = T.parent ∧ (sigs.foldl kill T).acquired = T.acquired ∧
      (sigs.foldl kill T).ended = T.ended ∧ (sigs.foldl kill T).sent = T.sent ++ sigs ∧
      ∀ sig ∈ (sigs.foldl kill T).pending, sig ∈ T.pending ∨ sig ∈ sigs := by
  induction sigs generalizing T with
  | nil => exact ⟨rfl, rfl, rfl, (List.append_nil _).symm, fun _ h => .inl h⟩
  | cons sig sigs ih =>
    obtain ⟨hparent, hacq, hended, hsent, hpending⟩ := ih (T.kill sig)
    have hkill : (T.kill sig).parent = T.parent ∧ (T.kill sig).acquired = T.acquired ∧
        (T.kill sig).ended = T.ended ∧ (T.kill sig).sent = T.sent ++ [sig] ∧
        ∀ sig' ∈ (T.kill sig).pending, sig' ∈ T.pending ∨ sig' = sig := by
      rw [kill]
      split_ifs
      · exact ⟨rfl, rfl, rfl, rfl, fun _ h => .inl h⟩
      · refine ⟨rfl, rfl, rfl, rfl, fun sig' h => ?_⟩
        exact (List.mem_append.mp h).imp_right List.mem_singleton.mp
    rw [List.foldl_cons]
    refine ⟨hparent.trans hkill.1, hacq.trans hkill.2.1, hended.trans hkill.2.2.1, ?_, ?_⟩
    · rw [hsent, hkill.2.2.2.1, List.append_assoc]
      rfl
    · intro sig' h
      rcases hpending sig' h with h | h
      · refine (hkill.2.2.2.2 sig' h).imp_right fun h => ?_
        rw [h]
        exact List.mem_cons_self
      · exact .inr (List.mem_cons_of_mem _ h)

/-- What a step of the child does to the tool. -/
structure ChildStep (o : Options) (detach : Bool) (T T' : Tool) (ce : ChildEvent) (s s' : Child) :
    Prop where
  alive : T.ended = none
  child : T.child = some s
  step : s.step o ce = some s'
  parent : T'.parent = T.parent
  acquired : T'.acquired = T.acquired
  child' : T'.child = some s'
  sent : T'.sent = T.sent ++ s.signals o detach ce
  pending : ∀ sig ∈ T'.pending, sig ∈ T.pending ∨ sig ∈ s.signals o detach ce
  ended : ∀ status, T'.ended = some status →
    ∃ code, s'.pc = .exited code ∧ status = exitStatus code

lemma childStep {ce : ChildEvent} (hs : T.step o detach (.child ce) = some T') :
    ∃ s s', ChildStep o detach T T' ce s s' := by
  rw [step] at hs
  split_ifs at hs with hend
  have halive : T.ended = none := by
    rw [Bool.or_eq_true, not_or] at hend
    simpa using hend.1
  obtain ⟨s, hchild, hs⟩ := Option.bind_eq_some_iff.mp hs
  obtain ⟨s', hstep, rfl⟩ := Option.map_eq_some_iff.mp hs
  obtain ⟨hparent, hacq, hended, hsent, hpending⟩ := foldl_kill (s.signals o detach ce) T
  refine ⟨s, s', ?_⟩
  rw [afterChild]
  split
  · next code hpc =>
    exact
      { alive := halive
        child := hchild
        step := hstep
        parent := hparent
        acquired := hacq
        child' := rfl
        sent := hsent
        pending := hpending
        ended := fun status h => ⟨code, hpc, (Option.some.inj h).symm⟩ }
  · exact
      { alive := halive
        child := hchild
        step := hstep
        parent := hparent
        acquired := hacq
        child' := rfl
        sent := hsent
        pending := hpending
        ended := fun status h => by cases (hended.trans halive).symm.trans h }

lemma childLives_iff : T.childLives = true ↔ (∃ s, T.child = some s) ∧ T.ended = none := by
  rw [childLives, Bool.and_eq_true, Option.isSome_iff_exists, Option.isNone_iff_eq_none]

/-- What can happen to the tool at the positions of its processes. -/
inductive Transition (o : Options) (detach : Bool) (T : Tool) : ToolEvent → Tool → Prop
  | setsid : Transition o detach T .setsid { T with session := true }
  | child (ce : ChildEvent) (s s' : Child) (T' : Tool) (h : ChildStep o detach T T' ce s s') :
    Transition o detach T (.child ce) T'
  | killed (status : UInt32) (s : Child) (hchild : T.child = some s) (halive : T.ended = none)
    (hkilled : wifexited status = false) :
    Transition o detach T (.killed status) { T with ended := some status }
  | forked (hpc : T.parent = .forked) :
    Transition o detach T .parent { T with parent := if detach then .waiting else .reaping }
  | woken (hpc : T.parent = .woken) :
    Transition o detach T .parent { T with parent := if T.acquired then .exited 0 else .reaping }
  | handle (sig : Signal) (hlive : T.parent.hasEnded = false) (hsig : sig ∈ T.pending) :
    Transition o detach T (.handle sig)
      ({ T with pending := T.pending.erase sig }.signalHandler sig)
  | spurious (hpc : T.parent = .waiting) :
    Transition o detach T .spurious { T with parent := .woken }
  | orphan (ok : Bool) (hpc : T.parent = .reaping) (hnone : T.child = none) :
    Transition o detach T (.reaped ok) { T with parent := .exited (exitCode 0) }
  | reaped (status : UInt32) (hpc : T.parent = .reaping) (hst : T.ended = some status) :
    Transition o detach T (.reaped true) { T with parent := .exited (exitCode status) }
  | fails (hpc : T.parent = .reaping) :
    Transition o detach T (.reaped false) { T with parent := .exited 1 }
  | spares (inChild : Bool) : Transition o detach T (.interrupt inChild) T
  | interrupts (inChild : Bool) (s : Child) (hchild : T.child = some s) (halive : T.ended = none) :
    Transition o detach T (.interrupt inChild) { T with ended := some sigkill }
  | killsBoth (s : Child) (hchild : T.child = some s) (halive : T.ended = none)
    (hsession : T.session = false) (hlive : T.parent.hasEnded = false) :
    Transition o detach T (.interrupt true)
      { T with ended := some sigkill, parent := .killed }

/-- **Every step of the tool is one of these.** -/
lemma transition_of_step (hs : T.step o detach e = some T') : Transition o detach T e T' := by
  cases e with
  | setsid =>
    rw [step] at hs
    split_ifs at hs
    obtain rfl := Option.some.inj hs
    exact .setsid
  | interrupt inChild =>
    rw [step] at hs
    split_ifs at hs with hc hlives
    · -- the handler runs in the child
      obtain rfl := Option.some.inj hs
      subst hc
      obtain ⟨⟨s, hchild⟩, halive⟩ := childLives_iff.mp hlives
      by_cases hboth : T.session = false ∧ T.parent.hasEnded = false
      · have hkill : T.killGroup true = { T with ended := some sigkill, parent := .killed } := by
          simp [killGroup, hlives, hboth.1, hboth.2]
        rw [hkill]
        exact .killsBoth s hchild halive hboth.1 hboth.2
      · have hkill : T.killGroup true = { T with ended := some sigkill } := by
          rw [killGroup, if_neg, hlives]
          · rfl
          · simpa using hboth
        rw [hkill]
        exact .interrupts true s hchild halive
    · obtain rfl := Option.some.inj hs
      obtain rfl : inChild = false := by simpa using hc
      by_cases hgroup : (T.childLives && T.session) = true
      · obtain ⟨⟨s, hchild⟩, halive⟩ := childLives_iff.mp (Bool.and_eq_true _ _ ▸ hgroup).1
        have hkill : T.killGroup false = { T with ended := some sigkill } := by
          simp [killGroup, hgroup]
        rw [hkill]
        exact .interrupts false s hchild halive
      · have hkill : T.killGroup false = T := by simp [killGroup, hgroup]
        rw [hkill]
        exact .spares false
  | child ce =>
    obtain ⟨s, s', h⟩ := childStep hs
    exact .child ce s s' T' h
  | killed status =>
    rw [step] at hs
    split_ifs at hs with hcond
    obtain rfl := Option.some.inj hs
    rw [Bool.and_eq_true, childLives_iff, Bool.not_eq_true'] at hcond
    obtain ⟨⟨⟨s, hchild⟩, halive⟩, hkilled⟩ := hcond
    exact .killed status s hchild halive hkilled
  | parent =>
    rw [step] at hs
    split at hs
    · next hpc =>
      obtain rfl := Option.some.inj hs
      exact .forked hpc
    · next hpc =>
      obtain rfl := Option.some.inj hs
      exact .woken hpc
    · cases hs
  | handle sig =>
    rw [step] at hs
    split_ifs at hs with hcond
    obtain rfl := Option.some.inj hs
    simp only [Bool.or_eq_true, not_or, Bool.not_eq_true, Bool.not_eq_true',
      decide_eq_false_iff_not, not_not] at hcond
    exact .handle sig hcond.1 hcond.2
  | spurious =>
    rw [step] at hs
    split_ifs at hs with hpc
    obtain rfl := Option.some.inj hs
    exact .spurious hpc
  | reaped ok =>
    rw [step] at hs
    by_cases hpc : T.parent = .reaping
    · rw [if_pos hpc] at hs
      split at hs
      · next hnone =>
        obtain rfl := Option.some.inj hs
        exact .orphan ok hpc hnone
      · cases ok with
        | true =>
          obtain ⟨status, hst, rfl⟩ := Option.map_eq_some_iff.mp hs
          exact .reaped status hpc hst
        | false =>
          obtain rfl := Option.some.inj hs
          exact .fails hpc
    · rw [if_neg hpc] at hs
      cases hs

/-! ### The exit code of the tool -/

/-- What the exit code of the parent, the flag and the signals stand for. -/
structure Inv (T : Tool) : Prop where
  acquired : T.acquired = true → .usr1 ∈ T.sent
  pending : ∀ sig ∈ T.pending, sig ∈ T.sent
  orphan : T.child = none → T.ended = none
  ended : ∀ status, T.ended = some status → wifexited status = false ∨
    ∃ s code, T.child = some s ∧ s.pc = .exited code ∧ status = exitStatus code
  exited : ∀ code, T.parent = .exited code →
    (∃ status, T.ended = some status ∧ code = exitCode status) ∨
      code = 0 ∧ (T.child = none ∨ .usr1 ∈ T.sent)

lemma inv_start : (start forks).Inv where
  acquired := fun h => by cases h
  pending := fun _ h => absurd h List.not_mem_nil
  orphan := fun _ => rfl
  ended := fun _ h => by cases h
  exited := fun _ h => by cases h

/-- The steps of the child, which go on only until its end. -/
lemma Inv.child (h : T.Inv) {ce : ChildEvent} {s s' : Child}
    (hs : ChildStep o detach T T' ce s s') : T'.Inv where
  acquired := fun hacq => by
    rw [hs.sent]
    exact List.mem_append_left _ (h.acquired (hs.acquired ▸ hacq))
  pending := fun sig hsig => by
    rw [hs.sent]
    exact List.mem_append.mpr ((hs.pending sig hsig).imp_left (h.pending sig))
  orphan := fun hnone => by cases hs.child'.symm.trans hnone
  ended := fun status hst => by
    obtain ⟨code, hpc, hcode⟩ := hs.ended status hst
    exact .inr ⟨s', code, hs.child', hpc, hcode⟩
  exited := fun code hexit => by
    rcases h.exited code (hs.parent ▸ hexit) with ⟨status, hst, -⟩ | ⟨hcode, hnone | hsent⟩
    · cases hs.alive.symm.trans hst
    · cases hs.child.symm.trans hnone
    · refine .inr ⟨hcode, .inr ?_⟩
      rw [hs.sent]
      exact List.mem_append_left _ hsent

/-- The handler of a signal. -/
lemma Inv.handle (h : T.Inv) {sig : Signal} (hlive : T.parent.hasEnded = false)
    (hsig : sig ∈ T.pending) :
    ({ T with pending := T.pending.erase sig }.signalHandler sig).Inv := by
  have hacq : decide (sig = .usr1) = true → .usr1 ∈ T.sent := by
    intro hsig'
    obtain rfl := of_decide_eq_true hsig'
    exact h.pending _ hsig
  have hpending : ∀ sig' ∈ T.pending.erase sig, sig' ∈ T.sent :=
    fun sig' hsig' => h.pending sig' (List.mem_of_mem_erase hsig')
  rw [signalHandler]
  split_ifs with hw
  · exact ⟨hacq, hpending, h.orphan, h.ended, fun code hexit => by cases hexit⟩
  · refine ⟨hacq, hpending, h.orphan, h.ended, fun code hexit => ?_⟩
    rw [show T.parent = .exited code from hexit] at hlive
    cases hlive

/-- The parent goes to another position, without an exit code. -/
lemma Inv.move (h : T.Inv) {pc : ParentPc} (hpc : ∀ code, pc ≠ .exited code) :
    ({ T with parent := pc } : Tool).Inv where
  acquired := h.acquired
  pending := h.pending
  orphan := h.orphan
  ended := h.ended
  exited := fun code hexit => absurd hexit (hpc code)

/-- A child that is killed leaves its wait status to the parent. -/
lemma Inv.dies (h : T.Inv) (hchild : T.child = some s) (halive : T.ended = none) {status : UInt32}
    (hkilled : wifexited status = false) : ({ T with ended := some status } : Tool).Inv where
  acquired := h.acquired
  pending := h.pending
  orphan := fun hnone => by cases hchild.symm.trans hnone
  ended := fun status' hst => by
    obtain rfl := Option.some.inj hst
    exact .inl hkilled
  exited := fun code hexit => by
    rcases h.exited code hexit with ⟨status', hst, -⟩ | ho
    · cases halive.symm.trans hst
    · exact .inr ho

lemma inv_step (h : T.Inv) (hok : T.Reaps e) (hs : T.step o detach e = some T') : T'.Inv := by
  cases transition_of_step hs with
  | child ce s s' T' hs => exact h.child hs
  | setsid => exact { h with }
  | killed status s hchild halive hkilled => exact h.dies hchild halive hkilled
  | spares => exact h
  | interrupts inChild s hchild halive => exact h.dies hchild halive (by decide)
  | killsBoth s hchild halive => exact (h.dies hchild halive (by decide)).move (by simp)
  | forked => exact h.move fun code => by split_ifs <;> simp
  | woken =>
    -- with `acquired` set the parent ends at once, and the child is left behind
    by_cases hacq : T.acquired = true
    · rw [if_pos hacq]
      refine ⟨h.acquired, h.pending, h.orphan, h.ended, fun code hexit => ?_⟩
      obtain rfl := ParentPc.exited.inj hexit
      exact .inr ⟨rfl, .inr (h.acquired hacq)⟩
    · rw [if_neg hacq]
      exact h.move (by simp)
  | handle sig hlive hsig => exact h.handle hlive hsig
  | spurious => exact h.move (by simp)
  | orphan ok _ hnone =>
    refine ⟨h.acquired, h.pending, h.orphan, h.ended, fun code hexit => ?_⟩
    obtain rfl := ParentPc.exited.inj hexit
    exact .inr ⟨rfl, .inl hnone⟩
  | reaped status _ hst =>
    refine ⟨h.acquired, h.pending, h.orphan, h.ended, fun code hexit => ?_⟩
    obtain rfl := ParentPc.exited.inj hexit
    exact .inl ⟨status, hst, rfl⟩
  | fails => exact absurd rfl hok

/-- Only the child sends signals. -/
lemma sent_step (hs : T.step o detach e = some T') :
    T'.sent = T.sent ∨ ∃ ce s s', e = .child ce ∧ ChildStep o detach T T' ce s s' := by
  cases transition_of_step hs with
  | child ce s s' T' h => exact .inr ⟨ce, s, s', rfl, h⟩
  | handle sig =>
    refine .inl ?_
    rw [signalHandler]
    split_ifs <;> rfl
  | _ => exact .inl rfl

/-- **The exit code of the tool.**  In every run in which `waitpid` does not fail, the tool exits
with the lower eight bits of the exit code of the child, with 1 if the child was killed, with 0 if
there is no child because `fork` failed, or with 0 after `-d`, and then the child had acquired the
resources before, or begun to try without a limit. -/
theorem exit_code (hrun : Run (step o detach) Reaps (start forks) es T)
    (hexit : T.parent = .exited code) :
    (∃ s c, T.child = some s ∧ s.pc = .exited c ∧ code = c &&& 0xff) ∨
      (code = 1 ∧ ∃ status, T.ended = some status ∧ wifexited status = false) ∨
      (code = 0 ∧ T.child = none) ∨
      (code = 0 ∧ detach = true ∧ ∃ es₁ es₂ T₁ s, es = es₁ ++ es₂ ∧
        Run (step o detach) Reaps (start forks) es₁ T₁ ∧ T₁.child = some s ∧
          (0 < o.retryNum ∧ s.Acquired ∨ o.retryNum = 0 ∧ s.Starts)) := by
  have h : T.Inv := hrun.invariant (fun _ _ _ h hok hs => inv_step h hok hs) inv_start
  rcases h.exited code hexit with ⟨status, hst, rfl⟩ | ⟨rfl, hnone | hsent⟩
  · rcases h.ended status hst with hkilled | ⟨s, c, hchild, hpc, rfl⟩
    · exact .inr (.inl ⟨if_neg (by simp [hkilled]), status, hst, hkilled⟩)
    · exact .inl ⟨s, c, hchild, hpc, exitCode_exitStatus c⟩
  · exact .inr (.inr (.inl ⟨rfl, hnone⟩))
  · -- the step with which the child has sent the signal
    obtain ⟨es₁, e, es₂, T₁, T₂, rfl, hrun₁, hnot, -, hs, hin, -⟩ :=
      hrun.exists_step (P := fun T => .usr1 ∈ T.sent) List.not_mem_nil hsent
    rcases sent_step hs with heq | ⟨ce, s, s', rfl, hchild⟩
    · exact absurd (heq ▸ hin) hnot
    · rw [hchild.sent] at hin
      obtain ⟨hdetach, hwhy⟩ := Child.usr1_signals ((List.mem_append.mp hin).resolve_left hnot)
      exact .inr (.inr (.inr ⟨rfl, hdetach, es₁, _, T₁, s, rfl, hrun₁, hchild.child, hwhy⟩))

/-- The child runs the command, which ends with a wait status, and exits. -/
def runsCommand (status : UInt32) : List ToolEvent :=
  [ChildEvent.main, .forked 42, .waited 42 status, .main].map ToolEvent.child

/-- A command that exits with 3, without `-d`. -/
theorem exit_code_three :
    ∃ T : Tool, T.parent = .exited 3 ∧
      ∃ s c, T.child = some s ∧ s.pc = .exited c ∧ 3 = c &&& 0xff := by
  obtain ⟨T, hrun, hexit⟩ : ∃ T, Run (step Child.oneResource false) Reaps (start true)
      (.parent :: Child.untilAcquired.map .child ++ runsCommand 768 ++ [.reaped true]) T ∧
        T.parent = .exited 3 :=
    ⟨_, Run.of_exec rfl, rfl⟩
  rcases exit_code hrun hexit with h | ⟨h, -⟩ | ⟨h, -⟩ | ⟨h, -⟩
  · exact ⟨T, hexit, h⟩
  all_goals cases h

/-! ### When the parent ends -/

/-- How a step moves the parent. -/
lemma parent_step (hs : T.step o detach e = some T') :
    T'.parent = T.parent ∨
      T.parent = .forked ∧ T'.parent = (if detach then .waiting else .reaping) ∨
      T.parent = .waiting ∧ T'.parent = .woken ∧ (e = .spurious ∨ ∃ sig, e = .handle sig) ∨
      T'.parent = .killed ∧ e = .interrupt true ∧ T.session = false ∧ T.parent.hasEnded = false ∨
      ¬ T.parent.Before ∧ ¬ T'.parent.Before ∧ T'.parent ≠ .killed ∧
        T.parent.hasEnded = false := by
  cases transition_of_step hs with
  | child ce s s' T' h => exact .inl h.parent
  | setsid | killed | spares | interrupts => exact .inl rfl
  | killsBoth _ _ _ hsession hlive => exact .inr (.inr (.inr (.inl ⟨rfl, rfl, hsession, hlive⟩)))
  | forked hpc => exact .inr (.inl ⟨hpc, rfl⟩)
  | woken hpc =>
    refine .inr (.inr (.inr (.inr ?_)))
    rw [hpc]
    dsimp only
    split_ifs <;> exact ⟨id, id, by simp, rfl⟩
  | handle sig =>
    by_cases hw : T.parent = .waiting
    · rw [signalHandler, if_pos hw]
      exact .inr (.inr (.inl ⟨hw, rfl, .inr ⟨sig, rfl⟩⟩))
    · rw [signalHandler, if_neg hw]
      exact .inl rfl
  | spurious hw => exact .inr (.inr (.inl ⟨hw, rfl, .inl rfl⟩))
  | orphan _ hpc | reaped _ hpc | fails hpc =>
    refine .inr (.inr (.inr (.inr ?_)))
    rw [hpc]
    exact ⟨id, id, by simp, rfl⟩

/-- A parent that has ended does nothing more. -/
lemma parent_of_ended (hs : T.step o detach e = some T') (h : T.parent.hasEnded = true) :
    T'.parent = T.parent := by
  rcases parent_step hs with heq | ⟨hpc, -⟩ | ⟨hpc, -⟩ | ⟨-, -, -, hlive⟩ | ⟨-, -, -, hlive⟩
  · exact heq
  · rw [hpc] at h
    cases h
  · rw [hpc] at h
    cases h
  · rw [hlive] at h
    cases h
  · rw [hlive] at h
    cases h

/-- Behind the wait the parent ends, if need be without the status of the child. -/
lemma exited_of_end (hend : ∀ e, T.Punctual e → (∀ c, e ≠ .interrupt c) → T.step o detach e = none)
    (hw : T.parent ≠ .waiting) (hk : T.parent ≠ .killed) : ∃ code, T.parent = .exited code := by
  cases hpc : T.parent with
  | exited code => exact ⟨code, rfl⟩
  | waiting => exact absurd hpc hw
  | killed => exact absurd hpc hk
  | forked | woken =>
    have hstep := hend .parent (by simp [Punctual]) (by simp)
    rw [step, hpc] at hstep
    cases hstep
  | reaping =>
    have hstep := hend (.reaped false) (by simp [Punctual]) (by simp)
    rw [step, if_pos hpc] at hstep
    split at hstep <;> cases hstep

/-- What has ended stays as it is. -/
lemma parent_run_of_ended {P : Tool → ToolEvent → Prop} (hrun : Run (step o detach) P T es T')
    (h : T.parent.hasEnded = true) : T'.parent = T.parent :=
  hrun.invariant (I := fun T' => T'.parent = T.parent)
    (fun _ _ _ heq _ hs => (parent_of_ended hs (heq ▸ h)).trans heq) rfl

/-- The handler of the child kills the parent too, as long as they are in one process group. -/
lemma parent_interrupt (hs : T.step o detach (.interrupt true) = some T')
    (hfree : T.session = false) (hlive : T.parent.hasEnded = false) : T'.parent = .killed := by
  simp only [step, if_true] at hs
  split_ifs at hs
  obtain rfl := Option.some.inj hs
  simp [killGroup, hfree, hlive]

end Tool

/-- The positions of a child that has not called anything that makes it send a signal. -/
def ChildPc.Silent : ChildPc → Prop
  | constructing | limiting | defining _ | defined _ | dispatching | exited _ => True
  | _ => False

/-- `dist_lock -r name`, without a command behind `--`. -/
structure Options.NoCommand (o : Options) : Prop where
  query : o.query = false
  isAny : o.isAny = false
  isWaiting : o.isWaiting = false
  argv : ¬ (o.optind > 0 ∧ o.argv[o.optind - 1]? = some dashes ∧ o.argv.length > o.optind)

namespace Child

variable {o : Options} {s s' : Child} {e : ChildEvent}

lemma signals_of_silent (h : s.pc.Silent) (detach : Bool) : s.signals o detach e = [] := by
  cases e with
  | dl e =>
    cases e with
    | run =>
      have hstart : s.starts = false := by
        rw [starts]
        cases hpc : s.pc with
        | acquiring =>
          rw [hpc] at h
          exact h.elim
        | _ => rfl
      rw [signals, hstart, Bool.and_false, if_neg (by simp)]
    | _ => rfl
  | main =>
    rw [signals]
    cases hpc : s.pc with
    | acquiring | deleting =>
      rw [hpc] at h
      exact h.elim
    | _ => cases detach <;> rfl
  | _ => rfl

/-- Without a command the child exits before it calls `acquire`. -/
lemma silent_step (ho : o.NoCommand) (h : s.pc.Silent) (hs : s.step o e = some s') :
    s'.pc.Silent := by
  cases transition_of_step hs with
  | dl => exact h
  | main I s' hI hs =>
    cases branch_of_mainStep hs with
    | undefined _ _ hs | empty _ hs | usage _ _ hs | refused _ hs | ended _ hs | destroyed _ hs =>
      subst hs
      trivial
    | limit _ hs | define _ _ _ hs =>
      obtain ⟨I', sent, -, rfl⟩ := call_inv hs
      trivial
    | next _ _ _ hs | dispatch _ _ hs =>
      subst hs
      trivial
    | ask _ _ hq _ | skip _ hq _ =>
      rw [ho.query, ho.isAny, ho.isWaiting] at hq
      cases hq
    | acquire _ _ _ hb => exact absurd hb ho.argv
    | answer _ hpc _ _ | acquired hpc _ _ | release hpc _ | finish hpc _ | delete hpc _ =>
      rw [hpc] at h
      exact h.elim
  | construct | throws | forkFails => trivial
  | forks _ hpc | waits _ _ _ hpc =>
    rw [hpc] at h
    exact h.elim

end Child

namespace Tool

variable {o : Options} {forks : Bool} {T : Tool} {es : List ToolEvent}

/-- **With `-d` and without a command the tool never exits.**  The child exits before it sends a
signal, and nobody tells the parent, which only a `SIGINT` in the child can still kill. -/
theorem no_exit_of_no_command (ho : o.NoCommand)
    (hrun : Run (step o true) Punctual (start forks) es T) :
    T.parent.Before ∨ T.parent = .killed := by
  have hinv : (T.parent.Before ∨ T.parent = .killed) ∧ T.pending = [] ∧
      ∀ s, T.child = some s → s.pc.Silent := by
    refine hrun.invariant
      (I := fun T => (T.parent.Before ∨ T.parent = .killed) ∧ T.pending = [] ∧
        ∀ s, T.child = some s → s.pc.Silent)
      ?_ ⟨.inl trivial, rfl, ?_⟩
    · rintro T e T' ⟨hbefore, hpending, hsilent⟩ hok hs
      have hnot : ∀ sig, e ≠ .handle sig := by
        rintro sig rfl
        rw [step, hpending] at hs
        simp at hs
      have hbefore' : T'.parent.Before ∨ T'.parent = .killed := by
        rcases parent_step hs with
          heq | ⟨-, heq⟩ | ⟨-, -, rfl | ⟨sig, rfl⟩⟩ | ⟨hk, -⟩ | ⟨hno, -, -, hlive⟩
        · rw [heq]
          exact hbefore
        · rw [heq]
          exact .inl trivial
        · exact absurd rfl hok
        · exact absurd rfl (hnot sig)
        · exact .inr hk
        · rcases hbefore with hbefore | hk
          · exact absurd hbefore hno
          · rw [hk] at hlive
            cases hlive
      cases transition_of_step hs with
      | child ce s s' T' hchild =>
        have hs := hsilent s hchild.child
        refine ⟨hbefore', ?_, fun s'' hs'' => ?_⟩
        · refine List.eq_nil_iff_forall_not_mem.mpr fun sig hsig => ?_
          rcases hchild.pending sig hsig with h | h
          · rw [hpending] at h
            cases h
          · rw [Child.signals_of_silent hs] at h
            cases h
        · obtain rfl := Option.some.inj (hchild.child'.symm.trans hs'')
          exact Child.silent_step ho hs hchild.step
      | setsid | killed | forked | woken | spares | interrupts | killsBoth =>
        exact ⟨hbefore', hpending, hsilent⟩
      | handle sig => exact absurd rfl (hnot sig)
      | spurious => exact absurd rfl hok
      | orphan _ hpc | reaped _ hpc | fails hpc => exact ⟨hbefore', hpending, hsilent⟩
    · intro s hs
      cases forks with
      | false => cases hs
      | true =>
        obtain rfl := Option.some.inj hs
        trivial
  exact hinv.1

/-- `dist_lock -d -r a`. -/
def withoutCommand : Options :=
  { Child.oneResource with argv := [[100], [45, 100], [45, 114], [97]], optind := 4 }

/-- The child complains about the missing command and exits; the parent waits. -/
theorem no_exit_of_no_command_one :
    ∃ T, Run (step withoutCommand true) Punctual (start true)
        (.parent :: .setsid ::
          [ChildEvent.constructed (some 1), .main, .main, .main, .main, .main].map .child)
        T ∧ T.ended = some (exitStatus 2) ∧ (T.parent.Before ∨ T.parent = .killed) := by
  obtain ⟨T, hrun, hended⟩ : ∃ T, Run (step withoutCommand true) Punctual (start true)
      (.parent :: .setsid ::
        [ChildEvent.constructed (some 1), .main, .main, .main, .main, .main].map .child)
      T ∧ T.ended = some (exitStatus 2) := ⟨_, Run.of_exec rfl, rfl⟩
  exact ⟨T, hrun, hended, no_exit_of_no_command ⟨rfl, rfl, rfl, by decide⟩ hrun⟩

end Tool

end DistLock
