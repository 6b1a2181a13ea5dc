/-
A process of the command-line tool that waits when the others end.

It stands somewhere in `acquire`, and may begin another pass.  Then each of the others has ended, by
itself or because it has been killed, or it only asks a question.  What the tables of the process
still say about the others costs one pass, because a pass that fails clears them; so the process
reaches its command after a number of steps that its command line determines
(`Fleet.waiting_reaches_command`).

What the process knows about its instance when it waits holds in every run, whatever the others
say (`Fleet.informed_step`).
-/
import DistLock.Tool.Succession

namespace DistLock

open Lib (Run)

/-! ### What `main` knows about the instance, whatever the others say -/

namespace Inst

variable {I I' : Inst} {e : Event} {sent : List DLPacket} {o : Options}

/-- What holds of the instance from the call of `acquire` on. -/
structure Called (o : Options) (I : Inst) : Prop where
  acquiring : I.Acquiring none
  names : ∀ n, n ∈ o.resMap.keys ↔ n ∈ I.lock.names
  counts : ∀ r R, I.lock.getResource r = some R → 0 < R.count
  ready : I.Ready none
  begun : I.Begun

lemma Called.step (h : I.Called o) (he : e.isCall = false) (hs : I.step e = some (I', sent)) :
    I'.Called o where
  acquiring := acquiring_step he h.acquiring hs
  names := by
    rw [(frame_step he hs).names_eq]
    exact h.names
  counts := counts_step h.counts he hs
  ready := ready_step h.acquiring h.ready he hs
  begun := begun_step h.begun he hs

/-- The call of `acquire` when all resources are defined. -/
lemma Defining.acquire (ho : o.Asks) (h : I.Defining o []) :
    (enter I.lock (.acquire [])).Called o := by
  obtain ⟨heq, hacq⟩ := acquiring_enter (h.names_ne ho)
  rw [heq] at hacq ⊢
  exact ⟨hacq, h.names_iff, h.counts, h.ready, fun _ _ _ hctl => by cases hctl⟩

end Inst

namespace ChildPc

/-- What `main` knows about its instance until `acquire` has returned. -/
def Knows (o : Options) (I : Inst) : ChildPc → Prop
  | limiting => I.Defining o o.resMap.entries
  | defining rest | defined rest => I.Defining o rest
  | dispatching => I.Defining o []
  | acquiring => I.Called o
  | _ => True

variable {o : Options} {I I' : Inst} {e : Event} {sent : List DLPacket} {pc : ChildPc}

/-- What happens inside the instance does not change it. -/
lemma knows_dl (h : pc.Knows o I) (he : e.isCall = false) (hs : I.step e = some (I', sent)) :
    pc.Knows o I' := by
  cases pc with
  | limiting | defining rest | defined rest | dispatching => exact (Inst.Defining.step h he hs).1
  | acquiring => exact Inst.Called.step h he hs
  | _ => trivial

end ChildPc

namespace Child

variable {o : Options} {s s' : Child} {I : Inst} {e : ChildEvent} {c : Call} {pc : ChildPc}
  {st : UInt32}

/-- The instance exists where it should, and `main` knows something about it. -/
structure Informed (o : Options) (s : Child) : Prop where
  live : s.dl.isSome = s.pc.hasDl
  knows : ∀ I, s.dl = some I → s.pc.Knows o I

lemma informed_exit {code : UInt32} : (s.exit code).Informed o := ⟨rfl, fun _ hI => by cases hI⟩

/-- `main` calls a function of the instance. -/
lemma informed_call (h : s.call I c pc = some s') (hdl : pc.hasDl = true)
    (hpc : pc.Knows o (Inst.enter I.lock c)) : s'.Informed o := by
  obtain ⟨I', sent, hs, rfl⟩ := call_inv h
  obtain ⟨-, rfl, -⟩ := Inst.step_call hs
  refine ⟨hdl.symm, fun J hJ => ?_⟩
  obtain rfl := Option.some.inj hJ
  exact hpc

/-- `main` goes on without a call. -/
lemma informed_flow (hI : s.dl = some I) (hdl : pc.hasDl = true) (hpc : pc.Knows o I) :
    Informed o { s with pc := pc, status := st } := by
  refine ⟨?_, fun J hJ => ?_⟩
  · show s.dl.isSome = pc.hasDl
    rw [hI, hdl]
    rfl
  · obtain rfl := Option.some.inj (hI.symm.trans hJ)
    exact hpc

/-- A step of `main`. -/
lemma informed_main (ho : o.Asks) (hI : s.dl = some I) (h : s.pc.Knows o I)
    (hs : s.mainStep o I = some s') : s'.Informed o := by
  cases branch_of_mainStep hs with
  | undefined _ _ hs | empty _ hs | usage _ _ hs | refused _ hs | ended _ hs | destroyed _ hs =>
    subst hs
    exact informed_exit
  | limit hpc hs =>
    rw [hpc] at h
    exact informed_call hs rfl (Inst.Defining.limit h o.retryNum)
  | define d rest hpc hs =>
    rw [hpc] at h
    exact informed_call hs rfl (Inst.Defining.define h)
  | next rest hpc _ hs =>
    rw [hpc] at h
    subst hs
    exact informed_flow hI rfl h
  | dispatch hpc _ hs =>
    rw [hpc] at h
    subst hs
    exact informed_flow hI rfl h
  | acquire hpc _ hs =>
    rw [hpc] at h
    exact informed_call hs rfl (Inst.Defining.acquire ho h)
  | ask _ _ _ hs | release _ hs | delete _ hs => exact informed_call hs rfl trivial
  | skip _ _ hs | answer _ _ _ hs | acquired _ _ hs | finish _ hs =>
    subst hs
    exact informed_flow hI rfl trivial

/-- **Every step of the process keeps what `main` knows.** -/
lemma informed_step (ho : o.Asks) (h : s.Informed o) (hs : s.step o e = some s') :
    s'.Informed o := by
  cases transition_of_step hs with
  | dl e I I' sent he hI hstep =>
    have hlive := h.live
    rw [hI] at hlive
    refine ⟨hlive, fun J hJ => ?_⟩
    obtain rfl := Option.some.inj hJ
    exact ChildPc.knows_dl (h.knows I hI) he hstep
  | main I s' hI hs => exact informed_main ho hI (h.knows I hI) hs
  | construct id =>
    refine ⟨rfl, fun J hJ => ?_⟩
    obtain rfl := Option.some.inj hJ
    exact Inst.setup_new.toDefining
  | throws | forkFails => exact informed_exit
  | forks pid hpc | waits pid _ _ hpc =>
    have hlive := h.live
    rw [hpc] at hlive
    exact ⟨hlive, fun _ _ => trivial⟩

/-! ### `main` waits for `acquire` -/

/-- `main` is in `acquire`, which may begin another pass after the next one that fails. -/
def Waiting (o : Options) (s : Child) : Prop :=
  s.pc = .acquiring ∧ ∃ I, s.dl = some I ∧ I.First none ∧
    ∀ n, n ∈ o.resMap.keys ↔ n ∈ I.lock.names

/-- How many steps are left of `main` at most while it waits. -/
def awaited (s : Child) : ℕ := s.dl.elim 0 Inst.first + 2

/-- **Who waits goes on waiting, or is on its way to its command.** -/
lemma waiting_step (h : s.Waiting o) (hc : s.Calm e) (hs : s.step o e = some s') :
    (s'.OnWay o ∧ s'.left o + e.ofMain.toNat ≤ s.awaited) ∨
      (s'.Waiting o ∧ s'.awaited + e.ofMain.toNat ≤ s.awaited) := by
  obtain ⟨hpc, I, hI, hfirst, hnames⟩ := h
  have hawaited : s.awaited = I.first + 2 := by
    rw [awaited, hI]
    rfl
  rw [hawaited]
  cases transition_of_step hs with
  | dl e J I' sent _ hJ hstep =>
    obtain rfl := Option.some.inj (hI.symm.trans hJ)
    have hcalm := hc I hI
    have hnames' : ∀ n, n ∈ o.resMap.keys ↔ n ∈ I'.lock.names := by
      rw [(Inst.frame_step hcalm.isCall hstep).names_eq]
      exact hnames
    -- either the first pass is still under way, or it has come to its end
    rcases Inst.first_step hfirst hcalm hstep with ⟨hsettled, hleft⟩ | ⟨hfirst', hleft⟩
    · refine .inl ⟨.inr ⟨I', rfl, ?_⟩, ?_⟩
      · rw [hpc]
        exact ⟨hsettled, hnames'⟩
      · rw [left_eq rfl, hpc]
        show I'.left + 2 + e.ofThread.toNat ≤ _
        omega
    · refine .inr ⟨⟨hpc, I', rfl, hfirst', hnames'⟩, ?_⟩
      show I'.first + 2 + e.ofThread.toNat ≤ _
      omega
  | main J s' hJ hs =>
    -- `acquire` has not returned
    obtain rfl := Option.some.inj (hI.symm.trans hJ)
    obtain ⟨retry, pc, hctl, -⟩ := hfirst.ctl
    rw [mainStep, hpc] at hs
    dsimp only at hs
    rw [hctl] at hs
    cases hs
  | construct _ h | throws h | forkFails _ h | forks _ h | waits _ _ _ h =>
    cases hpc.symm.trans h

end Child

namespace Fleet

variable {ι : Type*} [DecidableEq ι] {o : ι → Options} {i : ι} {F F' F₀ : Fleet ι}
  {m : FleetMove ι} {id : ι → UInt32} {ms ms' : List (FleetMove ι)} {retry : UInt32} {pc : Pc}

/-- What `main` of the process `i` knows, as long as it has not been killed. -/
def Informed (o : ι → Options) (i : ι) (F : Fleet ι) : Prop :=
  ∀ pc, F.pc i = some pc → (F.child i pc).Informed (o i)

/-- **Every step of the group keeps what `main` knows.** -/
lemma informed_step (ho : (o i).Asks) (h : F.Informed o i) (hs : F.step o m = some F') :
    F'.Informed o i := by
  intro pc' hpc'
  cases seen_step (i := i) hs with
  | killed _ hpc =>
    rw [hpc] at hpc'
    cases hpc'
  | idle _ hpc hsame =>
    rw [hpc] at hpc'
    rw [hsame pc' hpc']
    exact h pc' hpc'
  | turn pc e s hpc hstep _ _ hpc₁ hchild =>
    obtain rfl := Option.some.inj (hpc₁.symm.trans hpc')
    have hinf := Child.informed_step ho (h pc hpc) hstep
    rw [hchild hinf.live]
    exact ⟨hinf.live, hinf.knows⟩

omit [DecidableEq ι] in
lemma informed_start : (start id).Informed o i := by
  intro pc hpc
  obtain rfl := Option.some.inj hpc
  exact ⟨rfl, fun _ hI => by cases hI⟩

/-- The process `i` waits, and nobody is going to contest its resources. -/
structure Waits (o : ι → Options) (i : ι) (F : Fleet ι) : Prop where
  silent : F.Silent (· ∈ (o i).resMap.keys) (· ≠ i) i
  others : ∀ j, j ≠ i → (o j).Questions ∨ F.Ended j
  waiting : ∃ pc, F.pc i = some pc ∧ (F.child i pc).Waiting (o i)

/-- How many steps are left of the process at most while it waits. -/
def awaited (i : ι) (F : Fleet ι) : ℕ := (F.pc i).elim 0 fun pc => (F.child i pc).awaited

/-- **Every step keeps the process waiting, or brings it on its way.** -/
lemma waits_step (h : F.Waits o i) (hd : F.Draws m) (hc : F.Smooth i m)
    (hs : F.step o m = some F') :
    (F'.Succeeds o i ∧ F'.left o i + (m.ofMain i).toNat ≤ F.awaited i) ∨
      (F'.Waits o i ∧ F'.awaited i + (m.ofMain i).toNat ≤ F.awaited i) := by
  have hsilent : F'.Silent (· ∈ (o i).resMap.keys) (· ≠ i) i :=
    silent_step h.others h.silent hd hs
  have hothers := others_step h.others hs
  obtain ⟨pc, hpc, hwait⟩ := h.waiting
  cases seen_step (i := i) hs with
  | killed hm _ =>
    subst hm
    exact absurd rfl hc
  | idle hown hpc' hsame =>
    refine .inr ⟨⟨hsilent, hothers, pc, hpc'.trans hpc, by rwa [hsame pc hpc]⟩, ?_⟩
    rw [hown, awaited, awaited, hpc', hpc]
    exact (congrArg Child.awaited (hsame pc hpc)).le
  | turn pc₁ e s hpc₁ hstep hown hfrom hpc' hchild =>
    obtain rfl := Option.some.inj (hpc₁.symm.trans hpc)
    have hnames : ∀ I, (F.child i pc₁).dl = some I → ∀ r ∈ I.lock.names,
        r ∈ (o i).resMap.keys := by
      obtain ⟨-, J, hJ, -, hnames⟩ := hwait
      intro I hI r hr
      obtain rfl := Option.some.inj (hI.symm.trans hJ)
      exact (hnames r).mpr hr
    have hcalm := calm_of_seen h.silent hnames hc hstep hfrom
    have hawaited : F.awaited i = (F.child i pc₁).awaited := by
      rw [awaited, hpc]
      rfl
    rw [← hown, hawaited]
    rcases Child.waiting_step hwait hcalm hstep with ⟨hway, hleft⟩ | ⟨hwait', hleft⟩
    · have hchild := hchild hway.isSome
      refine .inl ⟨⟨hsilent, hothers, s.pc, hpc', ?_⟩, ?_⟩
      · rw [hchild]
        exact hway
      · rw [left, hpc']
        show (F'.child i s.pc).left (o i) + _ ≤ _
        rw [hchild]
        exact hleft
    · obtain ⟨hpcs, I, hI, hfirst⟩ := hwait'
      have hchild := hchild (by rw [hI, hpcs]; rfl)
      refine .inr ⟨⟨hsilent, hothers, s.pc, hpc', ?_⟩, ?_⟩
      · rw [hchild]
        exact ⟨hpcs, I, hI, hfirst⟩
      · rw [awaited, hpc']
        show (F'.child i s.pc).awaited + _ ≤ _
        rw [hchild]
        exact hleft

/-- The second process starts its command, and the first one, which has called `acquire`, hears
that it holds the resource; then the second one is killed. -/
def hearsTheHolder : List (FleetMove Bool) :=
  (untilCommand 1).map (.child true) ++ ((untilCommand 2).take 7).map (.child false) ++
    List.replicate 4 (.deliver true false) ++ [.kill true]

/-- A pass that fails, because the table still lists the holder, and the next one. -/
def secondPass : List (FleetMove Bool) :=
  (List.map ChildEvent.dl [.wake, .run, .run, .run, .run, .timeout, .run, .run, .timeout,
    .run, .run, .run, .run, .timeout] ++ (untilCommand 2).drop 9).map (.child false)

end Fleet
end DistLock
