/-
The destructors of the instances of one process, each in a thread of its own.

A destructor removes its listener, frees its resources, decrements `s_ch_count`, compares it
with zero and deletes the handler in separate steps, and the steps of different destructors
interleave in any order.  Whoever finds the counter at zero deletes the handler: these are all
the destructors that stand between their decrement and their test when the last decrement
happens.
-/
import Mathlib.Algebra.BigOperators.Group.Finset.Piecewise
import Mathlib.Algebra.Order.BigOperators.Group.Finset
import DistLock.Handler.Shared

namespace DistLock

open Lib (Run)

/-- Where a thread is inside `~DistributedLock`: before `releaseAll`, before
`removeActionListener`, before the loop over the resources, before the decrement, before the
comparison, before `delete(this->ch)`, or at the end. -/
inductive DtorPc
  | releasing
  | removing
  | freeing
  | decrementing
  | testing
  | deleting
  | done
  deriving DecidableEq

namespace DtorPc

/-- The steps that are still to be taken. -/
def rank : DtorPc → ℕ
  | releasing => 6
  | removing => 5
  | freeing => 4
  | decrementing => 3
  | testing => 2
  | deleting => 1
  | done => 0

/-- The counter has yet to be decremented for this instance. -/
def counted : DtorPc → ℕ
  | releasing | removing | freeing | decrementing => 1
  | testing | deleting | done => 0

/-- This destructor deletes the handler if the counter is at zero. -/
def armed : DtorPc → ℕ
  | testing | deleting => 1
  | releasing | removing | freeing | decrementing | done => 0

/-- The instance has removed itself from the listeners of its handler. -/
def Removed : DtorPc → Prop
  | releasing | removing => False
  | freeing | decrementing | testing | deleting | done => True

lemma removed_of_counted {pc : DtorPc} (h : pc.counted = 0) : pc.Removed := by
  cases pc with
  | releasing | removing | freeing | decrementing => cases h
  | testing | deleting | done => trivial

end DtorPc

namespace Process

/-- The listeners of a handler. -/
def listeners (P : Process) (h : ℕ) : List ℕ := (P.handlers[h]?).elim [] (·.alList)

/-- How often a handler has been deleted. -/
def deletions (P : Process) (h : ℕ) : ℕ := (P.handlers[h]?).elim 0 (·.deletions)

/-- One atomic step of the destructor of the instance `dl`.  The packets of `releaseAll` and the
resources do not matter to the handler. -/
def dtorStep (P : Process) (dl : ℕ) : DtorPc → Option (Process × DtorPc)
  | .releasing => some (P, .removing)
  | .removing => some (P.removeListener dl, .freeing)
  | .freeing => some (P, .decrementing)
  | .decrementing => some (P.decrement, .testing)
  | .testing => some (P, if P.sChCount = 0 then .deleting else .done)
  | .deleting => some (P.deleteHandler dl, .done)
  | .done => none

end Process

/-- A process whose instances are being deleted, with the position of each destructor. -/
structure Shutdown where
  proc : Process
  pc : ℕ → DtorPc

namespace Shutdown

/-- All destructors are called. -/
def start (P : Process) : Shutdown where
  proc := P
  pc := fun _ => .releasing

/-- The destructor of the instance `dl` takes a step. -/
def step (T : Shutdown) (dl : ℕ) : Option Shutdown :=
  if dl ∈ T.proc.insts then
    (T.proc.dtorStep dl (T.pc dl)).map fun r => ⟨r.1, Function.update T.pc dl r.2⟩
  else none

/-- A sum over the positions of all destructors. -/
def total (T : Shutdown) (w : DtorPc → ℕ) : ℕ := ∑ dl ∈ T.proc.insts, w (T.pc dl)

/-- If the handler is deleted now, all instances have removed themselves from it. -/
def OnlyAfter (T : Shutdown) (dl : ℕ) : Prop :=
  dl ∈ T.proc.insts → T.pc dl = .deleting → ∀ dl' ∈ T.proc.insts,
    (T.pc dl').Removed ∧ dl' ∉ T.proc.listeners (T.proc.ch dl)

/-- If the counter is brought to zero now, no destructor stands between its decrement and its
test. -/
def Alone (T : Shutdown) (dl : ℕ) : Prop :=
  T.pc dl = .decrementing → T.proc.sChCount = 1 → ∀ dl' ∈ T.proc.insts, T.pc dl' ≠ .testing

instance (T : Shutdown) (dl : ℕ) : Decidable (T.Alone dl) :=
  inferInstanceAs (Decidable (_ → _ → ∀ dl' ∈ T.proc.insts, T.pc dl' ≠ .testing))

end Shutdown

/-! ### One step of a destructor -/

namespace Process

section dtorStep

variable {P P' : Process} {dl h : ℕ} {pc pc' : DtorPc} {f : CommHandler → CommHandler}

lemma deletions_modify_self (hh : h < P.handlers.length) :
    (P.modify h f).deletions h = (f P.handlers[h]).deletions := by
  rw [deletions, getElem?_modify, if_pos rfl, List.getElem?_eq_getElem hh]
  rfl

lemma listeners_modify_self (hh : h < P.handlers.length) :
    (P.modify h f).listeners h = (f P.handlers[h]).alList := by
  rw [listeners, getElem?_modify, if_pos rfl, List.getElem?_eq_getElem hh]
  rfl

lemma deletions_eq (hh : h < P.handlers.length) : P.deletions h = P.handlers[h].deletions := by
  rw [deletions, List.getElem?_eq_getElem hh]
  rfl

lemma listeners_eq (hh : h < P.handlers.length) : P.listeners h = P.handlers[h].alList := by
  rw [listeners, List.getElem?_eq_getElem hh]
  rfl

/-- What no step of a destructor changes, and how the counter goes with its position. -/
lemma dtorStep_frame (hs : P.dtorStep dl pc = some (P', pc')) :
    P'.insts = P.insts ∧ P'.ch = P.ch ∧ P'.handlers.length = P.handlers.length ∧
      P'.sChCount + pc.counted = P.sChCount + pc'.counted ∧ pc'.counted ≤ pc.counted ∧
        pc'.rank < pc.rank := by
  cases pc with
  | done => cases hs
  | testing =>
    obtain ⟨rfl, rfl⟩ := Prod.mk.inj (Option.some.inj hs)
    split_ifs <;> exact ⟨rfl, rfl, rfl, rfl, le_rfl, by decide⟩
  | decrementing =>
    obtain ⟨rfl, rfl⟩ := Prod.mk.inj (Option.some.inj hs)
    exact ⟨rfl, rfl, rfl, by simp [decrement, DtorPc.counted], by decide, by decide⟩
  | removing | deleting =>
    obtain ⟨rfl, rfl⟩ := Prod.mk.inj (Option.some.inj hs)
    exact ⟨rfl, rfl, List.length_modify .., rfl, le_rfl, by decide⟩
  | releasing | freeing =>
    obtain ⟨rfl, rfl⟩ := Prod.mk.inj (Option.some.inj hs)
    exact ⟨rfl, rfl, rfl, rfl, le_rfl, by decide⟩

/-- The handler is deleted in the last step only. -/
lemma dtorStep_deletions (hs : P.dtorStep dl pc = some (P', pc'))
    (hh : P.ch dl < P.handlers.length) :
    P'.deletions (P.ch dl) = P.deletions (P.ch dl) + if pc = .deleting then 1 else 0 := by
  cases pc with
  | done => cases hs
  | removing | deleting =>
    obtain ⟨rfl, rfl⟩ := Prod.mk.inj (Option.some.inj hs)
    rw [deletions_eq hh]
    exact deletions_modify_self hh
  | _ =>
    obtain ⟨rfl, rfl⟩ := Prod.mk.inj (Option.some.inj hs)
    rfl

/-- An instance leaves the listeners in the step that removes it. -/
lemma dtorStep_listeners (hs : P.dtorStep dl pc = some (P', pc'))
    (hh : P.ch dl < P.handlers.length) :
    P'.listeners (P.ch dl) =
      if pc = .removing then (P.listeners (P.ch dl)).erase dl
      else if pc = .deleting then [] else P.listeners (P.ch dl) := by
  cases pc with
  | done => cases hs
  | removing | deleting =>
    obtain ⟨rfl, rfl⟩ := Prod.mk.inj (Option.some.inj hs)
    rw [listeners_eq hh]
    exact listeners_modify_self hh
  | _ =>
    obtain ⟨rfl, rfl⟩ := Prod.mk.inj (Option.some.inj hs)
    rfl

/-- Nobody goes on to delete the handler unless the counter is at zero. -/
lemma dtorStep_deleting (hs : P.dtorStep dl pc = some (P', .deleting)) :
    pc = .testing ∧ P.sChCount = 0 := by
  cases pc with
  | done => cases hs
  | testing =>
    refine ⟨rfl, ?_⟩
    by_contra hne
    rw [dtorStep, if_neg hne] at hs
    cases hs
  | _ => cases hs

/-- The counter is decremented on the way to the test. -/
lemma dtorStep_counted_lt (hs : P.dtorStep dl pc = some (P', pc'))
    (hlt : pc'.counted < pc.counted) : pc = .decrementing ∧ pc' = .testing := by
  cases pc with
  | decrementing =>
    obtain ⟨-, rfl⟩ := Prod.mk.inj (Option.some.inj hs)
    exact ⟨rfl, rfl⟩
  | done => cases hs
  | testing | deleting => exact absurd hlt (Nat.not_lt_zero _)
  | _ =>
    obtain ⟨-, rfl⟩ := Prod.mk.inj (Option.some.inj hs)
    exact absurd hlt (lt_irrefl _)

/-- With the counter at zero, a destructor that is armed stays so until it deletes the
handler. -/
lemma dtorStep_armed (hs : P.dtorStep dl pc = some (P', pc')) (h0 : P.sChCount = 0)
    (hne : pc ≠ .decrementing) :
    pc.armed = pc'.armed + if pc = .deleting then 1 else 0 := by
  cases pc with
  | decrementing => exact absurd rfl hne
  | done => cases hs
  | testing =>
    obtain ⟨-, rfl⟩ := Prod.mk.inj (Option.some.inj hs)
    rw [if_pos h0]
    rfl
  | _ =>
    obtain ⟨-, rfl⟩ := Prod.mk.inj (Option.some.inj hs)
    rfl

end dtorStep

end Process

namespace Shutdown

section step

variable {T T' : Shutdown} {dl : ℕ} {w : DtorPc → ℕ}

lemma step_inv (hs : T.step dl = some T') :
    dl ∈ T.proc.insts ∧ ∃ P' pc', T.proc.dtorStep dl (T.pc dl) = some (P', pc') ∧
      T' = ⟨P', Function.update T.pc dl pc'⟩ := by
  rw [step] at hs
  split_ifs at hs with hdl
  obtain ⟨⟨P', pc'⟩, hr, rfl⟩ := Option.map_eq_some_iff.mp hs
  exact ⟨hdl, P', pc', hr, rfl⟩

lemma step_eq {P' : Process} {pc pc' : DtorPc} (hdl : dl ∈ T.proc.insts) (hpc : T.pc dl = pc)
    (hr : T.proc.dtorStep dl pc = some (P', pc')) :
    T.step dl = some ⟨P', Function.update T.pc dl pc'⟩ := by
  rw [step, if_pos hdl, hpc, hr]
  rfl

/-- A destructor that is not interrupted does what `~DistributedLock` does as a whole. -/
theorem run_destroy (hdl : dl ∈ T.proc.insts) (hpc : T.pc dl = .releasing) :
    ∃ n T', Run step (fun _ _ => True) T (List.replicate n dl) T' ∧ T'.pc dl = .done ∧
      T.proc.destroy dl = { T'.proc with insts := T.proc.insts.erase dl } := by
  have hself : ∀ (f : ℕ → DtorPc) pc, Function.update f dl pc dl = pc := fun _ _ =>
    Function.update_self ..
  have htest : ∃ S, Run step (fun _ _ => True) T (List.replicate 4 dl) S ∧
      S.proc = (T.proc.removeListener dl).decrement ∧ S.pc dl = .testing :=
    ⟨_, .cons trivial (step_eq hdl hpc rfl) <| .cons trivial (step_eq hdl (hself _ _) rfl) <|
      .cons trivial (step_eq hdl (hself _ _) rfl) <| .cons trivial (step_eq hdl (hself _ _) rfl) <|
      .nil _, rfl, hself _ _⟩
  obtain ⟨S, hS, hproc, hpcS⟩ := htest
  have hdlS : dl ∈ S.proc.insts := by rw [hproc]; exact hdl
  by_cases h0 : S.proc.sChCount = 0
  · have hr : S.proc.dtorStep dl .testing = some (S.proc, .deleting) := by
      rw [Process.dtorStep, if_pos h0]
    refine ⟨6, _, (hS.append (.cons trivial (step_eq hdlS hpcS hr) <|
      .cons trivial (step_eq hdlS (hself _ _) rfl) <| .nil _)), hself _ _, ?_⟩
    rw [hproc] at h0 ⊢
    rw [Process.destroy, if_pos h0]
    rfl
  · have hr : S.proc.dtorStep dl .testing = some (S.proc, .done) := by
      rw [Process.dtorStep, if_neg h0]
    refine ⟨5, _, hS.append (.cons trivial (step_eq hdlS hpcS hr) <| .nil _), hself _ _, ?_⟩
    rw [hproc] at h0 ⊢
    rw [Process.destroy, if_neg h0]
    rfl

/-- A sum over all destructors changes with the one that moves. -/
lemma total_update (w : DtorPc → ℕ) {P' : Process} (pc' : DtorPc) (hdl : dl ∈ T.proc.insts)
    (hinsts : P'.insts = T.proc.insts) :
    (Shutdown.mk P' (Function.update T.pc dl pc')).total w + w (T.pc dl) =
      T.total w + w pc' := by
  have hcomp : ∀ j, w (Function.update T.pc dl pc' j) =
      Function.update (fun j => w (T.pc j)) dl (w pc') j := by
    intro j
    by_cases hj : j = dl
    · rw [hj, Function.update_self, Function.update_self]
    · rw [Function.update_of_ne hj, Function.update_of_ne hj]
  have hsum : (Shutdown.mk P' (Function.update T.pc dl pc')).total w =
      w pc' + ∑ j ∈ T.proc.insts \ {dl}, w (T.pc j) := by
    rw [total, hinsts, Finset.sum_congr rfl fun j _ => hcomp j, Finset.sum_update_of_mem hdl]
  have hold : T.total w = w (T.pc dl) + ∑ j ∈ T.proc.insts \ {dl}, w (T.pc j) := by
    rw [total, ← Finset.add_sum_erase _ _ hdl, Finset.sdiff_singleton_eq_erase]
  omega

lemma total_eq_zero_iff : T.total w = 0 ↔ ∀ dl ∈ T.proc.insts, w (T.pc dl) = 0 :=
  Finset.sum_eq_zero_iff

end step

/-! ### The invariant -/

/-- The instances share the handler `h`: the counter counts the destructors that have not
decremented it, whoever is still a listener has not removed itself, and nothing is deleted
before the counter is at zero. -/
structure Sharing (T : Shutdown) (h : ℕ) : Prop where
  ch_eq : ∀ dl ∈ T.proc.insts, T.proc.ch dl = h
  created : h < T.proc.handlers.length
  count : T.proc.sChCount = T.total DtorPc.counted
  nodup : (T.proc.listeners h).Nodup
  listening : ∀ dl ∈ T.proc.listeners h, ¬ (T.pc dl).Removed
  fresh : 0 < T.proc.sChCount →
    T.proc.deletions h = 0 ∧ ∀ dl ∈ T.proc.insts, T.pc dl ≠ .deleting

/-- The deletions that have happened, and those that will happen if the counter is at zero. -/
def stake (T : Shutdown) (h : ℕ) : ℕ := T.proc.deletions h + T.total DtorPc.armed

section invariant

variable {T T' : Shutdown} {dl h : ℕ} {sched : List ℕ}

lemma Sharing.step (hT : T.Sharing h) (hs : T.step dl = some T') : T'.Sharing h := by
  obtain ⟨hdl, P', pc', hr, rfl⟩ := step_inv hs
  obtain ⟨hinsts, hch, hlen, hcount, hle, -⟩ := Process.dtorStep_frame hr
  obtain rfl : T.proc.ch dl = h := hT.ch_eq dl hdl
  have hdel := Process.dtorStep_deletions hr hT.created
  have hlis := Process.dtorStep_listeners hr hT.created
  have htotal := total_update DtorPc.counted pc' hdl hinsts
  -- who still listens has listened before, and has not been removed
  have hmem : ∀ j ∈ P'.listeners (T.proc.ch dl), j ∈ T.proc.listeners (T.proc.ch dl) ∧
      (j = dl → T.pc dl ≠ .removing) := by
    intro j hj
    rw [hlis] at hj
    split_ifs at hj with hpc
    · refine ⟨List.mem_of_mem_erase hj, fun he => ?_⟩
      rw [he] at hj
      exact absurd hj (hT.nodup.not_mem_erase)
    · exact absurd hj List.not_mem_nil
    · exact ⟨hj, fun _ => hpc⟩
  refine ⟨fun j hj => ?_, ?_, ?_, ?_, fun j hj => ?_, fun hpos => ?_⟩
  · show P'.ch j = _
    rw [hch]
    exact hT.ch_eq j (hinsts ▸ hj)
  · show _ < P'.handlers.length
    rw [hlen]
    exact hT.created
  · have := hT.count
    show P'.sChCount = _
    omega
  · show (P'.listeners (T.proc.ch dl)).Nodup
    rw [hlis]
    split_ifs
    · exact hT.nodup.erase dl
    · exact List.nodup_nil
    · exact hT.nodup
  · obtain ⟨hold, hne⟩ := hmem j hj
    have hnot := hT.listening j hold
    show ¬ (Function.update T.pc dl pc' j).Removed
    by_cases he : j = dl
    · subst he
      rw [Function.update_self]
      cases hpc : T.pc j with
      | removing => exact absurd hpc (hne rfl)
      | releasing =>
        rw [hpc] at hr
        obtain ⟨-, rfl⟩ := Prod.mk.inj (Option.some.inj hr)
        exact fun h => h
      | _ => exact absurd (by rw [hpc]; trivial) hnot
    · rw [Function.update_of_ne he]
      exact hnot
  · change 0 < P'.sChCount at hpos
    -- the counter only falls, so that nobody has deleted the handler yet
    have hbefore : 0 < T.proc.sChCount := by omega
    obtain ⟨hzero, hnone⟩ := hT.fresh hbefore
    refine ⟨?_, fun j hj => ?_⟩
    · show P'.deletions _ = 0
      rw [hdel, hzero, if_neg (hnone dl hdl)]
    · show Function.update T.pc dl pc' j ≠ .deleting
      by_cases he : j = dl
      · rw [he, Function.update_self]
        rintro rfl
        have := (Process.dtorStep_deleting hr).2
        omega
      · rw [Function.update_of_ne he]
        exact hnone j (hinsts ▸ hj)

/-- The handler is deleted only after all instances have removed themselves from it. -/
lemma Sharing.onlyAfter (hT : T.Sharing h) (dl : ℕ) : T.OnlyAfter dl := by
  intro hdl hpc dl' hdl'
  have hzero : ¬ 0 < T.proc.sChCount := fun hpos => (hT.fresh hpos).2 dl hdl hpc
  have htotal : T.total DtorPc.counted = 0 := by
    have := hT.count
    omega
  have hrem := DtorPc.removed_of_counted (total_eq_zero_iff.mp htotal dl' hdl')
  refine ⟨hrem, fun hmem => ?_⟩
  rw [hT.ch_eq dl hdl] at hmem
  exact hT.listening dl' hmem hrem

/-- Once the counter is at zero, the stake does not change any more. -/
lemma Sharing.stake_step (hT : T.Sharing h) (hs : T.step dl = some T')
    (h0 : T.proc.sChCount = 0) : T'.proc.sChCount = 0 ∧ T'.stake h = T.stake h := by
  obtain ⟨hdl, P', pc', hr, rfl⟩ := step_inv hs
  obtain ⟨hinsts, -, -, hcount, hle, -⟩ := Process.dtorStep_frame hr
  obtain rfl : T.proc.ch dl = h := hT.ch_eq dl hdl
  have htotal : T.total DtorPc.counted = 0 := by
    have := hT.count
    omega
  have hnot := total_eq_zero_iff.mp htotal dl hdl
  have hne : T.pc dl ≠ .decrementing := by
    intro hpc
    rw [hpc] at hnot
    cases hnot
  have hdel := Process.dtorStep_deletions hr hT.created
  have harmed := Process.dtorStep_armed hr h0 hne
  have hsum := total_update DtorPc.armed pc' hdl hinsts
  refine ⟨?_, ?_⟩
  · show P'.sChCount = 0
    omega
  · show P'.deletions _ + _ = T.proc.deletions _ + _
    omega

/-- The step that brings the counter to zero leaves exactly one destructor that will delete the
handler, if and only if no other one has still to make its test. -/
lemma Sharing.stake_one_iff (hT : T.Sharing h) (hone : T.proc.sChCount = 0 → T.stake h = 1)
    (hs : T.step dl = some T') : (T'.proc.sChCount = 0 → T'.stake h = 1) ↔ T.Alone dl := by
  by_cases h0 : T.proc.sChCount = 0
  · obtain ⟨-, hstake⟩ := hT.stake_step hs h0
    refine iff_of_true (fun _ => hstake.trans (hone h0)) fun _ h1 => ?_
    omega
  · obtain ⟨hdl, P', pc', hr, rfl⟩ := step_inv hs
    obtain ⟨hinsts, -, -, hcount, hle, -⟩ := Process.dtorStep_frame hr
    obtain rfl : T.proc.ch dl = h := hT.ch_eq dl hdl
    have hpos : 0 < T.proc.sChCount := by
      have := hT.count
      omega
    obtain ⟨hzero, hnone⟩ := hT.fresh hpos
    by_cases h0' : P'.sChCount = 0
    · have hlt : pc'.counted < (T.pc dl).counted := by omega
      obtain ⟨hpc, rfl⟩ := Process.dtorStep_counted_lt hr hlt
      have h1 : T.proc.sChCount = 1 := by
        rw [hpc] at hcount
        change P'.sChCount + 1 = T.proc.sChCount + 0 at hcount
        omega
      have hdel := Process.dtorStep_deletions hr hT.created
      have hsum := total_update DtorPc.armed .testing hdl hinsts
      rw [hpc, if_neg (by decide)] at hdel
      rw [hpc] at hsum
      change _ + 0 = _ + 1 at hsum
      have hstake : (Shutdown.mk P' (Function.update T.pc dl .testing)).stake (T.proc.ch dl) =
          T.total DtorPc.armed + 1 := by
        show P'.deletions _ + _ = _
        omega
      rw [hstake]
      have hiff : T.total DtorPc.armed = 0 ↔ ∀ dl' ∈ T.proc.insts, T.pc dl' ≠ .testing := by
        rw [total_eq_zero_iff]
        refine forall₂_congr fun dl' hdl' => ?_
        have hd := hnone dl' hdl'
        cases hpc' : T.pc dl' with
        | deleting => exact absurd hpc' hd
        | testing => exact iff_of_false (by decide) fun hc => hc rfl
        | _ => exact iff_of_true rfl (by decide)
      constructor
      · exact fun hh _ _ => hiff.mp (Nat.succ.inj (hh h0'))
      · exact fun hA _ => congrArg (· + 1) (hiff.mpr (hA hpc h1))
    · refine iff_of_true (fun hc => absurd hc h0') fun hpc h1 => ?_
      rw [hpc] at hr
      obtain ⟨rfl, rfl⟩ := Prod.mk.inj (Option.some.inj hr)
      change T.proc.sChCount - 1 ≠ 0 at h0'
      omega

end invariant

end Shutdown

/-! ### Instances that are made before any is deleted -/

/-- The event makes an instance. -/
def InstEvent.IsConstruct : InstEvent → Prop
  | .construct _ _ => True
  | .destroy _ => False

namespace Process

section construct

variable {P P' Q : Process} {dl h : ℕ} {opens : Bool} {e : InstEvent} {es : List InstEvent}

/-- While instances are only made, each handler has its instances as listeners and has not been
deleted. -/
structure Growing (P : Process) : Prop where
  created : ∀ h, P.sCh = some h → h < P.handlers.length
  fresh : ∀ h, P.deletions h = 0
  nodup : ∀ h, (P.listeners h).Nodup
  listening : ∀ h, ∀ dl ∈ P.listeners h, dl ∈ P.insts

lemma Growing.start : Process.start.Growing where
  created := fun _ hh => by cases hh
  fresh := fun _ => rfl
  nodup := fun _ => List.nodup_nil
  listening := fun _ _ hdl => absurd hdl List.not_mem_nil

/-- A handler that has just been created looks like one that does not exist. -/
lemma look_of_new (hQ : Q.handlers = P.handlers ++ [CommHandler.new]) (j : ℕ) :
    Q.deletions j = P.deletions j ∧ Q.listeners j = P.listeners j := by
  simp only [deletions, listeners, hQ]
  obtain hlt | rfl | hgt := lt_trichotomy j P.handlers.length
  · rw [List.getElem?_append_left hlt]
    exact ⟨rfl, rfl⟩
  · simp [CommHandler.new]
  · have h₁ : (P.handlers ++ [CommHandler.new])[j]? = none := by
      rw [List.getElem?_eq_none_iff, List.length_append, List.length_singleton]
      omega
    have h₂ : P.handlers[j]? = none := List.getElem?_eq_none hgt.le
    rw [h₁, h₂]
    exact ⟨rfl, rfl⟩

lemma Growing.construct (hP : P.Growing) (hdl : dl ∉ P.insts) :
    (P.construct dl opens).Growing := by
  obtain ⟨-, heq⟩ | ⟨Q, h, hg, heq⟩ := P.construct_cases dl opens
  · rwa [heq]
  · obtain ⟨hsCh, -, hinsts, -, hcase⟩ := getCommHandlerInstance_inv hg
    have hlook : h < Q.handlers.length ∧
        ∀ j, Q.deletions j = P.deletions j ∧ Q.listeners j = P.listeners j := by
      obtain ⟨hs, hsame⟩ | ⟨-, rfl, hnew⟩ := hcase
      · refine ⟨hsame ▸ hP.created h hs, fun j => ?_⟩
        rw [deletions, deletions, listeners, listeners, hsame]
        exact ⟨rfl, rfl⟩
      · refine ⟨?_, look_of_new hnew⟩
        rw [hnew, List.length_append, List.length_singleton]
        exact Nat.lt_succ_self _
    obtain ⟨hlt, hlook⟩ := hlook
    have hdel : ∀ j, (P.construct dl opens).deletions j = P.deletions j := by
      intro j
      rw [← (hlook j).1, heq]
      show (Q.modify h (·.addActionListener dl)).deletions j = Q.deletions j
      rw [deletions, getElem?_modify]
      split_ifs
      · rw [deletions, Option.elim_map]
        rfl
      · rfl
    have hlis : ∀ j, (P.construct dl opens).listeners j =
        if h = j then P.listeners j ++ [dl] else P.listeners j := by
      intro j
      rw [← (hlook j).2, heq]
      show (Q.modify h (·.addActionListener dl)).listeners j = _
      split_ifs with hj
      · subst hj
        rw [listeners_modify_self hlt, listeners_eq hlt]
        rfl
      · rw [listeners, getElem?_modify, if_neg hj]
        rfl
    have hin : (P.construct dl opens).insts = insert dl P.insts := by
      rw [heq, ← hinsts]
    refine ⟨fun j hj => ?_, fun j => ?_, fun j => ?_, fun j i hi => ?_⟩
    · rw [heq] at hj ⊢
      obtain rfl : h = j := Option.some.inj (hsCh.symm.trans hj)
      show h < (Q.handlers.modify h _).length
      rw [List.length_modify]
      exact hlt
    · rw [hdel]
      exact hP.fresh j
    · rw [hlis]
      split_ifs
      · rw [List.nodup_append]
        refine ⟨hP.nodup j, List.nodup_singleton dl, fun a ha b hb => ?_⟩
        rw [List.mem_singleton.mp hb]
        rintro rfl
        exact hdl (hP.listening j a ha)
      · exact hP.nodup j
    · rw [hlis] at hi
      rw [hin]
      split_ifs at hi
      · obtain hi | hi := List.mem_append.mp hi
        · exact Finset.mem_insert_of_mem (hP.listening j i hi)
        · rw [List.mem_singleton.mp hi]
          exact Finset.mem_insert_self dl P.insts
      · exact Finset.mem_insert_of_mem (hP.listening j i hi)

/-- All instances share one handler, which nobody has deleted. -/
lemma sharing_start (h : Run step (fun _ e => e.IsConstruct) start es P) (hdl : dl ∈ P.insts) :
    (Shutdown.start P).Sharing (P.ch dl) ∧ 0 < P.sChCount := by
  have hinv : P.Consistent ∧ P.Growing := by
    refine h.invariant (I := fun P => P.Consistent ∧ P.Growing) ?_
      ⟨Consistent.start, Growing.start⟩
    rintro P e P' ⟨hP, hG⟩ he hs
    refine ⟨hP.step hs, ?_⟩
    cases e with
    | destroy dl => exact absurd he (fun h => h)
    | construct dl opens =>
      rw [step] at hs
      split_ifs at hs with hdl
      obtain rfl := Option.some.inj hs
      exact hG.construct hdl
  obtain ⟨hP, hG⟩ := hinv
  have hpos : 0 < P.insts.card := Finset.card_pos.mpr ⟨dl, hdl⟩
  have hcount := hP.count
  refine ⟨⟨fun dl' hdl' => ?_, hG.created _ (hP.ch_eq dl hdl), ?_, hG.nodup _,
    fun _ _ => fun h => h, fun _ => ⟨hG.fresh _, fun _ _ hc => by cases hc⟩⟩, by omega⟩
  · exact Option.some.inj ((hP.ch_eq dl' hdl').symm.trans (hP.ch_eq dl hdl))
  · show P.sChCount = (∑ _dl ∈ P.insts, 1 : ℕ)
    rw [Finset.sum_const_nat fun _ _ => rfl, hcount, mul_one]

end construct

end Process

/-! ### How often the handler is deleted -/

namespace Shutdown

section runs

variable {T T' : Shutdown} {P : Process} {dl dl₀ h : ℕ} {es : List InstEvent} {sched : List ℕ}

/-- A destructor that is not at its end can take a step. -/
lemma done_of_step_none (hend : ∀ dl, T.step dl = none) : ∀ dl ∈ T.proc.insts, T.pc dl = .done := by
  intro dl hdl
  have hnone := hend dl
  rw [step, if_pos hdl] at hnone
  cases hpc : T.pc dl with
  | done => rfl
  | _ =>
    rw [hpc] at hnone
    cases hnone

/-- Each destructor takes at most six steps. -/
theorem schedule_le (h : Run step (fun _ _ => True) (start P) sched T) :
    sched.length ≤ 6 * P.insts.card := by
  have hrun : ∀ {S S' : Shutdown} {sched : List ℕ}, Run step (fun _ _ => True) S sched S' →
      sched.length + S'.total DtorPc.rank ≤ S.total DtorPc.rank := by
    intro S S' sched h
    induction h with
    | nil => simp
    | cons _ hs _ ih =>
      obtain ⟨hdl, P', pc', hr, rfl⟩ := step_inv hs
      obtain ⟨hinsts, -, -, -, -, hrank⟩ := Process.dtorStep_frame hr
      have htotal := total_update DtorPc.rank pc' hdl hinsts
      rw [List.length_cons]
      omega
  have hstart : (start P).total DtorPc.rank = 6 * P.insts.card := by
    show ∑ _dl ∈ P.insts, 6 = _
    rw [Finset.sum_const_nat fun _ _ => rfl, mul_comm]
  have := hrun h
  omega

/-- From a state with the counter at zero, a run does not change the stake. -/
lemma Sharing.stake_run (hT : T.Sharing h)
    (hrun : Run Shutdown.step (fun _ _ => True) T sched T')
    (h0 : T.proc.sChCount = 0) : T'.stake h = T.stake h := by
  have hinv := hrun.invariant
    (I := fun S => S.Sharing h ∧ S.proc.sChCount = 0 ∧ S.stake h = T.stake h)
    (fun S dl S' hS _ hs => ?_) ⟨hT, h0, rfl⟩
  · exact hinv.2.2
  · obtain ⟨hS0, hstake⟩ := hS.1.stake_step hs hS.2.1
    exact ⟨hS.1.step hs, hS0, hstake.trans hS.2.2⟩

/-- **The shared handler is deleted exactly once**, and only after all instances have removed
themselves, if and only if nobody stands between the decrement and the test when the counter
is brought to zero. -/
theorem deleted_once_iff (hP : Run Process.step (fun _ e => e.IsConstruct) Process.start es P)
    (hdl₀ : dl₀ ∈ P.insts) (h : Run step (fun _ _ => True) (start P) sched T)
    (hend : ∀ dl, T.step dl = none) :
    (T.proc.deletions (P.ch dl₀) = 1 ∧ Run step OnlyAfter (start P) sched T) ↔
      Run step Alone (start P) sched T := by
  obtain ⟨hstart, hpos⟩ := Process.sharing_start hP hdl₀
  have hstep : ∀ (S : Shutdown) dl S', S.Sharing (P.ch dl₀) → True → S.step dl = some S' →
      S'.Sharing (P.ch dl₀) := fun _ _ _ hS _ hs => hS.step hs
  have hT : T.Sharing (P.ch dl₀) := h.invariant (I := fun S => S.Sharing (P.ch dl₀)) hstep hstart
  have hdone := done_of_step_none hend
  have hafter : Run step OnlyAfter (start P) sched T :=
    (h.guard_invariant (I := fun S => S.Sharing (P.ch dl₀)) hstep hstart).mono
      fun _ dl hS => hS.2.onlyAfter dl
  -- at the end everything is decided
  have hzero : T.proc.sChCount = 0 := by
    rw [hT.count]
    exact_mod_cast total_eq_zero_iff.mpr fun dl hdl => by rw [hdone dl hdl]; rfl
  have hstake : T.stake (P.ch dl₀) = T.proc.deletions (P.ch dl₀) := by
    have harmed : T.total DtorPc.armed = 0 :=
      total_eq_zero_iff.mpr fun dl hdl => by rw [hdone dl hdl]; rfl
    rw [stake, harmed, add_zero]
  have hone : (start P).proc.sChCount = 0 → (start P).stake (P.ch dl₀) = 1 := by
    intro h0
    change P.sChCount = 0 at h0
    omega
  have hiff := Run.forall_prefix_iff (I := fun S => S.Sharing (P.ch dl₀))
    (P := fun S => S.proc.sChCount = 0 → S.stake (P.ch dl₀) = 1) hstep
    (fun S dl S' hS hSone _ hs => hS.stake_one_iff hSone hs) h hstart hone
  constructor
  · rintro ⟨hdel, -⟩
    refine (hiff.mp fun es₁ S hpre hS h0 => ?_).mono fun _ _ hc => hc.2
    -- the stake at a prefix is the one at the end
    obtain ⟨fs, rfl⟩ := hpre
    obtain ⟨S', hS', hrest⟩ := h.append_inv
    obtain rfl : S = S' := hS.unique hS'
    have hS' := hS.invariant (I := fun S => S.Sharing (P.ch dl₀)) hstep hstart
    have hS'T := hS'.stake_run hrest h0
    rw [← hS'T, hstake, hdel]
  · intro hrun
    refine ⟨?_, hafter⟩
    rw [← hstake]
    exact hiff.mpr (hrun.mono fun _ _ hc => ⟨trivial, hc⟩) sched T (List.prefix_rfl) h hzero

/-- Two destructors, the second of which decrements after the test of the first. -/
theorem deleted_once_two :
    ∃ T, T.proc.deletions 0 = 1 ∧
      Run step OnlyAfter (start ((Process.start.construct 1 true).construct 2 true))
        [1, 1, 1, 1, 1, 2, 2, 2, 2, 2, 2] T := by
  have hrun : ∃ T, Run step Alone (start ((Process.start.construct 1 true).construct 2 true))
      [1, 1, 1, 1, 1, 2, 2, 2, 2, 2, 2] T ∧ T.proc.insts = {1, 2} ∧ T.pc 1 = .done ∧
        T.pc 2 = .done := ⟨_, Run.of_exec rfl, by decide, by decide, by decide⟩
  obtain ⟨T, hrun, hinsts, hpc⟩ := hrun
  have hP : Run Process.step (fun _ e => e.IsConstruct) Process.start
      [.construct 1 true, .construct 2 true]
      ((Process.start.construct 1 true).construct 2 true) :=
    .cons trivial rfl (.cons trivial rfl (.nil _))
  have hend : ∀ dl, T.step dl = none := by
    intro dl
    rw [step, hinsts]
    split_ifs with hdl
    · obtain rfl | rfl : dl = 1 ∨ dl = 2 := by simpa using hdl
      · rw [hpc.1]; rfl
      · rw [hpc.2]; rfl
    · rfl
  have hmem : 1 ∈ ((Process.start.construct 1 true).construct 2 true).insts := by decide
  exact ⟨T, (deleted_once_iff hP hmem (hrun.mono fun _ _ _ => trivial) hend).mpr hrun⟩

/-- Both destructors decrement the counter before either of them tests it. -/
theorem deleted_twice :
    ∃ T, Run step (fun _ _ => True) (start ((Process.start.construct 1 true).construct 2 true))
        [1, 1, 1, 1, 2, 2, 2, 2, 1, 1, 2, 2] T ∧ T.pc 1 = .done ∧ T.pc 2 = .done ∧
      T.proc.deletions 0 = 2 :=
  ⟨_, Run.of_exec rfl, by decide, by decide, by decide⟩

end runs

end Shutdown
end DistLock
