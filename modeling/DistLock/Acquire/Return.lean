/-
The return of `acquire` (`DistributedLock.cc`).

`passes_bounded` counts the moves of the calling thread, as if `setState` and `reset` were single
steps and the wait of `waitForReady` ended by itself.  Here they take their steps one by one beside
the beacon threads (`DistLock.Beacon.Node`), and for each move of the thread there are at most
sixteen steps, its own and those of a beacon thread for which it waits.  As long as it has not
returned, one of them can be taken (`acquire_returns`).
-/
import DistLock.Acquire.Bounded
import DistLock.Beacon.Waits

namespace DistLock

open Lib (Run)

namespace Node

variable {N N' : Node} {e : NodeEvent} {sent : List DLPacket} {n : Name}

/-! ### The steps between two moves of the calling thread -/

/-- The step of the instance without the threads that happens with a step of the instance. -/
def shown (N : Node) : NodeEvent → Option Event
  | .own e => some e
  | .store => some .run
  | .ready res e => ((N.ready res).step e).bind fun R => if N.wakes res R then some .wake else none
  | .deliver pkt => some (.deliver pkt)
  | .api | .late => none

/-- The steps of the calling thread, and those of a beacon thread for whose notification it waits,
or which it has to notify in time. -/
def works (N : Node) : NodeEvent → Bool
  | .own _ | .store | .api | .late => true
  | .ready res e =>
    e.ofWait || e.ofBeacon && decide ((N.ready res).wait = .asleep ∨
      N.op = some res ∧ (N.ready res).threads.Misses)
  | .deliver _ => false

/-- The steps that are left of the operation. -/
def opLeft (N : Node) : ℕ :=
  match N.op with
  | some res => (N.ready res).threads.left
  | none => 0

/-- The steps that are left of `waitForReady`. -/
def waitLeft (N : Node) : ℕ :=
  match N.inst.waitsOn with
  | some (.startedCv res) => (N.ready res).toWake
  | _ => 0

/-- How many of these steps are left at most before the calling thread moves. -/
def slack (N : Node) : ℕ := N.late.isSome.toNat + N.opLeft + N.waitLeft

lemma opLeft_of (h : N.op = some n) : N.opLeft = (N.ready n).threads.left := by
  rw [opLeft, h]

lemma opLeft_of_none (h : N.op = none) : N.opLeft = 0 := by
  rw [opLeft, h]

lemma waitLeft_of (h : N.inst.waitsOn = some (.startedCv n)) :
    N.waitLeft = (N.ready n).toWake := by
  rw [waitLeft, h]

lemma waitLeft_of_not (h : ∀ n, N.inst.waitsOn ≠ some (.startedCv n)) : N.waitLeft = 0 := by
  rw [waitLeft]
  split
  · next hw => exact absurd hw (h _)
  · rfl

lemma waitLeft_congr (hinst : N'.inst.waitsOn = N.inst.waitsOn)
    (h : ∀ n, N.inst.waitsOn = some (.startedCv n) → (N'.ready n).toWake = (N.ready n).toWake) :
    N'.waitLeft = N.waitLeft := by
  by_cases hw : ∃ n, N.inst.waitsOn = some (.startedCv n)
  · obtain ⟨n, hn⟩ := hw
    rw [waitLeft_of hn, waitLeft_of (hinst.trans hn), h n hn]
  · have hnot : ∀ n, N.inst.waitsOn ≠ some (.startedCv n) := fun n hn => hw ⟨n, hn⟩
    rw [waitLeft_of_not hnot, waitLeft_of_not fun n => hinst ▸ hnot n]

lemma slack_le (N : Node) : N.slack ≤ 15 := by
  have hlate := Bool.toNat_le N.late.isSome
  have hop : N.opLeft ≤ 5 := by
    rw [opLeft]
    split
    · exact Threads.left_le _
    · exact Nat.zero_le 5
  have hwait : N.waitLeft ≤ 9 := by
    rw [waitLeft]
    split
    · exact Readiness.toWake_le _
    · exact Nat.zero_le 9
  rw [slack]
  omega

/-- `adquire_lock` never stops a beacon thread. -/
lemma stopped_of_acquiring {scope : Option Name} (h : N.inst.Acquiring scope) (res : Name) :
    N.stopped res = N.inst :=
  (N.stopped_cases res).resolve_right fun hstop =>
    (Inst.mem_targets_of_next h hstop.1).2 rfl

/-- `adquire_lock` releases nothing. -/
lemma op_of_acquiring {scope : Option Name} {res : Name} {a : Inst.Action} {op : Op}
    (h : N.inst.Acquiring scope) (hn : N.inst.next = some (res, a)) (ha : a.op = some op) :
    op ≠ .release := by
  have hset : ∀ {r : Name} {s : State}, s ≠ .released →
      (r, Inst.Action.setState s) = (res, a) → op ≠ .release := by
    intro r s hs heq
    obtain ⟨-, rfl⟩ := Prod.mk.inj heq
    cases s <;> first | exact absurd rfl hs | (cases ha; simp)
  cases hctl : N.inst.ctl with
  | adquire scope' retry pc =>
    rw [Inst.next, hctl] at hn
    cases pc with
    | start rest | starting rest | announcing rest =>
      cases rest with
      | nil => cases hn
      | cons r rest => exact hset (by simp) (Option.some.inj hn)
    | marking r rest => exact hset (by simp) (Option.some.inj hn)
    | resetting rest =>
      cases rest with
      | nil => cases hn
      | cons r rest =>
        obtain ⟨-, rfl⟩ := Prod.mk.inj (Option.some.inj hn)
        cases ha
        simp
    | _ => cases hn
  | free b =>
    rw [Inst.next, hctl] at hn
    cases hn
  | _ =>
    rw [Inst.Acquiring, hctl] at h
    exact h.elim

lemma takes_of_acquiring {scope : Option Name} {e' : Event} {I : Inst} {l : List DLPacket}
    (h : N.inst.Acquiring scope) (hcall : e'.isCall = false) (ht : N.takes e' = true)
    (hs : N.inst.step e' = some (I, l)) : N.inst.movesThread e' = true := by
  cases e' with
  | call c => cases hcall
  | run | timeout | wake => simp [Inst.movesThread, Inst.Wakes]
  | elapsed n =>
    obtain ⟨q, res, b, -, hctl, -⟩ := Inst.onElapsed_cases (Inst.step_elapsed hs).1
    rw [Inst.Acquiring, hctl] at h
    exact h.elim
  | beacon res | deliver pkt => cases ht

/-- A packet that does not end a wait leaves the calling thread where it is. -/
lemma actionPerformed_of_still {scope : Option Name} {pkt : DLPacket} (h : N.inst.Acquiring scope)
    (hstill : N.inst.movesThread (.deliver pkt) = false) :
    (N.inst.actionPerformed pkt).ctl = N.inst.ctl := by
  cases hctl : N.inst.ctl with
  | adquire scope' retry pc =>
    rcases Inst.actionPerformed_adquire pkt hctl with ⟨-, heq⟩ | ⟨hint, -⟩
    · rw [heq, Inst.hear_ctl, hctl]
    · exact absurd hint (by simpa [Inst.movesThread, Inst.Wakes] using hstill)
  | free b =>
    rw [actionPerformed_of_busy (by rw [Inst.waitsOn, hctl]), hctl]
  | _ =>
    rw [Inst.Acquiring, hctl] at h
    exact h.elim

lemma actionPerformed_of_interrupts {I : Inst} {pkt : DLPacket} (hint : I.Interrupts pkt) :
    (I.actionPerformed pkt).ctl ≠ I.ctl := by
  obtain ⟨scope, retry, pc, hctl⟩ : ∃ scope retry pc, I.ctl = .adquire scope retry pc := by
    obtain ⟨-, R, -, hR⟩ := hint
    rw [Inst.heeds] at hR
    split at hR
    · next scope retry hctl => exact ⟨scope, retry, _, hctl⟩
    · next scope retry hctl => exact ⟨scope, retry, _, hctl⟩
    · cases hR
  intro hsame
  have hw := (Inst.actionPerformed_adquire pkt hctl).resolve_left fun h => h.1 hint
  refine Inst.waitsOn_ne_none_of_onWake hw.2 ?_
  rw [← Inst.waitsOn_of_onWake hw.2, Inst.waitsOn, Inst.waitsOn, Inst.hear_ctl, hsame]

/-- A step of an operation. -/
lemma slack_api {scope : Option Name} {res : Name} {R : Readiness} (hw : N.Waits)
    (hacq : N.inst.Acquiring scope) (hop : N.op = some res)
    (hret : (N.ready res).threads.api.Returning) (hR : (N.ready res).step (.tick .api) = some R)
    (hd : N.Does .api N' sent) : N'.slack + 1 ≤ N.slack := by
  obtain ⟨-, T, hT, rfl⟩ := Readiness.step_tick_inv hR
  obtain ⟨-, hlt, -⟩ := Threads.returning_step hret hT
  have hready : N'.ready = Function.update N.ready res
      { N.ready res with threads := T, due := (N.ready res).dueAfter .api } ∧
      N'.inst = N.inst ∧ N'.late = none ∧ N'.op = if T.api.isFree then none else some res := by
    cases hd with
    | @api res' R' hop' hR' =>
      obtain rfl := Option.some.inj (hop.symm.trans hop')
      obtain rfl := Option.some.inj (hR.symm.trans hR')
      exact ⟨rfl, by simp only [stopped_of_acquiring hacq, ite_self], rfl, rfl⟩
  obtain ⟨hready, hinst, hlate, hop'⟩ := hready
  have hopLeft : N'.opLeft + 1 ≤ N.opLeft := by
    rw [opLeft_of hop]
    by_cases hfree : T.api.isFree = true
    · rw [opLeft_of_none (hop'.trans (if_pos hfree))]
      omega
    · rw [opLeft_of (hop'.trans (if_neg hfree)), hready, Function.update_self]
      exact hlt
  have hwaitLeft : N'.waitLeft = N.waitLeft := by
    refine waitLeft_congr (by rw [hinst]) fun n hn => ?_
    rw [hready]
    rcases eq_or_ne n res with rfl | hne
    · rw [Function.update_self]
      refine Readiness.toWake_congr rfl fun hasleep => ?_
      exact absurd (hop.symm.trans (hw.wait n (by simp [hasleep])).1) (by simp)
    · rw [Function.update_of_ne hne]
  rw [slack, slack, hwaitLeft, hlate]
  simp only [Option.isSome_none, Bool.toNat_false]
  omega

/-- A step of the wait or of the beacon thread that does not end the wait. -/
lemma slack_ready {res : Name} {e : ReadyEvent} {R : Readiness} (hN : N.Sound) (hw : N.Waits)
    (hp : N.permits res e = true) (hR : (N.ready res).step e = some R)
    (hwork : (N.ready res).wait = .asleep →
      ¬ (N.ready res).Stuck ∧ e ≠ .tick .spurious)
    (hwake : ¬ ((N.ready res).wait = .asleep ∧ R.wait = .outside)) (N' : Node)
    (hN' : N' = { N with ready := Function.update N.ready res R }) :
    (N.works (.ready res e)).toNat + N'.slack ≤ N.slack := by
  have hof : ∀ t, e = .tick t → t.ofApi = false := by
    rintro t rfl
    simp only [permits, Bool.and_eq_true, Bool.not_eq_true'] at hp
    exact hp.1
  have hprompt : (N.ready res).wait = .asleep → ¬ (N.ready res).Stuck ∧ e.isPrompt = true := by
    intro hasleep
    refine ⟨(hwork hasleep).1, ?_⟩
    cases e with
    | tick t =>
      cases t with
      | spurious => exact absurd rfl (hwork hasleep).2
      | _ => rfl
    | spurious =>
      simp only [Readiness.step, hasleep, if_true] at hR
      exact absurd ⟨hasleep, by rw [← Option.some.inj hR]⟩ hwake
    | notify | enter | sleep => rfl
  have hleft := Readiness.left_step (hN.ready res) hof hR
  have hwait := Readiness.toWake_step (hN.ready res) hprompt hwake hR
  have hop' : N'.op = N.op := by rw [hN']
  have hwaits : N'.inst.waitsOn = N.inst.waitsOn := by rw [hN']
  have hlate : N'.late = N.late := by rw [hN']
  have hup : N'.ready res = R := by
    rw [hN']
    exact Function.update_self ..
  have hne : ∀ n, n ≠ res → N'.ready n = N.ready n := by
    intro n hn
    rw [hN']
    exact Function.update_of_ne hn ..
  have hopLeft : N'.opLeft +
      (if e.ofBeacon = true ∧ N.op = some res ∧ (N.ready res).threads.Misses then 1 else 0) ≤
      N.opLeft := by
    by_cases hop : N.op = some res
    · rw [opLeft_of hop, opLeft_of (hop'.trans hop), hup]
      simpa [hop] using hleft
    · rw [if_neg fun h => hop h.2.1]
      cases hnone : N.op with
      | none => rw [opLeft_of_none hnone, opLeft_of_none (hop'.trans hnone)]
      | some n =>
        rw [opLeft_of hnone, opLeft_of (hop'.trans hnone), hne n fun h => hop (h ▸ hnone)]
        exact le_rfl
  have hwaitLeft : N'.waitLeft +
      (if e.ofWait = true ∨ e.ofBeacon = true ∧ (N.ready res).wait = .asleep then 1 else 0) ≤
      N.waitLeft := by
    by_cases hn : N.inst.waitsOn = some (.startedCv res)
    · rw [waitLeft_of hn, waitLeft_of (hwaits.trans hn), hup]
      exact hwait
    · rw [if_neg]
      · refine Nat.le_of_eq (waitLeft_congr hwaits fun n hn' => ?_)
        rw [hne n fun h => hn (h ▸ hn')]
      · rintro (hof | ⟨-, hasleep⟩)
        · cases e with
          | enter | sleep | spurious =>
            simp only [permits, Bool.and_eq_true, decide_eq_true_eq] at hp
            exact hn hp.2
          | tick | notify => cases hof
        · exact hn (hw.wait res (by simp [hasleep])).2
  have hworks : (N.works (.ready res e)).toNat ≤
      (if e.ofBeacon = true ∧ N.op = some res ∧ (N.ready res).threads.Misses then 1 else 0) +
        if e.ofWait = true ∨ e.ofBeacon = true ∧ (N.ready res).wait = .asleep then 1 else 0 := by
    cases hval : N.works (.ready res e) with
    | false => exact Nat.zero_le _
    | true =>
      simp only [works, Bool.or_eq_true, Bool.and_eq_true, decide_eq_true_eq] at hval
      rcases hval with hof | ⟨hb, hasleep | hmiss⟩
      · simp [hof]
      · simp [hb, hasleep]
      · simp [hb, hmiss]
  rw [slack, slack, hlate]
  omega

/-- **Between two moves of the calling thread.**  Each of the steps makes the slack smaller, and the
others do not make it larger. -/
theorem slack_step {scope : Option Name} (hN : N.Sound) (hw : N.Waits)
    (hacq : N.inst.Acquiring scope)
    (hbusy : ∀ n, N.op = some n → (N.ready n).threads.api.Returning)
    (hwork : ∀ n, (N.ready n).wait = .asleep →
      ¬ (N.ready n).Stuck ∧ e ≠ .ready n (.tick .spurious))
    (hcall : e.isCall = false) (hd : N.Does e N' sent)
    (hstill : (N.shown e).any N.inst.movesThread = false) :
    (N.works e).toNat + N'.slack ≤ N.slack := by
  have hd' := hd
  cases hd with
  | @own e I l hop ht hs =>
    have hmove := takes_of_acquiring hacq hcall ht hs
    simp [shown, hmove] at hstill
  | store => simp [shown, Inst.movesThread] at hstill
  | @api res R hop hR =>
    have hle := slack_api hw hacq hop (hbusy res hop) hR hd'
    rw [show N.works .api = true from rfl, Bool.toNat_true]
    omega
  | @ready res e R hp hR =>
    have hwake : ¬ N.wakes res R = true := by
      intro hwake
      simp [shown, hR, hwake, Inst.movesThread, Inst.Wakes] at hstill
    simp only [hwake, Bool.false_eq_true, if_false]
    refine slack_ready hN hw hp hR (fun hasleep => ?_) (by simpa [wakes] using hwake) _ rfl
    exact ⟨(hwork res hasleep).1, fun he => (hwork res hasleep).2 (by rw [he])⟩
  | deliver pkt =>
    have hctl := actionPerformed_of_still hacq (by simpa [shown] using hstill)
    have hwaits : (N.hear pkt).inst.waitsOn = N.inst.waitsOn := by
      rw [Inst.waitsOn, Inst.waitsOn, show (N.hear pkt).inst.ctl = N.inst.ctl from hctl]
    have hlate : (N.hear pkt).late = N.late := if_pos hctl
    have hwait : (N.hear pkt).waitLeft = N.waitLeft := waitLeft_congr hwaits fun _ _ => rfl
    have hop : (N.hear pkt).opLeft = N.opLeft := rfl
    rw [slack, slack, hwait, hlate, hop]
    simp [works]
  | @late ctl hl =>
    have hwait : waitLeft { N with inst := ⟨N.inst.lock, ctl⟩, late := none } = 0 := by
      refine waitLeft_of_not fun n hn => ?_
      exact absurd ((hN.late ctl hl).2.symm.trans hn) (by simp)
    rw [slack, slack, hwait, hl]
    show 1 + (0 + N.opLeft + 0) ≤ 1 + N.opLeft + N.waitLeft
    omega

/-- While `adquire_lock` is at work, no beacon thread is stopped. -/
lemma Does.running (hbusy : ∀ n, N.op = some n → (N.ready n).threads.api.Returning)
    (hd : N.Does e N' sent) (n : Name) :
    (N'.ready n).threads.res.running = (N.ready n).threads.res.running := by
  have hturn := hd.turn n
  generalize N'.ready n = R' at hturn
  cases hturn with
  | stays => rfl
  | recount => exact Inst.recount_running
  | store he hop hR hR' => rw [threads_of_store hR hR']
  | api he hop hR =>
    obtain ⟨-, T, hT, rfl⟩ := Readiness.step_tick_inv hR
    exact (Threads.returning_step (hbusy n hop) hT).2.2
  | ready he hp hR =>
    rcases threads_of_ready hR with heq | ⟨t, rfl, hT⟩
    · rw [heq]
    · simp only [permits, Bool.and_eq_true, Bool.not_eq_true'] at hp
      rw [(Threads.res_of_not_api hp.1 hT).1]

/-- The calling thread is in the operations of `adquire_lock` only. -/
lemma Does.returning {scope : Option Name} (hacq : N.inst.Acquiring scope)
    (hbusy : ∀ n, N.op = some n → (N.ready n).threads.api.Returning)
    (hd : N.Does e N' sent) (n : Name) (hop' : N'.op = some n) :
    (N'.ready n).threads.api.Returning := by
  cases hd with
  | own hop => exact absurd (hop'.symm.trans hop) (by simp)
  | @store res a op R R' I l hop hnext hmem ha hR hR' hr =>
    obtain rfl : res = n := Option.some.inj hop'
    dsimp only
    rw [Function.update_self, threads_of_store hR hR']
    exact op_of_acquiring hacq hnext ha
  | @api res R hop hR =>
    have hfree : R.threads.api.isFree ≠ true := fun hfree => by simp [hfree] at hop'
    obtain rfl : res = n := Option.some.inj ((if_neg hfree).symm.trans hop')
    dsimp only
    rw [Function.update_self]
    obtain ⟨-, T, hT, rfl⟩ := Readiness.step_tick_inv hR
    exact (Threads.returning_step (hbusy res hop) hT).1 (by simpa using hfree)
  | @ready res e R hp hR =>
    have hapi : (Function.update N.ready res R n).threads.api = (N.ready n).threads.api := by
      rcases eq_or_ne n res with rfl | hne
      · rw [Function.update_self, api_of_ready hp hR]
      · rw [Function.update_of_ne hne]
    dsimp only
    rw [hapi]
    exact hbusy n hop'
  | deliver pkt => exact hbusy n hop'
  | late hl => exact hbusy n hop'

/-- What a step is for the instance without its threads. -/
lemma Does.shown {scope : Option Name} (hw : N.Waits) (hacq : N.inst.Acquiring scope)
    (hd : N.Does e N' sent) (he : e ≠ .late) :
    (N.shown e).elim (N'.inst = N.inst) fun e' => ∃ l, N.inst.step e' = some (N'.inst, l) := by
  cases hd with
  | own hop ht hs => exact ⟨_, hs⟩
  | store hop hn hmem ha hR hR' hr => exact ⟨_, hr⟩
  | @api res R hop hR =>
    show (if _ then N.stopped res else N.inst) = N.inst
    rw [stopped_of_acquiring hacq, ite_self]
  | @ready res e R hp hR =>
    dsimp only [Node.shown]
    rw [hR, Option.bind_some]
    split_ifs with hwake
    · have hasleep : (N.ready res).wait = .asleep := by
        simp only [wakes, Bool.and_eq_true, decide_eq_true_eq] at hwake
        exact hwake.1
      obtain ⟨scope, retry, rest, hctl⟩ :=
        Inst.waitsOn_startedCv.mp (hw.wait res (by simp [hasleep])).2
      exact ⟨[], by rw [Inst.step, Inst.onWake, hctl]; rfl⟩
    · rfl
  | deliver pkt => exact ⟨_, rfl⟩
  | late => exact absurd rfl he

end Node

/-! ### A call with its threads -/

/-- A call of `acquire` at work, with the counts of `Bout` and that of the steps (`Node.works`). -/
structure Try where
  node : Node
  passes : ℕ
  interrupted : ℕ
  moves : ℕ
  works : ℕ

/-- By its timeout the listening leads to the loop that announces. -/
def Ctl.announces : Ctl → Bool
  | .adquire _ _ (.announcing _) => true
  | _ => false

namespace Try

/-- The call without its threads. -/
def bout (T : Try) : Bout := ⟨T.node.inst, T.passes, T.interrupted, T.moves⟩

/-- The call after a step to `N`.  A listening that has been notified, but returns by its timeout,
has not been interrupted. -/
def next (T : Try) (e : NodeEvent) (N : Node) : Try where
  node := N
  passes := T.passes + ((T.node.shown e).any T.node.inst.startsPass).toNat
  interrupted := T.interrupted + ((T.node.shown e).any T.node.inst.cutsListening).toNat -
    (decide (e = .late) && T.node.late.any Ctl.announces).toNat
  moves := T.moves + ((T.node.shown e).any T.node.inst.movesThread).toNat
  works := T.works + (T.node.works e).toNat

/-- One step of the call. -/
def step (T : Try) (e : NodeEvent) : Option Try :=
  (T.node.proceed e).map (T.next e)

end Try

/-- The call gets there without its threads as well. -/
def Reaches (I₁ : Inst) (s : Bout) : Prop :=
  ∃ es, Run Bout.step (fun _ e => e.isCall = false) ⟨I₁, 0, 0, 0⟩ es s

section Reaches

variable {I₁ I' : Inst} {s s' : Bout} {e : Event} {l : List DLPacket} {scope : Option Name}

lemma Reaches.step (h : Reaches I₁ s) (he : e.isCall = false) (hs : s.step e = some s') :
    Reaches I₁ s' := by
  obtain ⟨es, hrun⟩ := h
  exact ⟨es ++ [e], hrun.append (.cons he hs (.nil _))⟩

lemma Bout.step_eq (hs : s.inst.step e = some (I', l)) :
    s.step e = some ⟨I', s.passes + (s.inst.startsPass e).toNat,
      s.interrupted + (s.inst.cutsListening e).toNat,
      s.moves + (s.inst.movesThread e).toNat⟩ := by
  rw [Bout.step, hs]
  rfl

lemma Reaches.acquiring (h : Reaches I₁ s) (hacq : I₁.Acquiring scope) (hbegun : I₁.Begun) :
    s.inst.Acquiring scope ∧ s.inst.Begun := by
  obtain ⟨es, hrun⟩ := h
  refine hrun.invariant (I := fun s => s.inst.Acquiring scope ∧ s.inst.Begun) ?_ ⟨hacq, hbegun⟩
  rintro t e t' ⟨ha, hb⟩ he hst
  obtain ⟨⟨I', l⟩, hs, rfl⟩ := Option.map_eq_some_iff.mp hst
  exact ⟨Inst.acquiring_step he ha hs, Inst.begun_step hb he hs⟩

/-- A thread that does not wait is not moved by a packet. -/
lemma Reaches.heard {L : Lock} {ctl : Ctl} {p i m : ℕ} (pkt : DLPacket)
    (h : Reaches I₁ ⟨⟨L, ctl⟩, p, i, m⟩) (hw : (⟨L, ctl⟩ : Inst).waitsOn = none) :
    Reaches I₁ ⟨⟨((⟨L, ctl⟩ : Inst).hear pkt).lock, ctl⟩, p, i, m⟩ := by
  have hs : (⟨L, ctl⟩ : Inst).step (.deliver pkt) =
      some (⟨((⟨L, ctl⟩ : Inst).hear pkt).lock, ctl⟩, []) := by
    rw [Inst.step, Node.actionPerformed_of_busy hw]
  have hnot : ¬ (⟨L, ctl⟩ : Inst).Interrupts pkt := by
    rintro ⟨-, R, -, hR⟩
    rw [Inst.waitsOn] at hw
    rw [Inst.heeds] at hR
    split at hR
    · next hctl =>
      obtain rfl := hctl
      cases hw
    · next hctl =>
      obtain rfl := hctl
      cases hw
    · cases hR
  have hcut : (⟨L, ctl⟩ : Inst).cutsListening (.deliver pkt) = false := by
    rw [Inst.cutsListening]
    split
    · exact decide_eq_false hnot
    · rfl
  have hmove : (⟨L, ctl⟩ : Inst).movesThread (.deliver pkt) = false := by
    simpa [Inst.movesThread, Inst.Wakes] using hnot
  have hstart : (⟨L, ctl⟩ : Inst).startsPass (.deliver pkt) = false := rfl
  have hst := Bout.step_eq (s := ⟨⟨L, ctl⟩, p, i, m⟩) hs
  rw [hcut, hmove, hstart] at hst
  exact h.step rfl hst

end Reaches

namespace Try

variable {I₁ : Inst} {T T' : Try} {e : NodeEvent} {scope : Option Name} {res n : Name}

/-- What holds of a call of `acquire(res)` at work.  Only `acquire()` waits for beacon threads. -/
structure Sound (I₁ : Inst) (res : Name) (T : Try) : Prop where
  node : T.node.Sound
  waits : T.node.Waits
  here : Reaches I₁ T.bout
  late : ∀ ctl ∈ T.node.late, Reaches I₁ ⟨⟨T.node.inst.lock, ctl⟩, T.passes,
    T.interrupted - ctl.announces.toNat, T.moves⟩
  busy : ∀ n, T.node.op = some n → (T.node.ready n).threads.api.Returning
  awake : res = [] → ∀ n, (T.node.ready n).threads.Awake ∧
    (T.node.ready n).threads.res.running = true
  works : T.works + T.node.slack ≤ 16 * T.moves

/-- The guard of the steps: no call, and for `acquire()` the beacon threads are not kept from their
work. -/
def Ok (res : Name) (T : Try) (e : NodeEvent) : Prop :=
  e.isCall = false ∧ T.node.Allows Threads.Punctual (fun _ => res = []) e

/-- The step does not interrupt the listening. -/
def Uncut (T : Try) (e : NodeEvent) : Prop :=
  (T.node.shown e).any T.node.inst.cutsListening = false

instance (res : Name) (T : Try) (e : NodeEvent) : Decidable (T.Ok res e) :=
  inferInstanceAs (Decidable (_ ∧ _))

/-- What is known of the call when it begins. -/
structure Begins (scope : Option Name) (res : Name) (I₁ : Inst) : Prop where
  acquiring : I₁.Acquiring scope
  begun : I₁.Begun
  all : scope = none → res = []

lemma Sound.acquiring (h : T.Sound I₁ res) (h₁ : Begins scope res I₁) :
    T.node.inst.Acquiring scope := (h.here.acquiring h₁.acquiring h₁.begun).1

/-- Only `acquire()` waits for a beacon thread, which is at work then. -/
lemma Sound.not_stuck (h : T.Sound I₁ res) (h₁ : Begins scope res I₁)
    (hw : (T.node.ready n).wait = .asleep) : res = [] ∧ ¬ (T.node.ready n).Stuck := by
  obtain ⟨scope', retry, rest, hctl⟩ :=
    Inst.waitsOn_startedCv.mp (h.waits.wait n (by simp [hw])).2
  have hres : res = [] := by
    refine h₁.all ?_
    have hacq := h.acquiring h₁
    rw [Inst.Acquiring, hctl] at hacq
    obtain ⟨rfl, -, -⟩ := hacq
    cases scope' with
    | none => rfl
    | some r =>
      have hpc := (h.here.acquiring h₁.acquiring h₁.begun).2 r retry _ hctl
      exact absurd hpc (by simp [Pc.begun])
  obtain ⟨hawake, hr⟩ := h.awake hres n
  have hs := h.node.ready n
  have hapi : ¬ (T.node.ready n).threads.api.InSetState := by
    rw [hs.wait (by simp [hw])]
    exact fun hin => hin
  refine ⟨hres, ?_⟩
  rintro (hb | hb | hb)
  · exact absurd (hawake.idle_of_parked hapi (.inl hb)) (by simp [hs.starting hw])
  · exact absurd (hawake.idle_of_parked hapi (.inr hb)) (by simp [hs.starting hw])
  · exact absurd (hr.symm.trans (hawake.ended hb)) (by simp)

lemma Sound.at_work (h : T.Sound I₁ res) (h₁ : Begins scope res I₁) (hok : T.Ok res e)
    {N : Node} {sent : List DLPacket} (hd : T.node.Does e N sent)
    (hw : (T.node.ready n).wait = .asleep) :
    ¬ (T.node.ready n).Stuck ∧ e ≠ .ready n (.tick .spurious) := by
  obtain ⟨hres, hstuck⟩ := h.not_stuck h₁ hw
  refine ⟨hstuck, ?_⟩
  rintro rfl
  have hpunctual := hok.2 hres
  cases hd with
  | @ready _ _ R hp hR =>
    obtain ⟨-, T₁, hT, -⟩ := Readiness.step_tick_inv hR
    cases Threads.effect_step hT with
    | move hm =>
      cases hm with
      | unpark hb => exact hstuck (.inr (.inl hb))
      | abandon hb =>
        exact absurd ((h.awake hres n).2.symm.trans (hpunctual hb)) (by simp)

lemma shown_not_call (hcall : e.isCall = false) {N : Node} {e' : Event}
    (h : N.shown e = some e') : e'.isCall = false := by
  cases e with
  | own e₀ =>
    obtain rfl := Option.some.inj h
    exact hcall
  | store | deliver =>
    obtain rfl := Option.some.inj h
    rfl
  | ready r e₀ =>
    obtain ⟨R, -, hR⟩ := Option.bind_eq_some_iff.mp h
    split_ifs at hR
    obtain rfl := Option.some.inj hR
    rfl
  | api | late => cases h

lemma here_step (h₁ : Begins scope res I₁) (h : T.Sound I₁ res) (hok : T.Ok res e) {N : Node}
    {sent : List DLPacket} (hd : T.node.Does e N sent) : Reaches I₁ (T.next e N).bout := by
  by_cases he : e = .late
  · subst he
    cases hd with
    | @late ctl hl =>
      have := h.late ctl hl
      simp only [bout, next, Node.shown, Option.any_none, Bool.toNat_false, Nat.add_zero,
        decide_true, Bool.true_and, hl, Option.any_some]
      exact this
  · have hshown := hd.shown h.waits (h.acquiring h₁) he
    cases hsh : T.node.shown e with
    | none =>
      rw [hsh] at hshown
      have hsame : (T.next e N).bout = T.bout := by
        simp only [bout, next, hsh, Option.any_none, Bool.toNat_false, Nat.add_zero, he,
          decide_false, Bool.false_and, Nat.sub_zero]
        rw [show N.inst = T.node.inst from hshown]
      rw [hsame]
      exact h.here
    | some e' =>
      rw [hsh] at hshown
      obtain ⟨l, hs⟩ := hshown
      have hstep := h.here.step (shown_not_call hok.1 hsh) (Bout.step_eq (s := T.bout) hs)
      simpa [bout, next, hsh, he] using hstep

/-- A listening that has been interrupted would have led to the loop that announces. -/
lemma cutsListening_eq {I I' : Inst} {pkt : DLPacket} (ht : I.onTimeout = some I')
    (hint : I.Interrupts pkt) : I.cutsListening (.deliver pkt) = I'.ctl.announces := by
  rw [Inst.onTimeout] at ht
  rw [Inst.cutsListening]
  split at ht <;> simp only [Option.some.injEq, reduceCtorEq] at ht <;> subst ht
  · next hctl =>
    rw [hctl]
    exact decide_eq_true hint
  all_goals
    next hctl =>
      rw [hctl]
      rfl

/-- A wait that has just been notified might have run into its timeout before the packet. -/
lemma late_hear (h₁ : Begins scope res I₁) (h : T.Sound I₁ res) (pkt : DLPacket) {ctl : Ctl}
    (hctl : (T.node.hear pkt).late = some ctl) :
    Reaches I₁ ⟨⟨(T.node.hear pkt).inst.lock, ctl⟩,
      (T.next (.deliver pkt) (T.node.hear pkt)).passes,
      (T.next (.deliver pkt) (T.node.hear pkt)).interrupted - ctl.announces.toNat,
      (T.next (.deliver pkt) (T.node.hear pkt)).moves⟩ := by
  have hlock : (T.node.hear pkt).inst.lock = (T.node.inst.hear pkt).lock :=
    Inst.actionPerformed_lock
  have hstart : T.node.inst.startsPass (.deliver pkt) = false := rfl
  have hmove : T.node.inst.movesThread (.deliver pkt) = decide (T.node.inst.Interrupts pkt) := by
    simp [Inst.movesThread, Inst.Wakes]
  simp only [next, Node.shown, Option.any_some, hstart, hmove, reduceCtorEq, decide_false,
    Bool.false_and, Bool.toNat_false, Nat.sub_zero, Nat.add_zero]
  rw [hlock]
  have hheard : ((⟨T.node.inst.lock, ctl⟩ : Inst).hear pkt).lock = (T.node.inst.hear pkt).lock := by
    rw [Inst.hear_of_ctl]
  rw [← hheard]
  by_cases hint : T.node.inst.Interrupts pkt
  · have hchange := Node.actionPerformed_of_interrupts hint
    obtain ⟨I, hI, rfl⟩ := Option.map_eq_some_iff.mp ((if_neg hchange).symm.trans hctl)
    have hs : T.bout.inst.step .timeout = some (I, []) := by
      rw [Inst.step, show T.bout.inst = T.node.inst from rfl, hI]
      rfl
    have hthere := h.here.step rfl (Bout.step_eq hs)
    have hsame : (⟨T.node.inst.lock, I.ctl⟩ : Inst) = I := by rw [← Inst.onTimeout_lock hI]
    have hcut : T.node.inst.cutsListening .timeout = false := by
      rw [Inst.cutsListening]
      split <;> rfl
    have hmoves : T.node.inst.movesThread .timeout = true := by simp [Inst.movesThread]
    rw [show T.bout.inst = T.node.inst from rfl, hcut, hmoves] at hthere
    rw [cutsListening_eq hI hint, Nat.add_sub_cancel, decide_eq_true hint]
    refine Reaches.heard pkt ?_ (by rw [hsame]; exact Node.waitsOn_of_onTimeout hI)
    rw [hsame]
    exact hthere
  · have hsame : (T.node.inst.actionPerformed pkt).ctl = T.node.inst.ctl :=
      Node.actionPerformed_of_still (h.acquiring h₁) (by rw [hmove]; exact decide_eq_false hint)
    have hlate : T.node.late = some ctl := (if_pos hsame).symm.trans hctl
    have hcut : T.node.inst.cutsListening (.deliver pkt) = false := by
      rw [Inst.cutsListening]
      split
      · exact decide_eq_false hint
      · rfl
    rw [hcut, decide_eq_false hint]
    exact Reaches.heard pkt (h.late ctl hlate) (h.node.late ctl hlate).2

/-- **Every step of a call keeps the invariant.** -/
theorem sound_step (h₁ : Begins scope res I₁) (h : T.Sound I₁ res) (hok : T.Ok res e)
    (hs : T.step e = some T') : T'.Sound I₁ res := by
  obtain ⟨N, hN, rfl⟩ := Option.map_eq_some_iff.mp hs
  obtain ⟨sent, hd⟩ := Node.proceed_eq hN
  have hacq := h.acquiring h₁
  exact {
    node := hd.sound h.node
    waits := hd.waits h.node h.waits
    here := here_step h₁ h hok hd
    late := by
      cases hd with
      | own | store | api | late => exact fun ctl hctl => by cases hctl
      | @ready r e R hp hR =>
        intro ctl hctl
        by_cases hwake : T.node.wakes r R = true
        · simp [next, hwake] at hctl
        · have hshown : T.node.shown (.ready r e) = none := by
            rw [Node.shown, hR, Option.bind_some, if_neg hwake]
          simp only [next, hwake, Bool.false_eq_true, if_false] at hctl
          simpa [next, hshown, hwake] using h.late ctl hctl
      | deliver pkt => exact fun ctl hctl => late_hear h₁ h pkt hctl
    busy := hd.returning hacq h.busy
    awake := fun hres n => by
      refine ⟨?_, (hd.running h.busy n).trans (h.awake hres n).2⟩
      have hthreads : (N.ready n).threads.Sound ∧ (N.ready n).threads.Awake := by
        refine hd.threads (Q := fun T => T.Sound ∧ T.Awake) hok.2 hres
          (fun c _ hQ => ⟨hQ.1.recount, hQ.2.recount⟩) (fun _ _ => trivial) ?_ ?_
          ⟨(h.node.ready n).threads, (h.awake hres n).1⟩
        · intro T op hop hnotify
          rw [hop] at hnotify
          cases hnotify
        · intro T t T' hQ ht hst
          exact ⟨Threads.sound_step hQ.1 hst, Threads.awake_step hQ.2 hQ.1 ht hst⟩
      exact hthreads.2
    works := by
      show T.works + (T.node.works e).toNat + N.slack ≤
        16 * (T.moves + ((T.node.shown e).any T.node.inst.movesThread).toNat)
      have hle := h.works
      cases hmove : (T.node.shown e).any T.node.inst.movesThread with
      | true =>
        have hone := Bool.toNat_le (T.node.works e)
        have hslack := N.slack_le
        rw [Bool.toNat_true]
        omega
      | false =>
        have hslack := Node.slack_step h.node h.waits hacq h.busy
          (fun n hw => h.at_work h₁ hok hd hw) hok.1 hd hmove
        rw [Bool.toNat_false]
        omega }

/-! ### There is always a step to take -/

lemma uncut_of_not_wakes (e' : Event) (hsh : ∀ e₀ ∈ T.node.shown e, e₀ = e')
    (hw : ¬ T.node.inst.Wakes e') : T.Uncut e := by
  have hcut : T.node.inst.cutsListening e' = false := by
    rw [Inst.cutsListening]
    split
    · exact decide_eq_false hw
    · rfl
  rw [Uncut]
  cases h : T.node.shown e with
  | none => rfl
  | some e₀ => rw [hsh e₀ h, Option.any_some, hcut]

lemma uncut_of_waits (hw : T.node.inst.waitsOn = some (.startedCv n)) : T.Uncut e := by
  obtain ⟨scope, retry, rest, hctl⟩ := Inst.waitsOn_startedCv.mp hw
  rw [Uncut]
  cases T.node.shown e with
  | none => rfl
  | some e₀ => rw [Option.any_some, Inst.cutsListening, hctl]

/-- In an operation: its next step, or the one of the beacon thread before the notification. -/
lemma exists_of_op (h : T.Sound I₁ res) (hop : T.node.op = some n) :
    ∃ e, T.Ok res e ∧ T.node.works e = true ∧ T.Uncut e ∧ (T.node.step e).isSome = true := by
  have hout : (T.node.ready n).wait = .outside := by
    by_contra hw
    exact absurd (hop.symm.trans (h.waits.wait n hw).1) (by simp)
  by_cases hmiss : (T.node.ready n).threads.Misses
  · refine ⟨.ready n (.tick .beacon), ⟨rfl, fun _ => trivial⟩, by simp [Node.works, hop, hmiss,
      ReadyEvent.ofBeacon], ?_⟩
    have hdue : (T.node.ready n).due = false := by
      rw [Bool.eq_false_iff]
      intro hdue
      exact absurd ((h.node.ready n).due hdue) (by simp [hmiss.1])
    have hblocks : ¬ (T.node.ready n).Blocks .beacon := by
      simp [Readiness.Blocks, Tick.ofApi, hdue]
    have hpermits : T.node.permits n (.tick .beacon) = true := by
      simp [Node.permits, Tick.ofApi, Lock.isSome_getResource, (h.node.busy n hop).1]
    have hshown : T.node.shown (.ready n (.tick .beacon)) = none := by
      simp [Node.shown, Node.wakes, hout]
    refine ⟨uncut_of_not_wakes .run (by simp [hshown]) id, ?_⟩
    simp only [Node.step, hpermits, if_true, Readiness.step, if_neg hblocks, Threads.step,
      Threads.runBeacon, hmiss.1, Option.map_some, Option.isSome_some]
  · refine ⟨.api, ⟨rfl, ?_⟩, rfl, ?_⟩
    · rintro m hm - - hidle hb
      obtain rfl := Option.some.inj (hop.symm.trans hm)
      exact hmiss ⟨hb, hidle⟩
    · have hblocks : ¬ (T.node.ready n).Blocks .api := by simp [Readiness.Blocks, hout]
      obtain ⟨T', hT'⟩ :=
        Option.isSome_iff_exists.mp (Threads.isSome_step_of_returning (h.busy n hop))
      refine ⟨rfl, ?_⟩
      simp only [Node.step, Node.api, hop, Option.bind_some, Readiness.step, if_neg hblocks, hT',
        Option.map_some, Option.isSome_some]

/-- The calling thread does not wait. -/
lemma exists_of_run (h₁ : Begins scope res I₁) (h : T.Sound I₁ res) (hop : T.node.op = none)
    (hrun : T.node.inst.run ≠ none) :
    ∃ e, T.Ok res e ∧ T.node.works e = true ∧ T.Uncut e ∧ (T.node.step e).isSome = true := by
  have hacq := h.acquiring h₁
  obtain ⟨s, hs⟩ := Option.ne_none_iff_exists'.mp hrun
  cases hnext : T.node.inst.next with
  | none =>
    have htakes : T.node.takes .run = true := by rw [Node.takes, hnext]
    refine ⟨.own .run, ⟨rfl, trivial⟩, rfl, uncut_of_not_wakes .run (by simp [Node.shown])
      id, ?_⟩
    simp [Node.step, hop, htakes, Inst.step, hs]
  | some due =>
    obtain ⟨r, a⟩ := due
    obtain ⟨htarget, hstop⟩ := Inst.mem_targets_of_next hacq hnext
    have hmem : r ∈ T.node.inst.lock.names := by
      cases hctl : T.node.inst.ctl with
      | adquire scope' retry pc =>
        rw [Inst.Acquiring, hctl] at hacq
        exact hacq.2.1 r htarget
      | free b => rw [Inst.next, hctl] at hnext; cases hnext
      | _ => rw [Inst.Acquiring, hctl] at hacq; exact hacq.elim
    obtain ⟨op, ha⟩ : ∃ op, a.op = some op := by
      cases a with
      | setState s => cases s <;> exact ⟨_, rfl⟩
      | reset => exact ⟨_, rfl⟩
      | stop => exact absurd rfl hstop
    have hout : (T.node.ready r).wait = .outside :=
      h.waits.outside (fun m hm => hrun (Node.run_of_waitsOn hm)) r
    obtain ⟨last, hlast⟩ : ∃ last, (T.node.ready r).threads.api = .free last := by
      have hfree := h.node.free r (by simp [hop])
      cases hapi : (T.node.ready r).threads.api with
      | free last => exact ⟨last, rfl⟩
      | _ => rw [hapi] at hfree; cases hfree
    refine ⟨.store, ⟨rfl, trivial⟩, rfl, uncut_of_not_wakes .run (by simp [Node.shown]) id,
      ?_⟩
    have hget : T.node.inst.lock.getResource r ≠ none := by
      rw [Option.ne_none_iff_exists']
      exact Lock.mem_names_iff.mp hmem
    simp [Node.step, Node.store, hop, hnext, hget, ha, hs, Readiness.step, Readiness.Blocks, hout,
      Threads.step, hlast, Threads.runApi]

/-- The calling thread waits in `waitForReady`. -/
lemma exists_of_waits (h₁ : Begins scope res I₁) (h : T.Sound I₁ res) (hop : T.node.op = none)
    (hmem : n ∈ T.node.inst.lock.names) (hw : T.node.inst.waitsOn = some (.startedCv n)) :
    ∃ e, T.Ok res e ∧ T.node.works e = true ∧ T.Uncut e ∧ (T.node.step e).isSome = true := by
  have hapi : (T.node.ready n).threads.api = .free (some (.setState .starting)) :=
    ((h.waits.starting n hw).resolve_left fun hend => by simp [hop] at hend).2
  cases hwait : (T.node.ready n).wait with
  | outside =>
    refine ⟨.ready n .enter, ⟨rfl, trivial⟩, rfl, uncut_of_waits hw, ?_⟩
    simp [Node.step, Node.permits, hop, hw, Readiness.step, hwait, hapi]
  | entering =>
    refine ⟨.ready n .sleep, ⟨rfl, trivial⟩, rfl, uncut_of_waits hw, ?_⟩
    simp [Node.step, Node.permits, hop, hw, Readiness.step, hwait]
  | asleep =>
    obtain ⟨e, he, hs⟩ := Readiness.enabled_of_not_stuck (h.not_stuck h₁ hwait).2
    obtain ⟨R, hR⟩ := Option.isSome_iff_exists.mp hs
    have hpermits : T.node.permits n e = true := by
      cases e with
      | tick t =>
        cases t with
        | beacon | timeout => simp [Node.permits, Tick.ofApi, Lock.isSome_getResource, hmem]
        | call | api | spurious => cases he
      | notify => simp [Node.permits, Lock.isSome_getResource, hmem]
      | enter | sleep | spurious => cases he
    have hallows : T.node.Allows Threads.Punctual (fun _ => res = []) (.ready n e) := by
      cases e with
      | tick t =>
        cases t with
        | beacon | timeout => exact fun _ => trivial
        | call | api | spurious => cases he
      | notify | enter | sleep | spurious => trivial
    refine ⟨.ready n e, ⟨rfl, hallows⟩, by simp [Node.works, he, hwait], uncut_of_waits hw, ?_⟩
    simp [Node.step, hpermits, hR]

/-- As long as the function has not returned, one of the steps can be taken. -/
lemma exists_step (h₁ : Begins scope res I₁) (h : T.Sound I₁ res)
    (hfree : ∀ b, T.node.inst.ctl ≠ .free b) :
    ∃ e, T.Ok res e ∧ T.node.works e = true ∧ T.Uncut e ∧ (T.node.step e).isSome = true := by
  cases hop : T.node.op with
  | some n => exact exists_of_op h hop
  | none =>
    rcases Inst.canMove_or_waits (h.acquiring h₁) hfree with (hrun | ht) | ⟨r, hr, hw⟩
    · exact exists_of_run h₁ h hop hrun
    · obtain ⟨I, hI⟩ := Option.ne_none_iff_exists'.mp ht
      refine ⟨.own .timeout, ⟨rfl, trivial⟩, rfl, uncut_of_not_wakes .timeout
        (by simp [Node.shown]) id, ?_⟩
      simp [Node.step, hop, Node.takes, Inst.step, hI]
    · exact exists_of_waits h₁ h hop hr hw

end Try

/-! ### Every call returns -/

section

variable {N₀ N₁ : Node} {res : Name} {es₀ es : List NodeEvent} {T : Try} {id : UInt32}
  {beaconTime : UInt64}

/-- The invariant holds when the function has been called. -/
lemma Try.sound_start (hrun₀ : Run Node.proceed
      (fun N e => N.Allows Threads.Punctual (fun _ => res = []) e) (.new id beaconTime) es₀ N₀)
    (hready : res = [] → ∀ r, (N₀.ready r).threads.res.running = true)
    (hcall : N₀.proceed (.own (.call (.acquire res))) = some N₁) :
    N₁.inst = Inst.enter N₀.inst.lock (.acquire res) ∧
      Try.Sound N₁.inst res ⟨N₁, 0, 0, 0, 0⟩ := by
  -- what holds before the call
  have hinv : N₀.Sound ∧ N₀.Waits ∧ (res = [] → ∀ n, (N₀.ready n).threads.Awake) := by
    refine hrun₀.invariant (I := fun N => N.Sound ∧ N.Waits ∧
      (res = [] → ∀ n, (N.ready n).threads.Awake)) ?_
      ⟨Node.sound_new id beaconTime, Node.waits_new id beaconTime,
        fun _ n => Threads.awake_new id n⟩
    rintro N e N' ⟨hN, hw, ha⟩ hok hs
    obtain ⟨sent, hd⟩ := Node.proceed_eq hs
    refine ⟨hd.sound hN, hd.waits hN hw, fun hres n => ?_⟩
    have hthreads : (N'.ready n).threads.Sound ∧ (N'.ready n).threads.Awake := by
      refine hd.threads (Q := fun T => T.Sound ∧ T.Awake) hok hres
        (fun c _ hQ => ⟨hQ.1.recount, hQ.2.recount⟩) (fun _ _ => trivial) ?_ ?_
        ⟨(hN.ready n).threads, ha hres n⟩
      · intro T op hop hnotify
        rw [hop] at hnotify
        cases hnotify
      · intro T t T' hQ ht hst
        exact ⟨Threads.sound_step hQ.1 hst, Threads.awake_step hQ.2 hQ.1 ht hst⟩
    exact hthreads.2
  obtain ⟨hN, hw, ha⟩ := hinv
  obtain ⟨sent, hd⟩ := Node.proceed_eq hcall
  have hnode := hd.sound hN
  have hwaits := hd.waits hN hw
  cases hd with
  | @own _ I l hop ht hs =>
    obtain ⟨-, rfl, -⟩ := Inst.step_call hs
    have hrecount : N₀.recount (.call (.acquire res)) = N₀.ready := by
      funext r
      rw [Node.recount]
      dsimp only
      split_ifs <;> rfl
    refine ⟨rfl, hnode, hwaits, ⟨[], .nil _⟩, fun ctl hctl => (by cases hctl), ?_, ?_, ?_⟩
    · intro n hn
      exact absurd (hop.symm.trans hn) (by simp)
    · intro hres n
      dsimp only
      rw [hrecount]
      exact ⟨ha hres n, hready hres n⟩
    · set N₁ : Node := ⟨Inst.enter N₀.inst.lock (.acquire res), N₀.recount (.call (.acquire res)),
        N₀.op, none⟩ with hN₁
      have hopLeft : N₁.opLeft = 0 := Node.opLeft_of_none hop
      have hwaitLeft : N₁.waitLeft = 0 :=
        Node.waitLeft_of_not fun n => Node.waitsOn_of_own ht hs
      rw [Node.slack, hopLeft, hwaitLeft]
      exact Nat.le_refl 0

/-- **`acquire` returns.**  The number of its passes is bounded by that of the retries and that of
the listenings that have been interrupted.  Without an interruption it takes a bounded number of
steps, its own and those of the beacon threads for which `acquire()` waits; as long as it has not
returned, one of them can be taken. -/
theorem acquire_returns (hn : 0 < N₀.inst.lock.retryMax)
    (hrun₀ : Run Node.proceed (fun N e => N.Allows Threads.Punctual (fun _ => res = []) e)
      (.new id beaconTime) es₀ N₀)
    (hready : res = [] → ∀ r, (N₀.ready r).threads.res.running = true)
    (hcall : N₀.proceed (.own (.call (.acquire res))) = some N₁)
    (hrun : Run Try.step (Try.Ok res) ⟨N₁, 0, 0, 0, 0⟩ es T) :
    T.passes ≤ N₀.inst.lock.retryMax.toNat + T.interrupted ∧
    (∀ scope retry, T.node.inst.ctl = .adquire scope retry .loop →
      T.passes = N₀.inst.lock.retryMax.toNat →
      (T.node.inst.run = some (⟨T.node.inst.lock, .free (some false)⟩, []) ↔
        T.interrupted = 0)) ∧
    (T.interrupted = 0 →
      T.passes ≤ N₀.inst.lock.retryMax.toNat ∧ T.works ≤ 16 * N₀.inst.lock.moveBound res ∧
        ((∃ b, T.node.inst.ctl = .free (some b)) ∨
          ∃ e T', T.Ok res e ∧ T.node.works e = true ∧ T.step e = some T' ∧
            T'.interrupted = 0)) := by
  obtain ⟨hinst, hstart⟩ := Try.sound_start hrun₀ hready hcall
  obtain ⟨scope, hscope, hacq, hbegun⟩ := Inst.acquiring_of_enter N₀.inst.lock res
  have h₁ : Try.Begins scope res N₁.inst := by
    rw [hinst]
    exact ⟨hacq, hbegun, hscope⟩
  have h : T.Sound N₁.inst res :=
    hrun.invariant (fun _ _ _ h hok hs => Try.sound_step h₁ h hok hs) hstart
  obtain ⟨es', hbout⟩ := h.here
  have hinstcall : N₀.inst.step (.call (.acquire res)) = some (N₁.inst, []) := by
    obtain ⟨sent, hd⟩ := Node.proceed_eq hcall
    cases hd with
    | own hop ht hs =>
      obtain ⟨-, -, rfl⟩ := Inst.step_call hs
      exact hs
  obtain ⟨hp, hhead, hend⟩ := passes_bounded hn hinstcall hbout
  refine ⟨hp, hhead, fun hi => ?_⟩
  obtain ⟨hpasses, hmoves⟩ := hend hi
  refine ⟨hpasses, ?_, ?_⟩
  · have hworks := h.works
    have : T.moves ≤ N₀.inst.lock.moveBound res := hmoves
    omega
  · by_cases hfree : ∃ b, T.node.inst.ctl = .free b
    · obtain ⟨b, hctl⟩ := hfree
      cases b with
      | some b => exact .inl ⟨b, hctl⟩
      | none =>
        have ha := h.acquiring h₁
        rw [Inst.Acquiring, hctl] at ha
        exact ha.elim
    · obtain ⟨e, hok, hwork, huncut, hs⟩ := Try.exists_step h₁ h fun b hctl => hfree ⟨b, hctl⟩
      obtain ⟨⟨N, sent⟩, hN⟩ := Option.isSome_iff_exists.mp hs
      have hproceed : T.node.proceed e = some N := by rw [Node.proceed, hN]; rfl
      refine .inr ⟨e, T.next e N, hok, hwork, by rw [Try.step, hproceed]; rfl, ?_⟩
      show T.interrupted + ((T.node.shown e).any T.node.inst.cutsListening).toNat - _ = 0
      rw [hi, huncut]
      exact Nat.zero_sub _

end

/-- A new instance with the resource `a` that may try once. -/
def oneTryNode : Node :=
  { Node.new 1 50 with
    inst := oneTry
    ready := (Node.new 1 50).recount (.call (.defineResource [97] 1)) }

/-- `acquire()` waits for the beacon thread; then it is disturbed in the collision wait. -/
def disturbed : List NodeEvent :=
  [.store, .api, .api, .api, .ready [97] .enter, .ready [97] .sleep, .ready [97] (.tick .beacon),
    .ready [97] .notify, .own .run, .own .run, .store, .api, .api, .api, .own .run, .own .timeout,
    .store, .api, .api, .api, .own .run,
    .deliver (((DLPacket.new State.acquiring.toByte 2).setResource [97]).setCount 1),
    .store, .api, .api, .api, .api, .own .run, .own .run, .own .timeout, .own .run]

/-- The only attempt fails, and the function returns. -/
theorem acquire_returns_disturbed :
    ∃ N₁ T, oneTryNode.proceed (.own (.call (.acquire []))) = some N₁ ∧
      Run Try.step (Try.Ok []) ⟨N₁, 0, 0, 0, 0⟩ disturbed T ∧
      T.node.inst.ctl = .free (some false) ∧ T.passes ≤ 1 ∧ T.works ≤ 288 := by
  have hrun₀ : Run Node.proceed (fun N e => N.Allows Threads.Punctual (fun _ => [] = ([] : Name)) e)
      (.new 1 50) [.own (.call (.defineResource [97] 1)), .own (.call (.setAdquireMaxRetry 1))]
      oneTryNode := .cons trivial rfl (.cons trivial rfl (.nil _))
  have hready : ∀ r, (oneTryNode.ready r).threads.res.running = true := by
    intro r
    show ((Node.new 1 50).recount (.call (.defineResource [97] 1)) r).threads.res.running = true
    rw [Node.recount]
    dsimp only
    split_ifs <;> rfl
  have hcall : oneTryNode.proceed (.own (.call (.acquire []))) =
      some { oneTryNode with inst := Inst.enter oneTry.lock (.acquire []) } := rfl
  have hexec : (Lib.exec Try.step (Try.Ok [])
      ⟨{ oneTryNode with inst := Inst.enter oneTry.lock (.acquire []) }, 0, 0, 0, 0⟩ disturbed).map
        (fun T => (T.node.inst.ctl, T.interrupted)) = some (.free (some false), 0) := by
    decide +kernel
  obtain ⟨T, hT, hend⟩ := Option.map_eq_some_iff.mp hexec
  obtain ⟨hctl, hi⟩ := Prod.mk.inj hend
  have hrun := Run.of_exec hT
  obtain ⟨hp, hworks, -⟩ :=
    (acquire_returns (by decide) hrun₀ (fun _ => hready) hcall hrun).2.2 hi
  exact ⟨_, T, hcall, hrun, hctl, hp, hworks⟩

end DistLock
