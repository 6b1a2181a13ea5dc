/-
The group as an instance of the admission protocol of `DistLock.Lib.Claim`.

For one resource `r` the group is seen as a configuration of the abstract protocol
(`Sys.view`).  Under the invariant `Sys.Sound`, a step of one instance that the timers allow and a
delivery are steps of the protocol (`Sys.step_view_act`, `Sys.step_view_deliver`).
-/
import DistLock.System.Effect

namespace DistLock

open Lib.Claim (Cfg Phase Stage Step)
open DLPacket (FitsWire)

/-- What a datagram says about the resource, with the time at which it was sent. -/
def Datagram.message (r : Name) (d : Datagram) : Option (ℕ × Phase) :=
  (DLPacket.ofPayload d.payload).bind fun p =>
    if p.resource = r then some (d.stamp, (State.ofByte p.state).phase) else none

/-- The call works on existing resources that satisfy `A` only, and does not change their
counts. -/
def Call.Within (A : Name → Prop) (L : Lock) : Call → Prop
  | defineResource _ _ => False
  | acquire [] | releaseAll => ∀ n ∈ L.names, A n
  | acquire res | release res | query _ res => A res ∧ res ∈ L.names
  | setAdquireMaxRetry _ => True

namespace Inst

variable {I I' : Inst} {L : Lock} {c : Call} {e : Event} {sent : List DLPacket}
  {A B : Name → Prop} {r n : Name} {p : DLPacket}

/-- The calling thread works on existing resources that satisfy `A` only. -/
def Busy (A : Name → Prop) (I : Inst) : Prop := I.On fun n => A n ∧ n ∈ I.lock.names

lemma on_mono (h : I.On A) (hAB : ∀ n, A n → B n) : I.On B := by
  unfold On at h ⊢
  split at h
  · trivial
  · exact fun r hr => hAB r (h r hr)
  · exact hAB _ h
  · exact fun r hr => hAB r (h r hr)
  · exact ⟨hAB _ h.1, fun r hr => hAB r (h.2 r hr)⟩

/-- Such a call leaves the resources as they are. -/
lemma getResource_within (h : c.Within A L) (n : Name) :
    (enter L c).lock.getResource n = L.getResource n := by
  rw [getResource_enter]
  split_ifs with hc
  · have hmem : n ∈ L.names ∧ ∀ R, recount c R = R := by
      cases c with
      | defineResource res count => exact h.elim
      | acquire res =>
        cases res with
        | nil => exact absurd hc (by simp [creates])
        | cons b bs => exact ⟨Option.some.inj hc ▸ h.2, fun _ => rfl⟩
      | query q res => exact ⟨Option.some.inj hc ▸ h.2, fun _ => rfl⟩
      | _ => exact absurd hc (by simp [creates])
    obtain ⟨R, hR⟩ := Lock.mem_names_iff.mp hmem.1
    rw [hR, hmem.2]
    rfl
  · rfl

lemma names_within (h : c.Within A L) : n ∈ (enter L c).lock.names ↔ n ∈ L.names := by
  rw [Lock.mem_names_iff, Lock.mem_names_iff, getResource_within h]

lemma busy_enter (h : c.Within A L) : (enter L c).Busy A := by
  have hn : ∀ {n}, n ∈ L.names → n ∈ (enter L c).lock.names := (names_within h).mpr
  rw [Busy]
  cases c with
  | defineResource res count => exact h.elim
  | acquire res =>
    cases res with
    | nil =>
      rw [enter] at hn ⊢
      split_ifs
      · trivial
      · exact fun r hr => ⟨h r hr, hr⟩
    | cons b bs =>
      intro r hr
      rw [List.mem_singleton.mp hr]
      exact ⟨h.1, hn h.2⟩
  | release res =>
    intro r hr
    rw [List.mem_singleton.mp hr]
    exact h
  | releaseAll => exact fun r hr => ⟨h r hr, hr⟩
  | query q res => exact ⟨h.1, hn h.2⟩
  | setAdquireMaxRetry n => trivial

lemma busy_step (h : I.Busy A) (he : ∀ c, e = .call c → c.Within A I.lock)
    (hs : I.step e = some (I', sent)) : I'.Busy A := by
  rcases step_call_or hs with ⟨c, rfl, -, rfl, -⟩ | hcall
  · exact busy_enter (he c rfl)
  · rw [Busy]
    rw [(frame_step hcall hs).names_eq]
    exact on_step hcall h hs

/-- The member table of a resource is left alone, or it is empty and no window is open. -/
lemma members_step {R' : Resource} (hd : ∀ p, e ≠ .deliver p)
    (he : ∀ c, e = .call c → c.Within A I.lock) (hs : I.step e = some (I', sent))
    (hR' : I'.lock.getResource r = some R') :
    ∃ R, I.lock.getResource r = some R ∧ R'.count = R.count ∧
      (R'.members = R.members ∨ R'.members = .empty ∧ I'.stage r = fun _ => .outside) := by
  rcases step_call_or hs with ⟨c, rfl, -, rfl, -⟩ | hcall
  · rw [getResource_within (he c rfl)] at hR'
    exact ⟨R', hR', rfl, .inl rfl⟩
  · rw [(frame_step hcall hs).resource] at hR'
    obtain ⟨R, hR, rfl⟩ := Option.map_eq_some_iff.mp hR'
    refine ⟨R, hR, change_count, ?_⟩
    cases e with
    | run =>
      rcases I.change_run_cases r R with h | ⟨a, ha, h⟩
      · exact .inl (by rw [h])
      · rw [h]
        cases a with
        | setState s => exact .inl rfl
        | stop => exact .inl rfl
        | reset =>
          refine .inr ⟨rfl, ?_⟩
          rw [next] at ha
          split at ha <;> simp only [Option.some.injEq, Prod.mk.injEq, reduceCtorEq,
            and_false] at ha
          next scope retry res rest hctl =>
            simp only [step, run, hctl] at hs
            obtain ⟨rfl, -⟩ := Prod.mk.inj (Option.some.inj hs)
            rfl
    | call c => exact absurd hcall (by simp [Event.isCall])
    | deliver p => exact absurd rfl (hd p)
    | _ => exact .inl rfl

/-! ### A delivery -/

lemma actionPerformed_stateOf (I : Inst) (p : DLPacket) (n : Name) :
    (I.actionPerformed p).lock.stateOf n = I.lock.stateOf n := by
  rw [actionPerformed_lock, Lock.stateOf, getResource_hear, Option.map_map, Lock.stateOf]
  congr 1
  funext R
  exact heardBy_state

lemma stage_hear (I : Inst) (p : DLPacket) : (I.hear p).stage r = I.stage r := by
  unfold stage
  rw [hear_ctl]
  split
  · rw [Lock.targets_congr hear_names]
  all_goals rfl

/-- A delivery at most ends the window. -/
lemma stage_actionPerformed (I : Inst) (p : DLPacket) :
    (I.actionPerformed p).stage r = I.stage r ∨
      (I.actionPerformed p).stage r = fun _ => .outside := by
  rcases I.actionPerformed_cases p with h | h
  · exact .inl (by rw [h, stage_hear])
  · exact .inr (stage_onWake h)

lemma colliding_of_waiting {o o' : ℕ} (h : I.stage r o = .waiting o') :
    ∃ scope retry, I.ctl = .adquire scope retry .colliding ∧ r ∈ I.lock.targets scope := by
  rw [stage] at h
  cases hctl : I.ctl with
  | adquire scope retry pc =>
    rw [hctl] at h
    cases pc with
    | colliding =>
      refine ⟨scope, retry, rfl, by_contra fun hmem => ?_⟩
      simp only [if_neg hmem] at h
      exact absurd h (by simp)
    | checking rest =>
      by_cases hmem : r ∈ rest <;> exact absurd h (by simp [hmem])
    | marking res rest =>
      by_cases hres : r = res <;> by_cases hmem : r ∈ rest <;> exact absurd h (by simp [hres, hmem])
    | _ => exact absurd h (by simp)
  | _ => exact absurd h (by simp [hctl])

/-- A claim that arrives in the collision wait ends it. -/
lemma stage_of_claim {R : Resource} {o o' : ℕ} (hc : I.Coherent) (hst : I.stage r o = .waiting o')
    (hR : I.addressee p = some R) (hres : p.resource = r)
    (hp : State.ofByte p.state = .acquiring) :
    (I.actionPerformed p).stage r = fun _ => .outside := by
  obtain ⟨scope, retry, hctl, hmem⟩ := colliding_of_waiting hst
  have hacq := hc _ _ _ hctl
  rw [Acquiring, hctl] at hacq
  have hgr : I.lock.getResource r = some R := by
    rw [addressee] at hR
    split_ifs at hR
    exact hres ▸ hR
  have hstate : R.state = .acquiring := by
    have hhas : I.lock.Has .acquiring r := hacq.2.2 r hmem
    rw [Lock.Has, Lock.stateOf, hgr] at hhas
    exact Option.some.inj hhas
  have hrec : (I.record R p).ctl = .adquire scope retry .colliding := by
    rw [record]
    split_ifs <;> exact hctl
  have hany : (I.record R p).notify .anyCv = I.record R p :=
    if_neg (by simp [waitsOn, hrec])
  have hlisten : (I.record R p).notify .listenCv = I.record R p :=
    if_neg (by simp [waitsOn, hrec])
  have hcv : (I.record R p).notify .cv =
      { I.record R p with
        ctl := .adquire scope retry (.resetting ((I.record R p).lock.targets scope)) } := by
    rw [notify, if_pos (by simp [waitsOn, hrec]), onWake, hrec]
    rfl
  rw [actionPerformed, hR]
  dsimp only
  rw [if_pos hp, if_pos (.inl hstate), hany, hlisten, hcv]
  rfl

/-! ### The invariant of one instance -/

/-- The calling thread keeps to `A` and leaves the other resources idle, the resource `r` has
the count `k`, and the instance is no member of its own table. -/
structure Sound (A : Name → Prop) (r : Name) (k : UInt32) (I : Inst) : Prop where
  named : I.lock.Named
  coherent : I.Coherent
  busy : I.Busy A
  idle : ∀ n R, I.lock.getResource n = some R → ¬ A n → R.state = .idle
  count : ∀ R, I.lock.getResource r = some R → R.count = k
  own : ∀ R, I.lock.getResource r = some R → R.members.find? I.lock.id = none

/-- **Every step of an instance keeps its invariant.** -/
theorem sound_step {k : UInt32} (h : I.Sound A r k)
    (he : ∀ c, e = .call c → c.Within A I.lock) (hs : I.step e = some (I', sent)) :
    I'.Sound A r k := by
  have hres : ∀ {n R'}, I'.lock.getResource n = some R' → ∃ R, I.lock.getResource n = some R ∧
      (R' = R ∨ e.isCall = false ∧ R' = I.change e n R) := by
    intro n R' hR'
    rcases step_call_or hs with ⟨c, rfl, -, rfl, -⟩ | hcall
    · rw [getResource_within (he c rfl)] at hR'
      exact ⟨R', hR', .inl rfl⟩
    · rw [(frame_step hcall hs).resource] at hR'
      obtain ⟨R, hR, rfl⟩ := Option.map_eq_some_iff.mp hR'
      exact ⟨R, hR, .inr ⟨hcall, rfl⟩⟩
  constructor
  · exact named_step h.named hs
  · exact coherent_step h.coherent hs
  · exact busy_step h.busy he hs
  · intro n R' hR' hn
    obtain ⟨R, hR, rfl | ⟨-, rfl⟩⟩ := hres hR'
    · exact h.idle n R' hR hn
    · rw [change_state fun _ a ha => absurd (on_next h.coherent h.busy ha).1 hn]
      exact h.idle n R hR hn
  · intro R' hR'
    obtain ⟨R, hR, rfl | ⟨-, rfl⟩⟩ := hres hR'
    · exact h.count R' hR
    · rw [change_count]
      exact h.count R hR
  · intro R' hR'
    rw [step_id hs]
    obtain ⟨R, hR, rfl | ⟨-, rfl⟩⟩ := hres hR'
    · exact h.own R' hR
    · exact change_own (h.own R hR)

end Inst

namespace Sys

variable {ι : Type*} [DecidableEq ι]

/-- The phases of the instances. -/
def phases (r : Name) (S : Sys ι) (i : ι) : Phase := (S.inst i).phase r

/-- The group as the admission protocol sees it, if `said` has been announced last. -/
def view (r : Name) (said : ι → Phase) (S : Sys ι) : Cfg ι where
  clock := S.clock
  phase := S.phases r
  said := said
  since i := S.since i r
  stage i := (S.inst i).stage r (S.opened i)
  chan j i := if j = i then [] else (S.chan j i).filterMap (Datagram.message r)
  heard i j := if i = j then none else (S.heard i j r).map fun m => (m.1, m.2.phase)

/-- The invariant of the group: nobody forges a packet, and within a window the member table
agrees with what has been heard. -/
structure Sound (A : Name → Prop) (r : Name) (k : UInt32) (S : Sys ι) : Prop where
  ids : Function.Injective fun i => (S.inst i).lock.id
  inst : ∀ i, (S.inst i).Sound A r k
  packets : ∀ j i, ∀ d ∈ S.chan j i, ∃ p : DLPacket, d.payload = p.build ∧ FitsWire p.resource ∧
    p.memberId = (S.inst j).lock.id ∧ (p.resource = r → p.count = k)
  chan_lt : ∀ j i, ∀ d ∈ S.chan j i, d.stamp < S.clock
  heard_lt : ∀ i j n, ∀ m ∈ S.heard i j n, m.1 < S.clock
  table : ∀ i j o, i ≠ j → ((S.inst i).stage r (S.opened i)).Open o → ∀ m ∈ S.heard i j r,
    o < m.1 → ∀ R, (S.inst i).lock.getResource r = some R →
      ∃ mb, R.members.find? (S.inst j).lock.id = some mb ∧ mb.state = m.2

variable {A : Name → Prop} {r : Name} {k : UInt32} {S S' : Sys ι} {i j : ι} {e : Event}
  {I' : Inst} {sent : List DLPacket} {said : ι → Phase}

/-! ### A step of one instance -/

section act

lemma inst_afterAct_self : (S.afterAct i I' sent).inst i = I' := Function.update_self ..

lemma inst_afterAct_of_ne (h : j ≠ i) : (S.afterAct i I' sent).inst j = S.inst j :=
  Function.update_of_ne h ..

lemma opened_afterAct_of_ne (h : j ≠ i) : (S.afterAct i I' sent).opened j = S.opened j := by
  show (if _ then _ else _ : ι → ℕ) j = _
  split_ifs
  · exact Function.update_of_ne h ..
  · rfl

/-- The datagrams of a step say what its packets say. -/
lemma filterMap_message (hfit : ∀ p ∈ sent, FitsWire p.resource) (t : ℕ) :
    (sent.map fun p => (⟨t, p.build⟩ : Datagram)).filterMap (Datagram.message r) =
      (Inst.about r sent).map fun p => (t, p) := by
  induction sent with
  | nil => rfl
  | cons p sent ih =>
    have hp : DLPacket.ofPayload p.build = some p :=
      DLPacket.ofPayload_build_of_fitsWire (hfit p List.mem_cons_self)
    have ih := ih fun q hq => hfit q (List.mem_cons_of_mem p hq)
    rw [List.map_cons, List.filterMap_cons, ih]
    by_cases hres : p.resource = r <;> simp [Datagram.message, hp, hres, Inst.about]

lemma view_chan_act (hfit : ∀ p ∈ sent, FitsWire p.resource) (j l : ι) :
    ((S.afterAct i I' sent).view r said).chan j l =
      if j = i ∧ l ≠ j then
        (S.view r said).chan j l ++ (Inst.about r sent).map fun p => (S.clock, p)
      else (S.view r said).chan j l := by
  show (if j = l then [] else List.filterMap _ (if j = i then _ else _)) =
    if j = i ∧ l ≠ j then (if j = l then [] else _) ++ _ else (if j = l then [] else _)
  by_cases hjl : j = l
  · simp [hjl]
  · have hlj : l ≠ j := fun h => hjl h.symm
    by_cases hji : j = i
    · subst hji
      rw [if_neg hjl, if_neg hjl, if_pos rfl, if_pos ⟨rfl, hlj⟩, List.filterMap_append,
        filterMap_message hfit]
    · simp [hjl, hji]

lemma view_phase_act :
    ((S.afterAct i I' sent).view r said).phase =
      Function.update (S.view r said).phase i (I'.phase r) := by
  funext j
  rcases eq_or_ne j i with rfl | hj
  · rw [Function.update_self]
    exact congrArg (Inst.phase r) inst_afterAct_self
  · rw [Function.update_of_ne hj]
    exact congrArg (Inst.phase r) (inst_afterAct_of_ne hj)

lemma view_stage_act : ((S.afterAct i I' sent).view r said).stage =
    Function.update (S.view r said).stage i (I'.stage r ((S.afterAct i I' sent).opened i)) := by
  funext j
  rcases eq_or_ne j i with rfl | hj
  · rw [Function.update_self]
    exact congrArg (fun I => Inst.stage r I _) inst_afterAct_self
  · rw [Function.update_of_ne hj]
    show ((S.afterAct i I' sent).inst j).stage r ((S.afterAct i I' sent).opened j) = _
    rw [inst_afterAct_of_ne hj, opened_afterAct_of_ne hj]
    rfl

lemma view_since_act : ((S.afterAct i I' sent).view r said).since =
    Function.update (S.view r said).since i
      (if (I'.phase r).Active ∧ ¬ ((S.view r said).phase i).Active then S.clock
        else S.since i r) := by
  funext j
  show (if j = i ∧ I'.claims r ∧ ¬ (S.inst i).claims r then S.clock else S.since j r) = _
  simp only [Inst.claims_iff]
  rcases eq_or_ne j i with rfl | hj
  · simp only [true_and, Function.update_self]
    rfl
  · rw [Function.update_of_ne hj, if_neg fun h => hj h.1]
    rfl

omit [DecidableEq ι] in
/-- Everything that is sent fits onto the wire and names the sender. -/
lemma sent_ok (hA : ∀ n, A n → FitsWire n) (hS : S.Sound A r k)
    (hs : (S.inst i).step e = some (I', sent)) {p : DLPacket} (hp : p ∈ sent) :
    FitsWire p.resource ∧ p.memberId = I'.lock.id ∧
      ∃ R, I'.lock.getResource p.resource = some R ∧ p.count = R.count := by
  obtain ⟨n, R, hR, rfl, hwork⟩ := Inst.mem_sent hs hp
  have hn : R.name = n := Inst.named_step ((hS.inst i).named) hs n R hR
  refine ⟨?_, rfl, R, by rw [Resource.beacon_resource, hn, hR], rfl⟩
  rw [Resource.beacon_resource, hn]
  refine hA n ?_
  rcases hwork with ⟨-, a, ha⟩ | ⟨rfl, hidle⟩
  · exact (Inst.on_next ((hS.inst i).coherent) ((hS.inst i).busy) ha).1
  · exact by_contra fun h => hidle ((hS.inst i).idle n R hR h)

/-- A window that is not opened by the step keeps its time. -/
lemma stage_afterAct (hs : (S.inst i).step e = some (I', sent))
    (hst : (S.inst i).stage r ≠ fun _ => .outside) :
    (S.afterAct i I' sent).opened i = S.opened i := by
  show (if _ then _ else _ : ι → ℕ) i = _
  refine congrFun (if_neg fun hw => hst ?_) i
  exact Inst.stage_of_opens hs hw.1 (by simpa using hw.2)

/-- An instance that stays in its phase is seen to do so. -/
lemma view_phase_keep (hp : I'.phase r = (S.inst i).phase r) :
    ((S.afterAct i I' sent).view r said).phase = (S.view r said).phase := by
  rw [view_phase_act, hp]
  exact Function.update_eq_self ..

lemma view_since_keep (hp : I'.phase r = (S.inst i).phase r) :
    ((S.afterAct i I' sent).view r said).since = (S.view r said).since := by
  rw [view_since_act, hp, if_neg fun h => h.2 h.1]
  exact Function.update_eq_self ..

lemma view_chan_quiet (hfit : ∀ p ∈ sent, FitsWire p.resource) (ha : Inst.about r sent = []) :
    ((S.afterAct i I' sent).view r said).chan = (S.view r said).chan := by
  ext1 j
  ext1 l
  rw [view_chan_act hfit, ha]
  simp

lemma view_chan_post (hfit : ∀ p ∈ sent, FitsWire p.resource) {ph : Phase} {b : Bool}
    (ha : Inst.about r sent = [ph]) :
    ((S.afterAct i I' (if b then sent else [])).view r said).chan =
      (S.view r said).post b i ph := by
  ext1 j
  ext1 l
  cases b with
  | false =>
    have hnil : ∀ p ∈ (if false then sent else []), FitsWire p.resource := by simp
    rw [view_chan_act hnil]
    simp [Inst.about, Cfg.post]
  | true =>
    rw [if_pos rfl, view_chan_act hfit, ha, Cfg.post]
    simp only [true_and]
    rfl

lemma view_stage_keep {sent' : List DLPacket} (hs : (S.inst i).step e = some (I', sent))
    (hst : I'.stage r = (S.inst i).stage r) :
    ((S.afterAct i I' sent').view r said).stage = (S.view r said).stage := by
  show ((S.afterAct i I' sent).view r said).stage = _
  rw [view_stage_act]
  by_cases hout : (S.inst i).stage r = fun _ => .outside
  · -- the time of a window that is not open does not matter
    rw [hst, hout]
    refine (congrArg (Function.update _ i) ?_).trans (Function.update_eq_self i _)
    exact (congrFun hout _).symm
  · rw [stage_afterAct hs hout, hst]
    exact Function.update_eq_self ..

/-- The window moves on; it keeps its time. -/
lemma view_stage_move (hs : (S.inst i).step e = some (I', sent)) {f f' : ℕ → Stage}
    (hst : (S.inst i).stage r = f) (hf : f 0 ≠ .outside) (hst' : I'.stage r = f') :
    ((S.afterAct i I' sent).view r said).stage =
      Function.update (S.view r said).stage i (f' (S.opened i)) := by
  have hout : (S.inst i).stage r ≠ fun _ => .outside := by
    intro h
    exact hf (congrFun (hst.symm.trans h) 0)
  rw [view_stage_act, stage_afterAct hs hout, hst']

lemma view_stage_out (hst' : I'.stage r = fun _ => .outside) :
    ((S.afterAct i I' sent).view r said).stage =
      Function.update (S.view r said).stage i .outside := by
  rw [view_stage_act, hst']

/-- The holders that an instance has heard of inside its window are counted by
`isAcquirable`. -/
lemma card_heardHolders_lt [Fintype ι] (hS : S.Sound A r k)
    (hopen : ((S.inst i).stage r (S.opened i)).Open (S.opened i))
    (hacq : (S.inst i).lock.isAcquirable r = true) :
    ((S.view r said).heardHolders i (S.opened i)).card < k.toNat := by
  rw [Lock.isAcquirable] at hacq
  split at hacq
  · next R hR =>
    rw [Resource.isAcquirable_iff ((hS.inst i).own R hR), (hS.inst i).count R hR] at hacq
    refine lt_of_le_of_lt ?_ hacq
    -- each of these holders has an entry of its own
    have hsub : ((S.view r said).heardHolders i (S.opened i)).image (fun j => (S.inst j).lock.id) ⊆
        ((R.members.entries.filter fun e => e.2.state = .acquired).map Sigma.fst).toFinset := by
      intro id hid
      obtain ⟨j, hj, rfl⟩ := Finset.mem_image.mp hid
      obtain ⟨m, hm, hlt, hhold⟩ := (Finset.mem_filter.mp hj).2
      by_cases hij : i = j
      · simp [view, hij] at hm
      · simp only [view, if_neg hij, Option.mem_def, Option.map_eq_some_iff] at hm
        obtain ⟨m₀, hm₀, rfl⟩ := hm
        obtain ⟨mb, hmb, hstate⟩ := hS.table i j _ hij hopen m₀ hm₀ hlt R hR
        rw [List.mem_toFinset, List.mem_map]
        refine ⟨⟨_, mb⟩, List.mem_filter.mpr ⟨Lib.OrdMap.mem_entries_iff.mpr hmb, ?_⟩, rfl⟩
        simpa [hstate] using State.phase_holding.mp hhold
    have hcard := Finset.card_le_card hsub
    rw [Finset.card_image_of_injective _ hS.ids] at hcard
    refine hcard.trans ((List.toFinset_card_le _).trans_eq ?_)
    rw [List.length_map, List.countP_eq_length_filter]
  · exact absurd hacq (by simp)

/-- An instance that stays in its phase has nothing new to say. -/
lemma view_says_keep {b : Bool} (hp : I'.phase r = (S.inst i).phase r)
    (hsaid : said i = (S.inst i).phase r) :
    (S.view r said).tells b i (I'.phase r) = said := by
  rw [Cfg.tells, hp, ← hsaid]
  split_ifs
  · exact Function.update_eq_self ..
  · rfl

/-- **A step of one instance is a step of the protocol.** The packets of the step are
sent in the same step or, if not `b`, left to a later one. -/
theorem step_view_act [Fintype ι] {P : Name → Prop} {b : Bool} (hA : ∀ n, A n → FitsWire n)
    (hP : P r) (hS : S.Sound A r k) (hd : ∀ p, e ≠ .deliver p) (ht : S.TimerOk P (.act i e))
    (hsaid : said i = (S.inst i).phase r) (hs : (S.inst i).step e = some (I', sent)) :
    Step k.toNat (S.view r said) ((S.afterAct i I' (if b then sent else [])).view r
      ((S.view r said).tells b i (I'.phase r))) := by
  have hfit : ∀ p ∈ sent, FitsWire p.resource := fun p hp => (sent_ok hA hS hs hp).1
  have hon : (S.inst i).On (· ∈ (S.inst i).lock.names) :=
    Inst.on_mono ((hS.inst i).busy) fun _ h => h.2
  -- a step that says nothing about the resource
  have hquiet : Inst.about r sent = [] → ((S.afterAct i I' (if b then sent else [])).view r
      said).chan = (S.view r said).chan := by
    intro ha
    refine view_chan_quiet (fun p hp => hfit p ?_) ?_ <;> cases b
    · exact absurd hp List.not_mem_nil
    · exact hp
    · rfl
    · exact ha
  have hkeep : I'.phase r = (S.inst i).phase r → (S.view r said).tells b i (I'.phase r) = said :=
    fun hp => view_says_keep hp hsaid
  cases Inst.effect_step (r := r) ((hS.inst i).named) ((hS.inst i).coherent) hon hd hs with
  | silent hp hst ha =>
    rw [hkeep hp, show (S.afterAct i I' (if b then sent else [])).view r said =
        { S.view r said with clock := S.clock + 1 } from
      Cfg.ext rfl (view_phase_keep hp) rfl (view_since_keep hp)
        (view_stage_keep hs hst) (hquiet ha) rfl]
    exact .skip
  | renew hp hst ha =>
    cases b with
    | false =>
      rw [hkeep hp, show (S.afterAct i I' (if false then sent else [])).view r said =
          { S.view r said with clock := S.clock + 1 } from
        Cfg.ext rfl (view_phase_keep hp) rfl (view_since_keep hp)
          (view_stage_keep hs hst) (view_chan_post hfit ha) rfl]
      exact .skip
    | true =>
      rw [hp, show (S.afterAct i I' (if true then sent else [])).view r
            ((S.view r said).tells true i ((S.inst i).phase r)) = { S.view r said with
          clock := S.clock + 1
          said := Function.update (S.view r said).said i ((S.view r said).phase i)
          chan := (S.view r said).post true i ((S.view r said).phase i) } from
        Cfg.ext rfl (view_phase_keep hp) rfl (view_since_keep hp)
          (view_stage_keep hs hst) (view_chan_post hfit ha) rfl]
      exact .renew i
  | assign hp hst hst' ha =>
    rw [show (S.afterAct i I' (if b then sent else [])).view r
          ((S.view r said).tells b i (I'.phase r)) = { S.view r said with
        clock := S.clock + 1
        phase := Function.update (S.view r said).phase i (I'.phase r)
        said := (S.view r said).tells b i (I'.phase r)
        since := Function.update (S.view r said).since i
          (if (I'.phase r).Active ∧ ¬ ((S.view r said).phase i).Active then S.clock
            else S.since i r)
        chan := (S.view r said).post b i (I'.phase r) } from
      Cfg.ext rfl view_phase_act rfl view_since_act
        (view_stage_keep hs (hst'.trans hst.symm)) (view_chan_post hfit ha) rfl]
    exact .assign i _ b (congrFun hst _) hp
  | listen hp hc hst hst' hw ha =>
    have hopened : (S.afterAct i I' sent).opened i = S.clock :=
      (congrFun (if_pos (by simpa using hw)) i).trans (Function.update_self ..)
    have hlisten : ((S.afterAct i I' sent).view r said).stage =
        Function.update (S.view r said).stage i (.waiting S.clock) := by
      rw [view_stage_act, hopened, hst']
    rw [hkeep hp, show (S.afterAct i I' (if b then sent else [])).view r said =
        { S.view r said with
          clock := S.clock + 1
          stage := Function.update (S.view r said).stage i (.waiting S.clock) } from
      Cfg.ext rfl (view_phase_keep hp) rfl (view_since_keep hp) hlisten (hquiet ha) rfl]
    exact .listen i (congrFun hst _) hc (hsaid.trans hc)
  | close hp hst hst' hw he ha =>
    subst he
    rw [hkeep hp, show (S.afterAct i I' (if b then sent else [])).view r said =
        { S.view r said with
          clock := S.clock + 1
          stage := Function.update (S.view r said).stage i (.passed (S.opened i)) } from
      Cfg.ext rfl (view_phase_keep hp) rfl (view_since_keep hp)
        (view_stage_move hs hst (by simp) hst') (hquiet ha) rfl]
    refine .close i (S.opened i) (congrFun hst _) fun j hj hact hold => ?_
    -- this is what the timer promises
    have hclaims : (S.inst j).claims r = true := Inst.claims_iff.mpr hact
    have hmem : r ∈ (S.inst j).lock.names := by
      rw [Inst.claims] at hclaims
      split at hclaims
      · next st hst => exact Lock.mem_names_of_stateOf hst
      · exact absurd hclaims (by simp)
    obtain ⟨m, hm, hlt⟩ := (ht hw).2 j hj r hmem hP hclaims hold
    refine ⟨(m.1, m.2.phase), ?_, hlt⟩
    show _ ∈ if i = j then none else _
    rw [if_neg fun h => hj h.symm, Option.mem_def.mp hm]
    rfl
  | grant hp hst hst' hacq ha =>
    rw [hkeep hp, show (S.afterAct i I' (if b then sent else [])).view r said =
        { S.view r said with
          clock := S.clock + 1
          stage := Function.update (S.view r said).stage i (.granted (S.opened i)) } from
      Cfg.ext rfl (view_phase_keep hp) rfl (view_since_keep hp)
        (view_stage_move hs hst (by simp) hst') (hquiet ha) rfl]
    exact .grant i (S.opened i) (congrFun hst _)
      (card_heardHolders_lt hS (by rw [hst]; rfl) hacq)
  | enter hp hc hst hst' ha =>
    have hactive : ((S.view r said).phase i).Active := by
      show ((S.inst i).phase r).Active
      rw [hc]
      decide
    have hsame : ((S.afterAct i I' sent).view r said).since = (S.view r said).since := by
      rw [view_since_act, if_neg fun h => h.2 hactive]
      exact Function.update_eq_self ..
    rw [hp, show (S.afterAct i I' (if b then sent else [])).view r
          ((S.view r said).tells b i .holding) = { S.view r said with
        clock := S.clock + 1
        phase := Function.update (S.view r said).phase i .holding
        said := (S.view r said).tells b i .holding
        stage := Function.update (S.view r said).stage i .outside
        chan := (S.view r said).post b i .holding } from
      Cfg.ext rfl (view_phase_act.trans (by rw [hp]; rfl)) rfl hsame
        (view_stage_out hst') (view_chan_post hfit ha) rfl]
    exact .enter i (S.opened i) b (congrFun hst _)
  | quit hp hst' ha =>
    rw [hkeep hp, show (S.afterAct i I' (if b then sent else [])).view r said =
        { S.view r said with
          clock := S.clock + 1
          stage := Function.update (S.view r said).stage i .outside } from
      Cfg.ext rfl (view_phase_keep hp) rfl (view_since_keep hp)
        (view_stage_out hst') (hquiet ha) rfl]
    exact .quit i

/-- A window that is open after the step was open before, or it has just been opened. -/
lemma open_act {o : ℕ} (hS : S.Sound A r k) (hd : ∀ p, e ≠ .deliver p)
    (hs : (S.inst i).step e = some (I', sent))
    (ho : (I'.stage r ((S.afterAct i I' sent).opened i)).Open o) :
    ((S.inst i).stage r (S.opened i)).Open o ∨ o = S.clock := by
  have hon : (S.inst i).On (· ∈ (S.inst i).lock.names) :=
    Inst.on_mono ((hS.inst i).busy) fun _ h => h.2
  have hkeep : (S.inst i).stage r ≠ (fun _ => .outside) →
      (S.afterAct i I' sent).opened i = S.opened i := stage_afterAct hs
  cases Inst.effect_step (r := r) ((hS.inst i).named) ((hS.inst i).coherent) hon hd hs with
  | silent hp hst ha | renew hp hst ha =>
    by_cases hout : (S.inst i).stage r = fun _ => .outside
    · rw [hst, hout] at ho
      exact ho.elim
    · rw [hst, hkeep hout] at ho
      exact .inl ho
  | listen hp hc hst hst' hw ha =>
    have hopened : (S.afterAct i I' sent).opened i = S.clock :=
      (congrFun (if_pos (by simpa using hw)) i).trans (Function.update_self ..)
    rw [hst', hopened] at ho
    exact .inr ho.symm
  | close hp hst hst' hw he ha | grant hp hst hst' hacq ha =>
    rw [hst', hkeep (by rw [hst]; intro h; exact absurd (congrFun h 0) (by simp))] at ho
    rw [hst]
    exact .inl ho
  | assign hp hst hst' ha | enter hp hc hst hst' ha | quit hp hst' ha =>
    rw [hst'] at ho
    exact ho.elim

/-- **A step of one instance keeps the invariant**, whatever it sends at once. -/
theorem sound_act {sent' : List DLPacket} (hA : ∀ n, A n → FitsWire n) (hS : S.Sound A r k)
    (hd : ∀ p, e ≠ .deliver p) (he : ∀ c, e = .call c → c.Within A (S.inst i).lock)
    (hs : (S.inst i).step e = some (I', sent)) (hsent : sent' ⊆ sent) :
    (S.afterAct i I' sent').Sound A r k := by
  have hid : ∀ j, ((S.afterAct i I' sent').inst j).lock.id = (S.inst j).lock.id := by
    intro j
    rcases eq_or_ne j i with rfl | hj
    · rw [inst_afterAct_self, Inst.step_id hs]
    · rw [inst_afterAct_of_ne hj]
  constructor
  · intro j l hjl
    exact hS.ids (((hid j).symm.trans hjl).trans (hid l))
  · exact (Function.forall_update_iff S.inst fun _ I => I.Sound A r k).mpr
      ⟨Inst.sound_step (hS.inst i) he hs, fun j _ => hS.inst j⟩
  · intro j l d hdm
    rw [hid]
    change d ∈ (if j = i then _ else _ : List Datagram) at hdm
    split_ifs at hdm with hj
    · subst hj
      rcases List.mem_append.mp hdm with hdm | hdm
      · exact hS.packets j l d hdm
      · obtain ⟨p, hp, rfl⟩ := List.mem_map.mp hdm
        obtain ⟨hfit, hpid, R, hR, hcount⟩ := sent_ok hA hS hs (hsent hp)
        refine ⟨p, rfl, hfit, hpid.trans (Inst.step_id hs), fun hres => ?_⟩
        obtain ⟨R₀, hR₀, hc, -⟩ := Inst.members_step hd he hs (hres ▸ hR)
        rw [hcount, hc]
        exact (hS.inst j).count R₀ hR₀
    · exact hS.packets j l d hdm
  · intro j l d hdm
    change d ∈ (if j = i then _ else _ : List Datagram) at hdm
    show d.stamp < S.clock + 1
    split_ifs at hdm with hj
    · rcases List.mem_append.mp hdm with hdm | hdm
      · exact Nat.lt_succ_of_lt (hS.chan_lt j l d hdm)
      · obtain ⟨p, -, rfl⟩ := List.mem_map.mp hdm
        exact Nat.lt_succ_self _
    · exact Nat.lt_succ_of_lt (hS.chan_lt j l d hdm)
  · intro j l n m hm
    exact Nat.lt_succ_of_lt (hS.heard_lt j l n m hm)
  · intro j l o hjl ho m hm hlt R hR
    rw [hid]
    rcases eq_or_ne j i with rfl | hj
    · rw [inst_afterAct_self] at ho hR
      rcases open_act hS hd hs ho with ho' | rfl
      · -- the table is only cleared outside the window
        obtain ⟨R₀, hR₀, -, hmem | ⟨-, hout⟩⟩ := Inst.members_step hd he hs hR
        · rw [hmem]
          exact hS.table j l o hjl ho' m hm hlt R₀ hR₀
        · rw [hout] at ho
          exact ho.elim
      · -- nothing has been heard since the window was opened in this step
        exact absurd (hS.heard_lt j l r m hm) hlt.asymm
    · rw [inst_afterAct_of_ne hj, opened_afterAct_of_ne hj] at ho
      rw [inst_afterAct_of_ne hj] at hR
      exact hS.table j l o hjl ho m hm hlt R hR

end act

/-- The instance `i` becomes another one in silence, and no window of it is open then. -/
lemma sound_quiet (hS : S.Sound A r k) (hI : I'.Sound A r k)
    (hid : I'.lock.id = (S.inst i).lock.id) (hst : I'.stage r = fun _ => .outside) :
    (S.afterAct i I' []).Sound A r k := by
  have hids : ∀ j, ((S.afterAct i I' []).inst j).lock.id = (S.inst j).lock.id := by
    intro j
    rcases eq_or_ne j i with rfl | hj
    · rw [inst_afterAct_self, hid]
    · rw [inst_afterAct_of_ne hj]
  have hchan : ∀ j l, (S.afterAct i I' []).chan j l = S.chan j l := by
    intro j l
    show (if j = i then S.chan j l ++ [] else S.chan j l) = _
    rw [List.append_nil, ite_self]
  constructor
  · intro j l hjl
    exact hS.ids (((hids j).symm.trans hjl).trans (hids l))
  · exact (Function.forall_update_iff S.inst fun _ I => I.Sound A r k).mpr
      ⟨hI, fun j _ => hS.inst j⟩
  · intro j l d hd
    rw [hchan] at hd
    rw [hids]
    exact hS.packets j l d hd
  · intro j l d hd
    rw [hchan] at hd
    exact Nat.lt_succ_of_lt (hS.chan_lt j l d hd)
  · intro j l n m hm
    exact Nat.lt_succ_of_lt (hS.heard_lt j l n m hm)
  · intro j l o hjl ho m hm hlt R hR
    rw [hids]
    rcases eq_or_ne j i with rfl | hj
    · rw [inst_afterAct_self, hst] at ho
      exact ho.elim
    · rw [inst_afterAct_of_ne hj, opened_afterAct_of_ne hj] at ho
      rw [inst_afterAct_of_ne hj] at hR
      exact hS.table j l o hjl ho m hm hlt R hR

/-- An instance sends packets and does nothing else. -/
lemma afterAct_send : S.afterAct i (S.inst i) sent = { S with
    clock := S.clock + 1
    chan := fun j l =>
      if j = i then S.chan j l ++ sent.map fun p => ⟨S.clock, p.build⟩ else S.chan j l } := by
  have hopened : (if (S.inst i).inWindow ∧ ¬ (S.inst i).inWindow then
      Function.update S.opened i S.clock else S.opened) = S.opened := if_neg fun h => h.2 h.1
  have hsince : (fun j r => if j = i ∧ (S.inst i).claims r ∧ ¬ (S.inst i).claims r then S.clock
      else S.since j r) = S.since := by
    funext j r
    exact if_neg fun h => h.2.2 h.2.1
  rw [afterAct, Function.update_eq_self, hopened, hsince]

/-- **Packets of the instance may be sent at any time.** -/
lemma sound_send (hS : S.Sound A r k) (hsent : ∀ p ∈ sent, FitsWire p.resource ∧
    p.memberId = (S.inst i).lock.id ∧ (p.resource = r → p.count = k)) :
    (S.afterAct i (S.inst i) sent).Sound A r k := by
  rw [afterAct_send]
  -- what is new on the channels
  have hmem : ∀ {j l d}, d ∈ (if j = i then S.chan j l ++ sent.map fun p => ⟨S.clock, p.build⟩
      else S.chan j l : List Datagram) →
      d ∈ S.chan j l ∨ j = i ∧ ∃ p ∈ sent, d = ⟨S.clock, p.build⟩ := by
    intro j l d hd
    split_ifs at hd with hj
    · refine (List.mem_append.mp hd).imp_right fun hd => ⟨hj, ?_⟩
      obtain ⟨p, hp, rfl⟩ := List.mem_map.mp hd
      exact ⟨p, hp, rfl⟩
    · exact .inl hd
  constructor
  · exact hS.ids
  · exact hS.inst
  · intro j l d hd
    rcases hmem hd with hd | ⟨rfl, p, hp, rfl⟩
    · exact hS.packets j l d hd
    · exact ⟨p, rfl, hsent p hp⟩
  · intro j l d hd
    rcases hmem hd with hd | ⟨rfl, p, hp, rfl⟩
    · exact Nat.lt_succ_of_lt (hS.chan_lt j l d hd)
    · exact Nat.lt_succ_self _
  · intro j l n m hm
    exact Nat.lt_succ_of_lt (hS.heard_lt j l n m hm)
  · exact hS.table

/-- How the protocol sees an instance that does nothing. -/
lemma view_idle : (S.afterAct i (S.inst i) []).view r said =
    { S.view r said with clock := S.clock + 1 } := by
  have hchan : ((S.afterAct i (S.inst i) []).view r said).chan = (S.view r said).chan :=
    view_chan_quiet (by simp) rfl
  rw [afterAct_send] at hchan ⊢
  exact Cfg.ext rfl rfl rfl rfl rfl hchan rfl

/-- How it sees one that sends a packet. -/
lemma view_send {p : DLPacket} (hfit : FitsWire p.resource) :
    (S.afterAct i (S.inst i) [p]).view r said = { S.view r said with
      clock := S.clock + 1
      chan := (S.view r said).post (p.resource = r) i (State.ofByte p.state).phase } := by
  have hchan : ((S.afterAct i (S.inst i) [p]).view r said).chan =
      (S.view r said).post (p.resource = r) i (State.ofByte p.state).phase := by
    ext1 j
    ext1 l
    rw [view_chan_act (by simpa using hfit), Cfg.post]
    by_cases hres : p.resource = r <;> simp [Inst.about, hres]
    rfl
  rw [afterAct_send] at hchan ⊢
  exact Cfg.ext rfl rfl rfl rfl rfl hchan rfl

/-! ### A delivery -/

section deliver

variable {d : Datagram} {rest : List Datagram}

omit [DecidableEq ι] in
/-- Whatever is on its way from `j` is a packet of `j`. -/
lemma delivered (hS : S.Sound A r k) (hd : S.chan j i = d :: rest) :
    ∃ p : DLPacket, DLPacket.ofPayload d.payload = some p ∧
      p.memberId = (S.inst j).lock.id ∧ (p.resource = r → p.count = k) := by
  obtain ⟨p, hpay, hfit, hpid, hcount⟩ := hS.packets j i d (by rw [hd]; exact List.mem_cons_self)
  have hp : DLPacket.ofPayload d.payload = some p := by
    rw [hpay, DLPacket.ofPayload_build_of_fitsWire hfit]
  exact ⟨p, hp, hpid, hcount⟩

section payload

variable {p : DLPacket}

lemma afterDeliver_eq (hp : DLPacket.ofPayload d.payload = some p) :
    S.afterDeliver j i d rest = { S with
      clock := S.clock + 1
      inst := Function.update S.inst i ((S.inst i).actionPerformed p)
      chan := fun j' i' => if j' = j ∧ i' = i then rest else S.chan j' i'
      heard := fun i' j' r =>
        if i' = i ∧ j' = j ∧ r = p.resource then some (d.stamp, State.ofByte p.state)
        else S.heard i' j' r } := by
  rw [afterDeliver, hp]

lemma view_clock_deliver (hp : DLPacket.ofPayload d.payload = some p) :
    ((S.afterDeliver j i d rest).view r said).clock = S.clock + 1 := by
  rw [afterDeliver_eq hp]
  rfl

/-- A delivery assigns no state. -/
lemma view_phase_deliver (hp : DLPacket.ofPayload d.payload = some p) :
    ((S.afterDeliver j i d rest).view r said).phase = (S.view r said).phase := by
  rw [afterDeliver_eq hp]
  funext l
  show (Function.update S.inst i ((S.inst i).actionPerformed p) l).phase r = (S.inst l).phase r
  rcases eq_or_ne l i with rfl | hl
  · rw [Function.update_self]
    exact Inst.phase_congr (Inst.actionPerformed_stateOf ..)
  · rw [Function.update_of_ne hl]

lemma view_since_deliver (hp : DLPacket.ofPayload d.payload = some p) :
    ((S.afterDeliver j i d rest).view r said).since = (S.view r said).since := by
  rw [afterDeliver_eq hp]
  rfl

lemma view_stage_deliver (hp : DLPacket.ofPayload d.payload = some p) :
    ((S.afterDeliver j i d rest).view r said).stage = Function.update (S.view r said).stage i
      (((S.inst i).actionPerformed p).stage r (S.opened i)) := by
  rw [afterDeliver_eq hp]
  funext l
  rcases eq_or_ne l i with rfl | hl
  · rw [Function.update_self]
    exact congrArg (fun I => Inst.stage r I (S.opened l)) (Function.update_self ..)
  · rw [Function.update_of_ne hl]
    exact congrArg (fun I => Inst.stage r I (S.opened l)) (Function.update_of_ne hl ..)

lemma view_chan_deliver (hp : DLPacket.ofPayload d.payload = some p) (hji : j ≠ i) :
    ((S.afterDeliver j i d rest).view r said).chan = fun j' i' =>
      if j' = j ∧ i' = i then rest.filterMap (Datagram.message r)
      else (S.view r said).chan j' i' := by
  rw [afterDeliver_eq hp]
  funext j' i'
  show (if j' = i' then [] else List.filterMap _ (if j' = j ∧ i' = i then _ else _)) =
    if j' = j ∧ i' = i then _ else (if j' = i' then [] else _)
  by_cases hj : j' = j ∧ i' = i
  · obtain ⟨rfl, rfl⟩ := hj
    simp [hji]
  · simp [hj]

lemma view_heard_deliver (hp : DLPacket.ofPayload d.payload = some p) (hji : j ≠ i)
    (hres : p.resource = r) :
    ((S.afterDeliver j i d rest).view r said).heard = fun i' j' =>
      if i' = i ∧ j' = j then some (d.stamp, (State.ofByte p.state).phase)
      else (S.view r said).heard i' j' := by
  rw [afterDeliver_eq hp]
  funext i' j'
  show (if i' = j' then none else Option.map _
    (if i' = i ∧ j' = j ∧ r = p.resource then _ else _)) =
      if i' = i ∧ j' = j then _ else (if i' = j' then none else _)
  by_cases hj : i' = i ∧ j' = j
  · obtain ⟨rfl, rfl⟩ := hj
    have hij : i' ≠ j' := fun h => hji h.symm
    simp [hij, hres]
  · have hj' : ¬ (i' = i ∧ j' = j ∧ r = p.resource) := fun h => hj ⟨h.1, h.2.1⟩
    simp [hj, hj']

/-- What an instance receives from itself, or about another resource, is not seen. -/
lemma view_chan_deliver_of_not (hp : DLPacket.ofPayload d.payload = some p)
    (hd : S.chan j i = d :: rest) (hnot : ¬ (j ≠ i ∧ p.resource = r)) :
    ((S.afterDeliver j i d rest).view r said).chan = (S.view r said).chan := by
  rw [afterDeliver_eq hp]
  funext j' i'
  show (if j' = i' then [] else List.filterMap _ (if j' = j ∧ i' = i then _ else _)) =
    if j' = i' then [] else _
  by_cases hj : j' = j ∧ i' = i
  · obtain ⟨rfl, rfl⟩ := hj
    by_cases hji : j' = i'
    · simp [hji]
    · have hmsg : Datagram.message r d = none := by
        rw [Datagram.message, hp, Option.bind_some, if_neg fun h => hnot ⟨hji, h⟩]
      simp [hji, hd, hmsg]
  · simp [hj]

lemma view_heard_deliver_of_not (hp : DLPacket.ofPayload d.payload = some p)
    (hnot : ¬ (j ≠ i ∧ p.resource = r)) :
    ((S.afterDeliver j i d rest).view r said).heard = (S.view r said).heard := by
  rw [afterDeliver_eq hp]
  funext i' j'
  show (if i' = j' then none else Option.map _
    (if i' = i ∧ j' = j ∧ r = p.resource then _ else _)) = if i' = j' then none else _
  by_cases hij : i' = j'
  · simp [hij]
  · have hj : ¬ (i' = i ∧ j' = j ∧ r = p.resource) := by
      rintro ⟨rfl, rfl, hres⟩
      exact hnot ⟨fun h => hij h.symm, hres.symm⟩
    simp [hij, hj]

end payload

/-- **A delivery is a step of the protocol.** -/
theorem step_view_deliver [Fintype ι] (hS : S.Sound A r k) (hd : S.chan j i = d :: rest) :
    Step k.toNat (S.view r said) ((S.afterDeliver j i d rest).view r said) := by
  obtain ⟨p, hp, hpid, -⟩ := delivered hS hd
  have hst := Inst.stage_actionPerformed (r := r) (S.inst i) p
  by_cases habout : j ≠ i ∧ p.resource = r
  · obtain ⟨hji, hres⟩ := habout
    have hmsg : Datagram.message r d = some (d.stamp, (State.ofByte p.state).phase) := by
      rw [Datagram.message, hp, Option.bind_some, if_pos hres]
    have hhead : (S.view r said).chan j i = (d.stamp, (State.ofByte p.state).phase) ::
        rest.filterMap (Datagram.message r) := by
      show (if j = i then [] else (S.chan j i).filterMap (Datagram.message r)) = _
      rw [if_neg hji, hd, List.filterMap_cons, hmsg]
    rw [show (S.afterDeliver j i d rest).view r said = { S.view r said with
        clock := S.clock + 1
        stage := Function.update (S.view r said).stage i
          (((S.inst i).actionPerformed p).stage r (S.opened i))
        chan := fun j' i' => if j' = j ∧ i' = i then rest.filterMap (Datagram.message r)
          else (S.view r said).chan j' i'
        heard := fun i' j' => if i' = i ∧ j' = j then
          some (d.stamp, (State.ofByte p.state).phase) else (S.view r said).heard i' j' } from
      Cfg.ext (view_clock_deliver hp) (view_phase_deliver hp) rfl (view_since_deliver hp)
        (view_stage_deliver hp) (view_chan_deliver hp hji) (view_heard_deliver hp hji hres)]
    refine .deliver j i _ _ _ hhead ?_ fun hclaim o ho => ?_
    · exact hst.imp (fun h => congrFun h _) fun h => congrFun h _
    · -- the thread of `i` is in its collision wait, and the claim is meant for it
      obtain ⟨scope, retry, hctl, hmem⟩ := Inst.colliding_of_waiting ho
      have hacq := (hS.inst i).coherent _ _ _ hctl
      rw [Inst.Acquiring, hctl] at hacq
      obtain ⟨R, hR⟩ := Lock.mem_names_iff.mp (hacq.2.1 r hmem)
      have haddr : (S.inst i).addressee p = some R := by
        rw [Inst.addressee, if_neg fun h => hji (hS.ids (hpid.symm.trans h)), hres, hR]
      exact congrFun (Inst.stage_of_claim ((hS.inst i).coherent) ho haddr hres
        (State.phase_claiming.mp hclaim)) _
  · -- nothing that the protocol sees has arrived
    have hstage : ((S.afterDeliver j i d rest).view r said).stage = _ := view_stage_deliver hp
    rcases hst with hst | hst
    · rw [hst, show (S.inst i).stage r (S.opened i) = (S.view r said).stage i from rfl,
        Function.update_eq_self] at hstage
      rw [show (S.afterDeliver j i d rest).view r said =
          { S.view r said with clock := S.clock + 1 } from
        Cfg.ext (view_clock_deliver hp) (view_phase_deliver hp) rfl (view_since_deliver hp) hstage
          (view_chan_deliver_of_not hp hd habout) (view_heard_deliver_of_not hp habout)]
      exact .skip
    · rw [hst] at hstage
      rw [show (S.afterDeliver j i d rest).view r said = { S.view r said with
          clock := S.clock + 1
          stage := Function.update (S.view r said).stage i .outside } from
        Cfg.ext (view_clock_deliver hp) (view_phase_deliver hp) rfl (view_since_deliver hp) hstage
          (view_chan_deliver_of_not hp hd habout) (view_heard_deliver_of_not hp habout)]
      exact .quit i

/-- A claimed window is open only while the resource is `ACQUIRING`. -/
lemma has_of_open {I : Inst} {o o' : ℕ} (hc : I.Coherent) (h : (I.stage r o).Open o') :
    I.lock.Has .acquiring r := by
  cases hctl : I.ctl with
  | adquire scope retry pc =>
    have hacq := hc _ _ _ hctl
    rw [Inst.Acquiring, hctl] at hacq
    obtain ⟨-, -, hcoh⟩ := hacq
    rw [Inst.stage] at h
    rw [hctl] at h
    cases pc with
    | colliding =>
      by_cases hmem : r ∈ I.lock.targets scope
      · exact hcoh r hmem
      · simp only [if_neg hmem] at h
        exact h.elim
    | checking rest =>
      by_cases hmem : r ∈ rest
      · obtain ⟨done, -, -, hrest⟩ := hcoh
        exact hrest r hmem
      · simp only [if_neg hmem] at h
        exact h.elim
    | marking res rest =>
      obtain ⟨done, -, -, hrest⟩ := hcoh
      by_cases hmem : r ∈ res :: rest
      · exact hrest r hmem
      · rw [List.mem_cons, not_or] at hmem
        simp only [if_neg hmem.1, if_neg hmem.2] at h
        exact h.elim
    | _ => exact h.elim
  | _ =>
    rw [Inst.stage, hctl] at h
    exact h.elim

omit [DecidableEq ι] in
/-- Within a window, the receiver records whatever it is told about the resource. -/
lemma table_deliver {p : DLPacket} {o : ℕ} (hS : S.Sound A r k)
    (hpid : p.memberId = (S.inst j).lock.id) (hcount : p.resource = r → p.count = k) (hij : i ≠ j)
    (ho : ((S.inst i).stage r (S.opened i)).Open o) (hr : p.resource = r) {R : Resource}
    (hR : (S.inst i).lock.getResource r = some R) :
    ∃ mb, ((S.inst i).heardBy p r R).members.find? (S.inst j).lock.id = some mb ∧
      mb.state = State.ofByte p.state := by
  have hstate : R.state = .acquiring := by
    have hhas := has_of_open ((hS.inst i).coherent) ho
    rw [Lock.Has, Lock.stateOf, hR] at hhas
    exact Option.some.inj hhas
  have hne : p.memberId ≠ (S.inst i).lock.id := by
    rw [hpid]
    exact fun h => hij (hS.ids h).symm
  have hc : R.count = p.count := ((hS.inst i).count R hR).trans (hcount hr).symm
  -- the resource is not idle and the counts agree
  rw [Inst.heardBy, if_pos ⟨hr.symm, hne, by simp [hstate]⟩, ← hpid]
  obtain ⟨mb, hmb, hst, -⟩ : ∃ mb, (R.updateMember p.memberId (State.ofByte p.state)
      p.count).members.find? p.memberId = some mb ∧ mb.state = State.ofByte p.state ∧
        mb.count = p.count := Resource.updateMember_find?_self (.inl hc)
  exact ⟨mb, hmb, hst⟩

/-- **A delivery keeps the invariant.** -/
theorem sound_deliver (hS : S.Sound A r k) (hd : S.chan j i = d :: rest) :
    (S.afterDeliver j i d rest).Sound A r k := by
  obtain ⟨p, hp, hpid, hcount⟩ := delivered hS hd
  have heq : S.afterDeliver j i d rest = _ := afterDeliver_eq hp
  have hdmem : d ∈ S.chan j i := by rw [hd]; exact List.mem_cons_self
  have hs : (S.inst i).step (.deliver p) = some ((S.inst i).actionPerformed p, []) := rfl
  have hself : (S.afterDeliver j i d rest).inst i = (S.inst i).actionPerformed p := by
    rw [heq]
    exact Function.update_self ..
  have hother : ∀ {l}, l ≠ i → (S.afterDeliver j i d rest).inst l = S.inst l := by
    intro l hl
    rw [heq]
    exact Function.update_of_ne hl ..
  have hid : ∀ l, ((S.afterDeliver j i d rest).inst l).lock.id = (S.inst l).lock.id := by
    intro l
    rcases eq_or_ne l i with rfl | hl
    · rw [hself, Inst.step_id hs]
    · rw [hother hl]
  have hchan : ∀ {j' i' d'}, d' ∈ (S.afterDeliver j i d rest).chan j' i' → d' ∈ S.chan j' i' := by
    intro j' i' d' hmem
    rw [heq] at hmem
    change d' ∈ (if j' = j ∧ i' = i then _ else _ : List Datagram) at hmem
    split_ifs at hmem with hj
    · obtain ⟨rfl, rfl⟩ := hj
      rw [hd]
      exact List.mem_cons_of_mem d hmem
    · exact hmem
  have hclock : (S.afterDeliver j i d rest).clock = S.clock + 1 := by rw [heq]
  constructor
  · intro l l' hl
    exact hS.ids (((hid l).symm.trans hl).trans (hid l'))
  · rw [heq]
    exact (Function.forall_update_iff S.inst fun _ I => I.Sound A r k).mpr
      ⟨Inst.sound_step (hS.inst i) (fun c hc => absurd hc (by simp)) hs, fun l _ => hS.inst l⟩
  · intro j' i' d' hmem
    rw [hid]
    exact hS.packets j' i' d' (hchan hmem)
  · intro j' i' d' hmem
    rw [hclock]
    exact Nat.lt_succ_of_lt (hS.chan_lt j' i' d' (hchan hmem))
  · intro i' j' n m hm
    rw [hclock]
    rw [heq] at hm
    change m ∈ (if i' = i ∧ j' = j ∧ n = p.resource then _ else _ : Option (ℕ × State)) at hm
    split_ifs at hm
    · obtain rfl := Option.some.inj hm
      exact Nat.lt_succ_of_lt (hS.chan_lt j i d hdmem)
    · exact Nat.lt_succ_of_lt (hS.heard_lt i' j' n m hm)
  · intro i' j' o hij ho m hm hlt R hR
    rw [hid]
    have hopened : (S.afterDeliver j i d rest).opened = S.opened := by rw [heq]
    rw [hopened] at ho
    rw [heq] at hm
    change m ∈ (if i' = i ∧ j' = j ∧ r = p.resource then _ else _ : Option (ℕ × State)) at hm
    -- only the table of the receiver changes
    rcases eq_or_ne i' i with rfl | hi
    · rw [hself] at ho hR
      have ho' : ((S.inst i').stage r (S.opened i')).Open o := by
        rcases Inst.stage_actionPerformed (r := r) (S.inst i') p with hst | hst
        · rwa [hst] at ho
        · rw [hst] at ho
          exact ho.elim
      rw [(Inst.frame_step rfl hs).resource] at hR
      obtain ⟨R₀, hR₀, rfl⟩ := Option.map_eq_some_iff.mp hR
      show ∃ mb, ((S.inst i').heardBy p r R₀).members.find? _ = some mb ∧ _
      split_ifs at hm with hj
      · obtain ⟨-, rfl, hr⟩ := hj
        obtain rfl := Option.some.inj hm
        exact table_deliver hS hpid hcount hij ho' hr.symm hR₀
      · -- the packet is not about this entry of the table
        obtain ⟨mb, hmb, hst⟩ := hS.table i' j' o hij ho' m hm hlt R₀ hR₀
        refine ⟨mb, ?_, hst⟩
        rw [Inst.heardBy]
        split_ifs with hif
        · rwa [Resource.updateMember_find?_of_ne]
          intro hjp
          exact hj ⟨rfl, hS.ids (hjp.trans hpid), hif.1⟩
        · exact hmb
    · rw [hother hi] at ho hR
      rw [if_neg fun h => hi h.1] at hm
      exact hS.table i' j' o hij ho m hm hlt R hR

end deliver

end Sys
end DistLock
