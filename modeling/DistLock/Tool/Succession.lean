/-
A process of the command-line tool that starts after the others.

Each of the others has ended, by itself or because it has been killed, whatever it has acquired
before; or its command line asks a question (`-q`, `-Q` or `-W`), so that it never acquires.  If
nothing that the others have said about a holder or an attempt is still on its way to the process,
then it reaches its command, and the number of its steps does not depend on the others
(`Fleet.successor_reaches_command`).
-/
import DistLock.System.Sole
import DistLock.Tool.Progress

namespace DistLock

open Lib (OrdMap Run)

/-- The command line asks a question. -/
def Options.Questions (o : Options) : Prop := (o.query || o.isAny || o.isWaiting) = true

/-! ### What a process does to its instance -/

namespace Child

variable {o : Options} {s s' : Child} {I I' : Inst} {e : ChildEvent} {c : Call} {pc : ChildPc}

/-- The effect of a step of the process on its instance and on the network. -/
inductive Turn (o : Options) (s : Child) (e : ChildEvent) (s' : Child) : Prop
  | exit (code : UInt32) (h : s' = s.exit code)
  | construct (id : UInt32) (he : e = .constructed (some id))
    (h : s' = { s with dl := some ⟨Lock.new id o.beaconTime, .free none⟩, pc := .limiting })
  | flow (pc : ChildPc) (st : UInt32) (hdl : pc.hasDl = true)
    (h : s' = { s with pc := pc, status := st })
  | act (pc : ChildPc) (ev : Event) (I I' : Inst) (sent : List DLPacket) (hI : s.dl = some I)
    (hs : I.step ev = some (I', sent)) (hdl : s.pc.hasDl = true → pc.hasDl = true)
    (h : s' = { s with dl := some I', pc := pc, sent := s.sent ++ sent })
    (hc : ∀ c, ev = .call c → o.Questions → c.acquires = false)

lemma turn_call (hI : s.dl = some I) (h : s.call I c pc = some s') (hdl : pc.hasDl = true)
    (hc : o.Questions → c.acquires = false) : Turn o s e s' := by
  obtain ⟨I', sent, hs, rfl⟩ := call_inv h
  refine .act pc (.call c) I I' sent hI hs (fun _ => hdl) rfl fun c' hc' => ?_
  obtain rfl := Event.call.inj hc'
  exact hc

lemma turn_main (hI : s.dl = some I) (h : s.mainStep o I = some s') : Turn o s e s' := by
  cases branch_of_mainStep h with
  | undefined _ _ h | empty _ h | usage _ _ h | refused _ h | ended _ h | destroyed _ h =>
    exact .exit _ h
  | next _ _ _ h | dispatch _ _ h | skip _ _ h | acquired _ _ h | finish _ h =>
    exact .flow _ s.status rfl h
  | answer _ _ _ h => exact .flow .deleting _ rfl h
  | limit _ h | define _ _ _ h | ask _ _ _ h | release _ h | delete _ h =>
    exact turn_call hI h rfl fun _ => rfl
  | acquire _ hq h =>
    -- a command line that asks nothing
    refine turn_call hI h rfl fun hquestions => ?_
    rw [Options.Questions, hq] at hquestions
    cases hquestions

/-- **Every step of a process is a turn.** -/
lemma turn_step (h : s.step o e = some s') : Turn o s e s' := by
  cases transition_of_step h with
  | dl ev I I' sent he hI hs =>
    refine .act s.pc ev I I' sent hI hs id rfl fun c hc => ?_
    rw [hc] at he
    cases he
  | main I s' hI h => exact turn_main hI h
  | construct id => exact .construct id rfl rfl
  | throws | forkFails => exact .exit _ rfl
  | forks | waits => exact .flow _ _ rfl rfl

/-- A process that has ended does nothing. -/
lemma step_exited {code : UInt32} (hpc : s.pc = .exited code) (hdl : s.dl = none) :
    s.step o e = none := by
  rw [Option.eq_none_iff_forall_ne_some]
  intro s' hs
  cases transition_of_step hs with
  | dl _ _ _ _ _ hI | main _ _ hI => cases hdl.symm.trans hI
  | construct _ h | throws h | forkFails _ h | forks _ h | waits _ _ _ h => cases hpc.symm.trans h

/-- The instance exists between the constructor and the end. -/
lemma OnWay.isSome (h : s.OnWay o) : s.dl.isSome = s.pc.hasDl := by
  rcases h with ⟨hdl, hpc | hpc⟩ | ⟨I, hdl, h⟩
  · rw [hdl, hpc]
    rfl
  · rw [hdl, hpc]
    rfl
  · rw [hdl]
    cases hpc : s.pc with
    | constructing | exited code =>
      rw [hpc] at h
      exact h.elim
    | _ => rfl

end Child

/-- On the way to the command only resources of the command line are defined. -/
lemma ChildPc.OnWay.names {o : Options} {I : Inst} {pc : ChildPc} (h : pc.OnWay o I) {n : Name}
    (hn : n ∈ I.lock.names) : n ∈ o.resMap.keys := by
  cases pc with
  | limiting | defining rest | dispatching =>
    exact (Inst.Defining.names (Inst.Setup.toDefining h) n).mpr (.inl hn)
  | defined rest => exact (h.1.names n).mpr (.inl hn)
  | acquiring => exact (h.2 n).mpr hn
  | forking | waiting pid | waited => exact (h.2 n).mpr hn
  | _ => exact h.elim

/-! ### What the others say -/

lemma Inst.meek_new {id : UInt32} {beaconTime : UInt64} {b : Option Bool} :
    (⟨Lock.new id beaconTime, .free b⟩ : Inst).Meek := by
  have hnot : ∀ s r, ¬ (Lock.new id beaconTime).Has s r := by
    intro s r h
    rw [Lock.Has, Lock.stateOf, Lock.getResource_new] at h
    cases h
  exact ⟨hnot _, hnot _, fun _ _ _ h => (by cases h)⟩

lemma DLPacket.Contests.mono {A B : Name → Prop} {p : DLPacket} (h : p.Contests A)
    (hAB : ∀ r, A r → B r) : p.Contests B := h.imp_right (And.imp_left (hAB _))

/-- A step of the process `i` of its own accord. -/
def FleetMove.ofMain {ι : Type*} [DecidableEq ι] (i : ι) : FleetMove ι → Bool
  | .child j e => decide (j = i) && e.ofMain
  | .kill _ | .deliver _ _ => false

namespace Fleet

variable {ι : Type*}

/-- There is no object `dl` in the process. -/
def Gone (F : Fleet ι) (j : ι) : Prop := ∀ pc ∈ F.pc j, pc.hasDl = false

/-- The process has ended, or it has been killed. -/
def Ended (F : Fleet ι) (j : ι) : Prop := ∀ pc ∈ F.pc j, ∃ code, pc = .exited code

/-- The processes in `Q` say nothing to `i` that contests a resource in `A`. -/
structure Silent (A : Name → Prop) (Q : ι → Prop) (i : ι) (F : Fleet ι) : Prop where
  packets : ∀ j, ∀ d ∈ F.net.chan j i, ∃ p, DLPacket.ofPayload d.payload = some p ∧
    (j = i → p.memberId = (F.net.inst i).lock.id) ∧ (Q j → ¬ p.Contests A)
  meek : ∀ j, Q j ∨ F.Gone j → (F.net.inst j).Meek

variable [DecidableEq ι] {o : ι → Options} {A : Name → Prop} {Q : ι → Prop} {i j : ι}
  {F F' : Fleet ι} {m : FleetMove ι} {I' : Inst} {sent : List DLPacket}

lemma pc_afterChild_self {s : Child} : (F.afterChild i s).pc i = some s.pc :=
  Function.update_self ..

lemma pc_afterChild_of_ne {s : Child} (h : j ≠ i) : (F.afterChild i s).pc j = F.pc j :=
  Function.update_of_ne h ..

lemma pc_afterKill_self : (F.afterKill i).pc i = none := Function.update_self ..

lemma pc_afterKill_of_ne (h : j ≠ i) : (F.afterKill i).pc j = F.pc j := Function.update_of_ne h ..

omit [DecidableEq ι] in
lemma Ended.gone (h : F.Ended j) : F.Gone j := by
  intro pc hpc
  obtain ⟨code, rfl⟩ := h pc hpc
  rfl

/-- Who has ended does not come back. -/
lemma ended_step (h : F.Ended j) (hs : F.step o m = some F') : F'.Ended j := by
  rcases step_inv hs with ⟨l, e, pc, s, -, -, hpc, hstep, rfl⟩ | ⟨l, -, rfl⟩ |
    ⟨l, l', net, -, -, rfl⟩
  · rcases eq_or_ne j l with rfl | hj
    · obtain ⟨code, rfl⟩ := h pc hpc
      have hnone : (F.child j (.exited code)).step (o j) e = none := Child.step_exited rfl rfl
      rw [hnone] at hstep
      cases hstep
    · intro pc' hpc'
      exact h pc' (by rwa [pc_afterChild_of_ne hj] at hpc')
  · intro pc' hpc'
    rcases eq_or_ne j l with rfl | hj
    · rw [pc_afterKill_self] at hpc'
      cases hpc'
    · exact h pc' (by rwa [pc_afterKill_of_ne hj] at hpc')
  · exact h

/-- Who has ended or asks a question goes on so. -/
lemma others_step (h : ∀ j, j ≠ i → (o j).Questions ∨ F.Ended j) (hs : F.step o m = some F') :
    ∀ j, j ≠ i → (o j).Questions ∨ F'.Ended j := fun j hj =>
  (h j hj).imp_right fun hend => ended_step hend hs

/-- A step of the process `j` to the instance `I'`. -/
lemma silent_act (h : F.Silent A Q i) (hnet : F'.net = F.net.afterAct j I' sent)
    (hpc : ∀ l, l ≠ j → F'.pc l = F.pc l) (hid : I'.lock.id = (F.net.inst j).lock.id)
    (hsent : ∀ p ∈ sent, p.memberId = I'.lock.id ∧
      (Q j → ∀ p' : DLPacket, p'.state = p.state → ¬ p'.Contests A))
    (hmeek : Q j ∨ F'.Gone j → I'.Meek) : F'.Silent A Q i := by
  have hids : (F'.net.inst i).lock.id = (F.net.inst i).lock.id := by
    rw [hnet]
    rcases eq_or_ne i j with rfl | hi
    · rw [Sys.inst_afterAct_self, hid]
    · rw [Sys.inst_afterAct_of_ne hi]
  refine ⟨fun l d hd => ?_, fun l hl => ?_⟩
  · rw [hids]
    -- a packet on its way is an old one, or has been sent in this step
    have hd' : d ∈ F.net.chan l i ∨ l = j ∧ ∃ p ∈ sent, d.payload = p.build := by
      rw [hnet] at hd
      change d ∈ (if l = j then _ else _) at hd
      split_ifs at hd with hl
      · refine (List.mem_append.mp hd).imp_right fun hd => ⟨hl, ?_⟩
        obtain ⟨p, hp, rfl⟩ := List.mem_map.mp hd
        exact ⟨p, hp, rfl⟩
      · exact .inl hd
    rcases hd' with hd | ⟨rfl, p, hp, hpay⟩
    · exact h.packets l d hd
    · obtain ⟨hmem, hnot⟩ := hsent p hp
      have hdec := DLPacket.ofPayload_build p
      rw [← hpay] at hdec
      refine ⟨_, hdec, ?_, fun hl => hnot hl _ rfl⟩
      rintro rfl
      exact hmem.trans hid
  · rw [hnet]
    rcases eq_or_ne l j with rfl | hj
    · rw [Sys.inst_afterAct_self]
      exact hmeek hl
    · rw [Sys.inst_afterAct_of_ne hj]
      refine h.meek l (hl.imp_right fun hg pc hl => hg pc ?_)
      rwa [hpc l hj]

/-- **The silent ones stay silent.** -/
lemma silent_step (hQ : ∀ j, Q j → (o j).Questions ∨ F.Ended j) (h : F.Silent A Q i)
    (hd : F.Draws m) (hs : F.step o m = some F') : F'.Silent A Q i := by
  rcases step_inv hs with ⟨j, e, pc, s, rfl, -, hpc, hstep, rfl⟩ | ⟨j, -, rfl⟩ |
    ⟨l, j, net, -, hnet, rfl⟩
  · have hpc' : ∀ l, l ≠ j → (F.afterChild j s).pc l = F.pc l := fun _ => pc_afterChild_of_ne
    have hlive : s.pc.hasDl = true → ¬ (F.afterChild j s).Gone j := fun hdl hg => by
      have hno := hg s.pc pc_afterChild_self
      rw [hdl] at hno
      cases hno
    cases Child.turn_step hstep with
    | exit code hs' =>
      subst hs'
      exact silent_act h rfl hpc' rfl (fun p hp => absurd hp List.not_mem_nil)
        fun _ => Inst.meek_new
    -- the new instance has the id with which the process has started
    | construct id he hs' =>
      subst he hs'
      exact silent_act h rfl hpc' hd (fun p hp => absurd hp List.not_mem_nil)
        fun _ => Inst.meek_new
    | flow pc' st hdl hs' =>
      subst hs'
      have hnet : (F.afterChild j { F.child j pc with pc := pc', status := st }).net =
          F.net.afterAct j (if pc.hasDl then F.net.inst j else (F.net.inst j).absent) [] := by
        rw [afterChild, child]
        cases pc.hasDl <;> rfl
      refine silent_act h hnet hpc' ?_ (fun p hp => absurd hp List.not_mem_nil) fun hj => ?_
      · cases pc.hasDl <;> rfl
      · have hmeek : (F.net.inst j).Meek := h.meek j (.inl (hj.resolve_right (hlive hdl)))
        cases pc.hasDl with
        | true => exact hmeek
        | false => exact Inst.meek_new
    -- the only step that sends anything: a process in `Q` that has an instance asks questions
    | act pc' ev I I' sent hI hs' hdl heq hc =>
      subst heq
      obtain ⟨hpcdl, rfl⟩ : pc.hasDl = true ∧ F.net.inst j = I := by
        change (if pc.hasDl then some (F.net.inst j) else none) = some I at hI
        split_ifs at hI with hif
        exact ⟨hif, Option.some.inj hI⟩
      have hmeek : Q j → I'.Meek := by
        intro hj
        refine Inst.meek_step (h.meek j (.inl hj)) (fun c hcall => ?_) hs'
        rcases hQ j hj with hq | hend
        · exact hc c hcall hq
        · rw [hend.gone pc hpc] at hpcdl
          cases hpcdl
      refine silent_act h rfl hpc' (Inst.step_id hs') (fun p hp => ⟨?_, fun hj p' hst => ?_⟩)
        fun hj => hmeek (hj.resolve_right (hlive (hdl hpcdl)))
      · obtain ⟨r, R, -, rfl, -⟩ := Inst.mem_sent hs' hp
        rfl
      · exact Inst.not_contests (hmeek hj) hs' hp hst
  · exact silent_act h rfl (fun _ => pc_afterKill_of_ne) rfl
      (fun p hp => absurd hp List.not_mem_nil) fun _ => Inst.meek_new
  · refine ⟨fun l' d hd => ?_, fun l' hl => ?_⟩
    · have hid : (net.inst i).lock.id = (F.net.inst i).lock.id := by
        rcases Sys.step_inst hnet i with ⟨hsame, -⟩ | ⟨e, sent, hI, -⟩
        · rw [hsame]
        · exact Inst.step_id hI
      rcases Sys.mem_chan_step hnet hd with hold | ⟨e, sent, p, hm, -⟩
      · obtain ⟨p, hp, hown, hq⟩ := h.packets l' d hold
        exact ⟨p, hp, fun hl => (hown hl).trans hid.symm, hq⟩
      · cases hm
    · show (net.inst l').Meek
      rcases Sys.step_inst hnet l' with ⟨hsame, -⟩ | ⟨e, sent, hI, hm⟩
      · rw [hsame]
        exact h.meek l' hl
      · refine Inst.meek_step (h.meek l' hl) ?_ hI
        rintro c rfl
        obtain ⟨hm, -⟩ | ⟨_, _, _, _, -, -, -, hp⟩ := hm
        · cases hm
        · cases hp

/-! ### The process that starts after the others -/

/-- The process `i` is not killed, its constructor and `fork` succeed, and its listening and
collision waits do not end spuriously. -/
def Smooth (i : ι) (F : Fleet ι) : FleetMove ι → Prop
  | .child j (.dl .wake) => j = i → (F.net.inst i).inWindow = false
  | .child j (.constructed none) => j ≠ i
  | .child j (.forked pid) => j = i → 0 ≤ pid
  | .kill j => j ≠ i
  | _ => True

instance (i : ι) (F : Fleet ι) : (m : FleetMove ι) → Decidable (F.Smooth i m)
  | .child j (.dl .wake) => inferInstanceAs (Decidable (j = i → (F.net.inst i).inWindow = false))
  | .child j (.constructed none) => inferInstanceAs (Decidable (j ≠ i))
  | .child j (.forked pid) => inferInstanceAs (Decidable (j = i → 0 ≤ pid))
  | .kill j => inferInstanceAs (Decidable (j ≠ i))
  | .child _ (.constructed (some _)) | .child _ .main | .child _ (.waited _ _) | .deliver _ _
  | .child _ (.dl (.call _)) | .child _ (.dl .run) | .child _ (.dl .timeout)
  | .child _ (.dl (.elapsed _)) | .child _ (.dl (.beacon _)) | .child _ (.dl (.deliver _)) =>
    isTrue trivial

/-- How many steps are left of the process at most. -/
def left (o : ι → Options) (i : ι) (F : Fleet ι) : ℕ :=
  (F.pc i).elim 0 fun pc => (F.child i pc).left (o i)

/-- The process `i` is on its way, and nobody is going to contest its resources. -/
structure Succeeds (o : ι → Options) (i : ι) (F : Fleet ι) : Prop where
  silent : F.Silent (· ∈ (o i).resMap.keys) (· ≠ i) i
  others : ∀ j, j ≠ i → (o j).Questions ∨ F.Ended j
  way : ∃ pc, F.pc i = some pc ∧ (F.child i pc).OnWay (o i)

/-- What the process is after its step. -/
lemma child_afterChild {s : Child} (h : s.dl.isSome = s.pc.hasDl) :
    (F.afterChild i s).child i s.pc = { s with sent := [] } := by
  have hdl : (if s.pc.hasDl then some ((F.afterChild i s).net.inst i) else none) = s.dl := by
    have hinst : (F.afterChild i s).net.inst i = s.dl.getD (F.net.inst i).absent :=
      Sys.inst_afterAct_self
    rw [hinst, ← h]
    cases s.dl <;> rfl
  have hstatus : (F.afterChild i s).status i = s.status := Function.update_self ..
  rw [child, hdl, hstatus]

omit [DecidableEq ι] in
/-- A process that nothing has happened to. -/
lemma child_congr {pc : ChildPc} (hinst : F'.net.inst i = F.net.inst i)
    (hstatus : F'.status i = F.status i) : F'.child i pc = F.child i pc := by
  rw [child, child, hinst, hstatus]

/-- A step of the group, as the process `i` sees it. -/
inductive Seen (o : ι → Options) (i : ι) (F : Fleet ι) (m : FleetMove ι) (F' : Fleet ι) : Prop
  | killed (hm : m = .kill i) (hpc : F'.pc i = none)
  | idle (hown : m.ofMain i = false) (hpc : F'.pc i = F.pc i)
    (h : ∀ pc, F.pc i = some pc → F'.child i pc = F.child i pc)
  | turn (pc : ChildPc) (e : ChildEvent) (s : Child) (hpc : F.pc i = some pc)
    (hs : (F.child i pc).step (o i) e = some s) (hown : e.ofMain = m.ofMain i)
    (hfrom : (m = .child i e ∧ ∀ p, e ≠ .dl (.deliver p)) ∨
      ∃ l, ∃ d ∈ F.net.chan l i, ∃ p, DLPacket.ofPayload d.payload = some p ∧
        e = .dl (.deliver p))
    (hpc' : F'.pc i = some s.pc)
    (h : s.dl.isSome = s.pc.hasDl → F'.child i s.pc = { s with sent := [] })

/-- A delivery, as the process `i` sees it. -/
lemma seen_deliver {l : ι} {net : Sys ι} (hnet : F.net.step (.deliver l j) = some net) :
    Seen o i F (.deliver l j) { F with net := net } := by
  rcases Sys.step_inst hnet i with ⟨hsame, -⟩ | ⟨e, sent, hI, hm⟩
  · exact .idle rfl rfl fun _ _ => child_congr hsame rfl
  · obtain ⟨hm, -⟩ | ⟨l', d, rest, p, hm, hchan, hp, rfl⟩ := hm
    · cases hm
    · obtain ⟨rfl, rfl⟩ := Move.deliver.inj hm
      have hd : d ∈ F.net.chan l j := by
        rw [hchan]
        exact List.mem_cons_self
      by_cases hlive : ∃ pc, F.pc j = some pc ∧ pc.hasDl = true
      · obtain ⟨pc, hpc, hlive⟩ := hlive
        have hstep : (F.child j pc).step (o j) (.dl (.deliver p)) =
            some { F.child j pc with dl := some (net.inst j), sent := sent } := by
          have hdl : (F.child j pc).dl = some (F.net.inst j) := if_pos hlive
          rw [Child.step, hdl, if_neg (by simp [Event.isCall])]
          rw [Option.bind_some, hI]
          rfl
        refine .turn pc _ _ hpc hstep rfl (.inr ⟨l, d, hd, p, hp, rfl⟩) hpc fun _ => ?_
        show Fleet.child { F with net := net } j pc = _
        rw [child, child, hlive]
        rfl
      · -- without an object `dl` nobody receives the packet
        refine .idle rfl rfl fun pc hpc => ?_
        have hdead : pc.hasDl = false := by
          rw [← Bool.not_eq_true]
          exact fun h => hlive ⟨pc, hpc, h⟩
        rw [child, child, hdead]
        rfl

/-- **Every step of the group is seen** by the process `i` as one of its own steps or not at all. -/
lemma seen_step (hs : F.step o m = some F') : Seen o i F m F' := by
  rcases step_inv hs with ⟨j, e, pc, s, rfl, hdel, hpc, hstep, rfl⟩ | ⟨j, rfl, rfl⟩ |
    ⟨l, j, net, rfl, hnet, rfl⟩
  · rcases eq_or_ne i j with rfl | hj
    · refine .turn pc e s hpc hstep ?_ (.inl ⟨rfl, hdel⟩) pc_afterChild_self child_afterChild
      rw [FleetMove.ofMain, decide_eq_true rfl, Bool.true_and]
    · refine .idle ?_ (pc_afterChild_of_ne hj) fun _ _ =>
        child_congr (Sys.inst_afterAct_of_ne hj) (Function.update_of_ne hj ..)
      rw [FleetMove.ofMain, decide_eq_false hj.symm, Bool.false_and]
  · rcases eq_or_ne i j with rfl | hj
    · exact .killed rfl pc_afterKill_self
    · exact .idle rfl (pc_afterKill_of_ne hj) fun _ _ =>
        child_congr (Sys.inst_afterAct_of_ne hj) rfl
  · exact seen_deliver hnet

omit [DecidableEq ι] in
/-- What happens in the process by itself does not contest. -/
lemma calm_of_smooth {pc : ChildPc} {e : ChildEvent} {s : Child} (hc : F.Smooth i (.child i e))
    (hdel : ∀ p, e ≠ .dl (.deliver p)) (hs : (F.child i pc).step (o i) e = some s) :
    (F.child i pc).Calm e := by
  cases e with
  | dl ev =>
    rintro I hI
    cases ev with
    | call c => cases hs
    | deliver p => exact absurd rfl (hdel p)
    | wake =>
      change (if pc.hasDl then some (F.net.inst i) else none) = some I at hI
      split_ifs at hI
      obtain rfl := Option.some.inj hI
      exact hc rfl
    | _ => trivial
  | constructed id =>
    rintro rfl
    exact hc rfl
  | forked pid => exact hc rfl
  | main | waited r status => trivial

omit [DecidableEq ι] in
/-- What the others have said does not contest. -/
lemma calm_of_silent {pc : ChildPc} {p : DLPacket} {l : ι} {d : Datagram}
    (h : F.Silent (· ∈ (o i).resMap.keys) (· ≠ i) i)
    (hnames : ∀ I, (F.child i pc).dl = some I → ∀ r ∈ I.lock.names, r ∈ (o i).resMap.keys)
    (hd : d ∈ F.net.chan l i) (hp : DLPacket.ofPayload d.payload = some p) :
    (F.child i pc).Calm (.dl (.deliver p)) := by
  intro I hI
  have hI' : (F.child i pc).dl = some I := hI
  have hinst : F.net.inst i = I := by
    change (if pc.hasDl then some (F.net.inst i) else none) = some I at hI'
    split_ifs at hI'
    exact Option.some.inj hI'
  refine Inst.calm_of_not_contests (hnames I hI') rfl (fun hw => by cases hw) fun p' hp' haddr => ?_
  obtain rfl := Event.deliver.inj hp'
  obtain ⟨p', hdec, hown, hnot⟩ := h.packets l d hd
  obtain rfl := Option.some.inj (hp.symm.trans hdec)
  refine hnot fun hl => haddr ?_
  -- the packets of the instance itself are ignored
  rw [Inst.addressee, if_pos (by rw [hown hl, hinst])]

omit [DecidableEq ι] in
/-- Nothing that happens in the process contests. -/
lemma calm_of_seen {pc : ChildPc} {e : ChildEvent} {s : Child}
    (h : F.Silent (· ∈ (o i).resMap.keys) (· ≠ i) i)
    (hnames : ∀ I, (F.child i pc).dl = some I → ∀ r ∈ I.lock.names, r ∈ (o i).resMap.keys)
    (hc : F.Smooth i m) (hs : (F.child i pc).step (o i) e = some s)
    (hfrom : (m = .child i e ∧ ∀ p, e ≠ .dl (.deliver p)) ∨
      ∃ l, ∃ d ∈ F.net.chan l i, ∃ p, DLPacket.ofPayload d.payload = some p ∧
        e = .dl (.deliver p)) : (F.child i pc).Calm e := by
  rcases hfrom with ⟨rfl, hdel⟩ | ⟨l, d, hd, p, hp, rfl⟩
  · exact calm_of_smooth hc hdel hs
  · exact calm_of_silent h hnames hd hp

/-- **Every step keeps the process on its way**, and its own steps count down. -/
lemma succeeds_step (ho : (o i).Asks) (h : F.Succeeds o i) (hd : F.Draws m) (hc : F.Smooth i m)
    (hs : F.step o m = some F') :
    F'.Succeeds o i ∧ F'.left o i + (m.ofMain i).toNat ≤ F.left o i := by
  have hsilent : F'.Silent (· ∈ (o i).resMap.keys) (· ≠ i) i :=
    silent_step h.others h.silent hd hs
  have hothers := others_step h.others hs
  obtain ⟨pc, hpc, hway⟩ := h.way
  cases seen_step (i := i) hs with
  | killed hm _ =>
    subst hm
    exact absurd rfl hc
  | idle hown hpc' hsame =>
    refine ⟨⟨hsilent, hothers, pc, hpc'.trans hpc, by rwa [hsame pc hpc]⟩, ?_⟩
    rw [hown, left, left, hpc', hpc]
    exact (congrArg (Child.left (o i)) (hsame pc hpc)).le
  | turn pc₁ e s hpc₁ hstep hown hfrom hpc' hchild =>
    obtain rfl := Option.some.inj (hpc₁.symm.trans hpc)
    have hcalm : (F.child i pc₁).Calm e :=
      calm_of_seen h.silent (fun I hI r hr => (hway.inst hI).names hr) hc hstep hfrom
    obtain ⟨hway', hleft⟩ := Child.onWay_step ho hway hcalm hstep
    have hchild := hchild hway'.isSome
    refine ⟨⟨hsilent, hothers, s.pc, hpc', ?_⟩, ?_⟩
    · rw [hchild]
      exact hway'
    · rw [← hown, left, left, hpc', hpc]
      show (F'.child i s.pc).left (o i) + _ ≤ (F.child i pc₁).left (o i)
      rw [hchild]
      exact hleft

variable {id : ι → UInt32} {F₀ : Fleet ι} {ms ms' : List (FleetMove ι)}

omit [DecidableEq ι] in
lemma silent_start : (start id).Silent A Q i where
  packets _ _ hd := absurd hd List.not_mem_nil
  meek _ _ := Inst.meek_new

/-- Who has ended or asks a question says nothing that contests, once the packets of those who have
ended have arrived. -/
lemma silent_of_quiet (hrun : Run (step o) (fun F m => F.Draws m) (start id) ms F)
    (hothers : ∀ j, j ≠ i → (o j).Questions ∨ F.Ended j)
    (hquiet : ∀ j, j ≠ i → F.Ended j → ∀ d ∈ F.net.chan j i, ∀ p,
      DLPacket.ofPayload d.payload = some p → ¬ p.Contests A) : F.Silent A (· ≠ i) i := by
  have hknown : F.Silent (fun _ => True) (fun j => (o j).Questions) i :=
    hrun.invariant (fun _ _ _ h hd hs => silent_step (fun _ => .inl) h hd hs) silent_start
  refine ⟨fun j d hd => ?_, fun j hj => hknown.meek j ?_⟩
  · obtain ⟨p, hp, hown, hnot⟩ := hknown.packets j d hd
    refine ⟨p, hp, hown, fun hj => ?_⟩
    rcases hothers j hj with hq | hend
    · exact fun hcon => hnot hq (hcon.mono fun _ _ => trivial)
    · exact hquiet j hj hend d hd p hp
  · rcases hj with hj | hgone
    · exact (hothers j hj).imp_right Ended.gone
    · exact .inr hgone

/-- `dist_lock -r a -- b` up to the start of the command, with the random number `id`. -/
def untilCommand (id : UInt32) : List ChildEvent :=
  .constructed (some id) :: Child.untilAcquired.tail ++ [.main, .forked 42]

/-- The second process starts its command and is killed; the first one does not hear anything of
it, because it has not constructed its instance yet. -/
def startsAndIsKilled : List (FleetMove Bool) :=
  (untilCommand 1).map (.child true) ++ List.replicate 4 (.deliver true false) ++ [.kill true]

end Fleet
end DistLock
