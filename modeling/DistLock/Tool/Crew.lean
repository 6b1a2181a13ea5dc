/-
A group of processes of the command-line tool (`dist_lock.cc`) on one network, with the threads of
their instances.

The processes are those of `DistLock.Tool.Fleet`: each runs `main` with options of its own, starts
and ends at any time, with every exit code, and may be killed at any moment.  `main` is the calling
thread of its instance `dl`, beside which the threads of the resources run as in
`DistLock.System.Group`.  They end with the process, and what they have built is not sent any
more.

The processes that have acquired and wait for their commands never exceed the count of a
resource, as long as the threads of the resource send in turn (`Crew.card_running_le`).
-/
import DistLock.Lib.Departure
import DistLock.System.Usage
import DistLock.Tool.Fleet

namespace DistLock

open DLPacket (FitsWire)
open Lib (Run)

/-- What `main` knows about its instance at each of its positions. -/
def ChildPc.Holds (o : Options) (I : Inst) : ChildPc → Prop
  | defining rest | defined rest =>
    (∀ d ∈ rest, d ∈ o.resMap.entries) ∧
      ∀ n ∈ o.resMap.keys, n ∈ I.lock.names ∨ n ∈ rest.map Sigma.fst
  | dispatching => o.resMap.keys ≠ [] ∧ ∀ n ∈ o.resMap.keys, n ∈ I.lock.names
  | acquiring => (∀ n ∈ o.resMap.keys, n ∈ I.lock.names) ∧ I.Acquiring none
  | forking | waiting _ | waited =>
    (∀ n ∈ o.resMap.keys, n ∈ I.lock.names) ∧ I.Acquiring none ∧ I.ctl = .free (some true)
  | _ => True

/-- Whatever the command line says about `r`, its count is `k`; all names fit onto the wire. -/
structure Options.Agrees (r : Name) (k : UInt32) (o : Options) : Prop where
  fits : ∀ n ∈ o.resMap.keys, FitsWire n
  pos : ∀ n c, o.resMap.find? n = some c → 1 ≤ c
  count : ∀ c, o.resMap.find? r = some c → c = k
  resource : FitsWire o.resource ∧ (o.resource = r → r ∈ o.resMap.keys ∨ k = 1)

/-! ### One process -/

namespace Child

section

variable {o : Options} {s s' : Child} {I I' : Inst} {e : Event} {c : Call} {pc : ChildPc}
  {sent : List DLPacket} {r : Name} {k : UInt32} {ce : ChildEvent}

/-- Whatever happens inside the instance leaves what `main` knows as it is. -/
lemma holds_step (h : pc.Holds o I) (he : e.isCall = false) (hs : I.step e = some (I', sent)) :
    pc.Holds o I' := by
  have hnames := (Inst.frame_step he hs).names_eq
  have hfree : ∀ {b}, I.ctl = .free b → I'.ctl = .free b := by
    intro b hctl
    rcases Inst.step_cases he hs with ⟨rfl, hr⟩ | ⟨-, hr⟩
    · exact absurd hr (by simp [Inst.run, hctl])
    · rcases hr with h | h | h | ⟨n, h⟩
      · rw [h]
        exact hctl
      · exact absurd h (by simp [Inst.onWake, hctl])
      · exact absurd h (by simp [Inst.onTimeout, hctl])
      · exact absurd h (by simp [Inst.onElapsed, hctl])
  cases pc with
  | defining rest | defined rest =>
    refine ⟨h.1, ?_⟩
    rw [hnames]
    exact h.2
  | dispatching =>
    refine ⟨h.1, ?_⟩
    rw [hnames]
    exact h.2
  | acquiring =>
    refine ⟨?_, Inst.acquiring_step he h.2 hs⟩
    rw [hnames]
    exact h.1
  | forking | waiting pid | waited =>
    refine ⟨?_, Inst.acquiring_step he h.2.1 hs, hfree h.2.2⟩
    rw [hnames]
    exact h.1
  | _ => trivial

/-- The effect of a step of the process on its instance. -/
inductive Effect (o : Options) (r : Name) (k : UInt32) (s : Child) (I : Inst) (s' : Child) : Prop
  | exit (code : UInt32) (h : s' = s.exit code)
  | flow (pc : ChildPc) (st : UInt32) (h : s' = { s with pc := pc, status := st })
    (hpc : pc.Holds o I) (hdl : pc.hasDl = true)
  | call (pc : ChildPc) (c : Call) (hc : c.Proper r k I.lock)
    (hs : I.step (.call c) = some (Inst.enter I.lock c, []))
    (h : s' = { s with dl := some (Inst.enter I.lock c), pc := pc, sent := s.sent ++ [] })
    (hpc : pc.Holds o (Inst.enter I.lock c)) (hdl : pc.hasDl = true)

/-- `main` calls a function of the instance. -/
lemma effect_call (h : s.call I c pc = some s') (hc : c.Proper r k I.lock)
    (hpc : pc.Holds o (Inst.enter I.lock c)) (hdl : pc.hasDl = true) :
    Effect o r k s I s' := by
  obtain ⟨I', sent, hs, rfl⟩ := call_inv h
  obtain ⟨-, rfl, rfl⟩ := Inst.step_call hs
  exact .call pc c hc hs rfl hpc hdl

/-- The call of `defineResource` for an entry of the map. -/
lemma effect_define (ha : o.Agrees r k) {d : (_ : Name) × UInt32}
    {rest : List ((_ : Name) × UInt32)} (hpc : (ChildPc.defining (d :: rest)).Holds o I)
    (h : s.call I (.defineResource d.1 d.2) (.defined rest) = some s') :
    Effect o r k s I s' := by
  obtain ⟨hsub, hcov⟩ := hpc
  have hd : o.resMap.find? d.1 = some d.2 :=
    Lib.OrdMap.mem_entries_iff.mp (hsub d List.mem_cons_self)
  have hmem : d.1 ∈ o.resMap.keys := Lib.OrdMap.mem_keys_iff.mpr ⟨d.2, hd⟩
  refine effect_call h ⟨ha.fits d.1 hmem, ?_⟩ ?_ rfl
  · intro hr
    have hk : d.2 = k := ha.count d.2 (hr ▸ hd)
    split_ifs with hlt
    · exact hk
    · refine .inr (hk.symm.trans ?_)
      exact UInt32.le_antisymm (UInt32.not_lt.mp hlt) (ha.pos d.1 d.2 hd)
  · refine ⟨fun d' hd' => hsub d' (List.mem_cons_of_mem d hd'), fun n hn => ?_⟩
    rw [Inst.mem_names_enter]
    rcases hcov n hn with hn | hn
    · exact .inl (.inr hn)
    · rcases List.mem_cons.mp hn with rfl | hn
      · exact .inl (.inl rfl)
      · exact .inr hn

/-- The call of `acquire`. -/
lemma effect_acquire (hpc : ChildPc.dispatching.Holds o I)
    (h : s.call I (.acquire []) .acquiring = some s') : Effect o r k s I s' := by
  obtain ⟨hne, hnames⟩ := hpc
  refine effect_call h (.inl rfl) ?_ rfl
  obtain ⟨n, hn⟩ := List.exists_mem_of_ne_nil _ hne
  have hne' : I.lock.names ≠ [] := List.ne_nil_of_mem (hnames n hn)
  obtain ⟨heq, hacq⟩ := Inst.acquiring_enter hne'
  refine ⟨?_, hacq⟩
  rw [heq]
  exact hnames

/-- A step of `main` that is not a system call. -/
lemma effect_main (ha : o.Agrees r k) (hpc : s.pc.Holds o I) (h : s.mainStep o I = some s') :
    Effect o r k s I s' := by
  cases branch_of_mainStep h with
  | undefined _ _ h | empty _ h | usage _ _ h | refused _ h | ended _ h | destroyed _ h =>
    exact .exit _ h
  | limit _ h =>
    refine effect_call h trivial ?_ rfl
    exact ⟨fun d hd => hd, fun n hn => .inr hn⟩
  | define d rest hs h =>
    rw [hs] at hpc
    exact effect_define ha hpc h
  | next rest hs _ h =>
    rw [hs] at hpc
    exact .flow (.defining rest) s.status h hpc rfl
  | dispatch hs hlen h =>
    -- after the last entry of the map everything that it names is defined
    rw [hs] at hpc
    refine .flow .dispatching s.status h ⟨?_, ?_⟩ rfl
    · rw [← List.length_pos_iff, Lib.OrdMap.length_keys]
      exact hlen
    · exact fun n hn => (hpc.2 n hn).resolve_right List.not_mem_nil
  | ask q hs _ h =>
    rw [hs] at hpc
    refine effect_call h ⟨ha.resource.1, fun hr => ?_⟩ trivial rfl
    exact (ha.resource.2 hr).imp_left (hpc.2 r)
  | acquire hs _ h =>
    rw [hs] at hpc
    exact effect_acquire hpc h
  | acquired hs hctl h =>
    rw [hs] at hpc
    exact .flow .forking s.status h ⟨hpc.1, hpc.2, hctl⟩ rfl
  | skip _ _ h | finish _ h => exact .flow .deleting s.status h trivial rfl
  | answer b _ _ h => exact .flow .deleting _ h trivial rfl
  | release _ h | delete _ h => exact effect_call h trivial trivial rfl

/-- **The effect of a step of the process**, after the construction of its instance. -/
lemma effect_step (ha : o.Agrees r k) (hdl : s.dl = some I) (hcon : s.pc ≠ .constructing)
    (hpc : s.pc.Holds o I) (he : ∀ e, ce ≠ .dl e) (h : s.step o ce = some s') :
    Effect o r k s I s' := by
  cases transition_of_step h with
  | dl e => exact absurd rfl (he e)
  | main J s' hJ h =>
    obtain rfl := Option.some.inj (hdl.symm.trans hJ)
    exact effect_main ha hpc h
  | construct id hs | throws hs => exact absurd hs hcon
  | forkFails => exact .exit _ rfl
  | forks pid hs =>
    rw [hs] at hpc
    exact .flow (.waiting pid) s.status rfl hpc rfl
  | waits pid r status hs =>
    rw [hs] at hpc
    exact .flow .waited _ rfl hpc rfl

end

end Child

/-! ### The instance of a process with its threads -/

/-- `main` gives the resource its count. -/
def Readiness.counted (R : Readiness) (count : UInt32) : Readiness :=
  { R with threads := { R.threads with res := { R.threads.res with count := count } } }

lemma Readiness.counted_self {R : Readiness} : R.counted R.threads.res.count = R := rfl

namespace Node

/-- After a step of `main` that leaves the instance as `I`.  `main` and the threads share the
resources. -/
def follow (N : Node) (I : Inst) : Node :=
  { N with
    inst := I
    ready := fun n => (N.ready n).counted ((I.lock.getResource n).getD (.new n)).count
    late := none }

/-- Without an object `dl` there are no resources and no threads. -/
def absent (N : Node) : Node := .new N.inst.lock.id N.inst.lock.beaconTime

/-- What `main` knows about its instance, also if a wait of the calling thread returns late. -/
structure Known (o : Options) (pc : ChildPc) (N : Node) : Prop where
  inst : pc.Holds o N.inst
  late : ∀ ctl ∈ N.late, pc.Holds o ⟨N.inst.lock, ctl⟩ ∧
    (⟨N.inst.lock, ctl⟩ : Inst).waitsOn = none

variable {N N' : Node} {e : NodeEvent} {sent : List DLPacket} {n r : Name} {k : UInt32}
  {A : Name → Prop} {I : Inst} {c : Call} {o : Options} {pc : ChildPc} {id : UInt32}
  {beaconTime : UInt64}

/-- The count is all that a call changes. -/
lemma recount_counted :
    N.recount (.call c) n = (N.ready n).counted (N.recount (.call c) n).threads.res.count := by
  rw [recount]
  dsimp only
  split_ifs
  · cases c with
    | defineResource res count =>
      simp only [Inst.recount]
      split_ifs <;> rfl
    | _ => rfl
  · rfl

/-- **A call of `main` is a call of the instance with its threads.** -/
lemma step_follow (h : N.Sound) (hop : N.op = none) (hs : N.inst.step (.call c) = some (I, [])) :
    N.step (.own (.call c)) = some (N.follow I, []) := by
  have hd : N.Does (.own (.call c))
      { N with inst := I, ready := N.recount (.call c), late := none } [] := .own hop rfl hs
  have hready : (N.follow I).ready = N.recount (.call c) := by
    funext n
    -- the threads of the called instance know the count of the resource
    rw [recount_counted, (hd.tied h).res.2.1]
    rfl
  rw [step, if_neg (by simp [hop, takes]), hs, Option.map_some, ← hready]
  rfl

/-- Where `main` leaves the instance alone, nothing changes for its threads. -/
lemma follow_inst (h : N.Sound) : N.follow N.inst = { N with late := none } := by
  have hready : (N.follow N.inst).ready = N.ready := by
    funext n
    exact (congrArg _ (h.tied n).res.2.1.symm).trans Readiness.counted_self
  show { N with inst := N.inst, ready := (N.follow N.inst).ready, late := none } = _
  rw [hready]

/-- Whatever happens inside the instance and its threads leaves what `main` knows as it is. -/
lemma Does.known (hd : N.Does e N' sent) (he : e.isCall = false) (h : N.Known o pc) :
    N'.Known o pc where
  inst := by
    obtain heq | ⟨e', l, hs, hcall⟩ | ⟨ctl, hl, heq⟩ := hd.acts.cases
    · rw [heq]
      exact h.inst
    · refine Child.holds_step h.inst (Bool.eq_false_iff.mpr fun hc => ?_) hs
      rw [hcall hc] at he
      exact Bool.false_ne_true (he.symm.trans hc)
    · rw [heq]
      exact (h.late ctl hl).1
  late := by
    refine hd.keeps_late (P := fun I => pc.Holds o I) h.inst (fun I I' hI ht => ?_)
      (fun I pkt hI => ?_) h.late
    · have hs : I.step .timeout = some (I', []) := by rw [Inst.step, ht]; rfl
      exact Child.holds_step hI rfl hs
    · have hs : I.step (.deliver pkt) = some (I.actionPerformed pkt, []) := rfl
      exact Child.holds_step hI rfl hs

lemma labelled_new : (new id beaconTime).Labelled A r k n where
  op h := by cases h
  building h := by cases h
  packets m hm := by rcases hm with hm | hm <;> cases hm

end Node

/-! ### The group -/

/-- The processes of a group.  `pc i` is the position of `main` in the process `i`, or nothing
if the process has been killed; the instances of all processes are in `net`. -/
structure Crew (ι : Type*) where
  net : Group ι
  pc : ι → Option ChildPc
  status : ι → UInt32

/-- What can happen in the group: something in `main` of one process, or inside its instance; its
death, or a delivery. -/
inductive CrewMove (ι : Type*)
  | main (i : ι) (e : ChildEvent)
  | dl (i : ι) (e : NodeEvent)
  | kill (i : ι)
  | deliver (j i : ι)

namespace Crew

variable {ι : Type*} [DecidableEq ι]

/-- The process `i`. -/
def child (C : Crew ι) (i : ι) (pc : ChildPc) : Child where
  dl := if pc.hasDl then some (C.net.sys.inst i) else none
  pc := pc
  status := C.status i
  sent := []

/-- The instance of the process `i` and its threads, after a step of `main` from `pc`. -/
def nodeAfter (C : Crew ι) (i : ι) (pc : ChildPc) : Option Inst → Node
  | none => (C.net.node i).absent
  | some I =>
    if pc.hasDl then (C.net.node i).follow I else .new I.lock.id I.lock.beaconTime

/-- After a step of `main`. -/
def afterMain (C : Crew ι) (i : ι) (pc : ChildPc) (s : Child) : Crew ι where
  net := C.net.afterAct i (C.nodeAfter i pc s.dl) []
  pc := Function.update C.pc i (some s.pc)
  status := Function.update C.status i s.status

/-- After the process `i` has been killed. -/
def afterKill (C : Crew ι) (i : ι) : Crew ι where
  net := C.net.afterAct i (C.net.node i).absent []
  pc := Function.update C.pc i none
  status := C.status

/-- One step of the group.  `main` goes on when the function that it has called has returned. -/
def step (o : ι → Options) (C : Crew ι) : CrewMove ι → Option (Crew ι)
  | .main _ (.dl _) => none
  | .main i e =>
    if (C.net.op i).isSome then none
    else (C.pc i).bind fun pc => ((C.child i pc).step (o i) e).map fun s => C.afterMain i pc s
  | .dl i e =>
    if e.isCall || !(C.pc i).any ChildPc.hasDl then none
    else (C.net.step (.act i e)).map fun net => { C with net := net }
  | .kill i => (C.pc i).map fun _ => C.afterKill i
  | .deliver j i => (C.net.step (.deliver j i)).map fun net => { C with net := net }

/-- No process has done anything yet; the process `i` is going to draw the number `id i`. -/
def start (id : ι → UInt32) : Crew ι where
  net := .start (.fresh id 0 (fun _ => 1) fun _ => [])
  pc _ := some .constructing
  status _ := 0

/-- The random numbers of the constructor. -/
def Draws (C : Crew ι) : CrewMove ι → Prop
  | .main i (.constructed (some id)) => id = (C.net.sys.inst i).lock.id
  | _ => True

/-- The assumption about the timers, for the resources in `P`. -/
def TimerOk [Fintype ι] (P : Name → Prop) (C : Crew ι) : CrewMove ι → Prop
  | .dl i e => C.net.TimerOk P (.act i e)
  | _ => True

/-- The condition on the steps of the threads of the resources in `P`. -/
def InTurn (P : Name → Prop) (C : Crew ι) : CrewMove ι → Prop
  | .dl i e => C.net.InTurn P (.act i e)
  | _ => True

instance (C : Crew ι) : (m : CrewMove ι) → Decidable (C.Draws m)
  | .main i (.constructed (some id)) =>
    inferInstanceAs (Decidable (id = (C.net.sys.inst i).lock.id))
  | .main _ (.constructed none) | .main _ (.dl _) | .main _ .main | .main _ (.forked _)
  | .main _ (.waited _ _) | .dl _ _ | .kill _ | .deliver _ _ => isTrue trivial

instance [Fintype ι] (P : Name → Prop) [DecidablePred P] (C : Crew ι) :
    (m : CrewMove ι) → Decidable (C.TimerOk P m)
  | .dl i e => inferInstanceAs (Decidable (C.net.TimerOk P (.act i e)))
  | .main _ _ | .kill _ | .deliver _ _ => isTrue trivial

instance (P : Name → Prop) [DecidablePred P] (C : Crew ι) :
    (m : CrewMove ι) → Decidable (C.InTurn P m)
  | .dl i e => inferInstanceAs (Decidable (C.net.InTurn P (.act i e)))
  | .main _ _ | .kill _ | .deliver _ _ => isTrue trivial

/-- The processes that have acquired `r` and run their commands. -/
def running [Fintype ι] (o : ι → Options) (C : Crew ι) (r : Name) : Finset ι :=
  Finset.univ.filter fun i => (C.pc i).any ChildPc.runs && ((o i).resMap.find? r).isSome

/-- The invariant of the group. -/
structure Sound (o : ι → Options) (r : Name) (k : UInt32) (C : Crew ι) : Prop where
  net : C.net.Sound FitsWire r k fun _ L => L.Fits
  pc : ∀ i pc, C.pc i = some pc → (C.net.node i).Known (o i) pc

/-! ### What a step can do -/

section

variable {o : ι → Options} {C C' : Crew ι} {m : CrewMove ι}

/-- All steps. -/
inductive Does (o : ι → Options) (C : Crew ι) : CrewMove ι → Crew ι → Prop
  | main {i : ι} {e : ChildEvent} {pc : ChildPc} {s : Child} (he : ∀ e', e ≠ .dl e')
    (hop : C.net.op i = none) (hpc : C.pc i = some pc)
    (hs : (C.child i pc).step (o i) e = some s) : Does o C (.main i e) (C.afterMain i pc s)
  | dl {i : ι} {e : NodeEvent} {net : Group ι} (he : e.isCall = false)
    (hs : C.net.step (.act i e) = some net) : Does o C (.dl i e) { C with net := net }
  | kill (i : ι) : Does o C (.kill i) (C.afterKill i)
  | deliver {j i : ι} {net : Group ι} (hs : C.net.step (.deliver j i) = some net) :
    Does o C (.deliver j i) { C with net := net }

lemma does_of_step (hs : C.step o m = some C') : Does o C m C' := by
  cases m with
  | main i e =>
    have he : ∀ e', e ≠ .dl e' := by
      rintro e' rfl
      cases hs
    have hs' : (if (C.net.op i).isSome then none else (C.pc i).bind fun pc =>
        ((C.child i pc).step (o i) e).map fun s => C.afterMain i pc s) = some C' := by
      cases e with
      | dl e' => exact absurd rfl (he e')
      | _ => exact hs
    split_ifs at hs' with hop
    obtain ⟨pc, hpc, h⟩ := Option.bind_eq_some_iff.mp hs'
    obtain ⟨s, hstep, rfl⟩ := Option.map_eq_some_iff.mp h
    exact .main he (by simpa using hop) hpc hstep
  | dl i e =>
    rw [step] at hs
    split_ifs at hs with hif
    obtain ⟨net, hnet, rfl⟩ := Option.map_eq_some_iff.mp hs
    simp only [Bool.or_eq_true, not_or, Bool.not_eq_true] at hif
    exact .dl hif.1 hnet
  | kill i =>
    obtain ⟨pc, -, rfl⟩ := Option.map_eq_some_iff.mp hs
    exact .kill i
  | deliver j i =>
    obtain ⟨net, hnet, rfl⟩ := Option.map_eq_some_iff.mp hs
    exact .deliver hnet

end

end Crew

/-! ### An instance comes and goes -/

/-- An instance without resources satisfies the invariant. -/
lemma Inst.sound_new {id : UInt32} {beaconTime : UInt64} {b : Option Bool} {r : Name}
    {k : UInt32} : (⟨Lock.new id beaconTime, .free b⟩ : Inst).Sound FitsWire r k where
  named := Lock.named_new id beaconTime
  coherent := fun scope retry pc h => by cases h
  busy := trivial
  idle := fun n R hR => absurd hR (by simp)
  count := fun R hR => absurd hR (by simp)
  own := fun R hR => absurd hR (by simp)

lemma Lock.fits_new {id : UInt32} {beaconTime : UInt64} : (Lock.new id beaconTime).Fits := by
  intro n hn
  obtain ⟨R, hR⟩ := Lock.mem_names_iff.mp hn
  exact absurd hR (by simp)

namespace Group

variable {ι : Type*} [DecidableEq ι] {G : Group ι} {i : ι} {r : Name} {k : UInt32} {id : UInt32}
  {beaconTime : UInt64} {N : Node}

/-- For the protocol, an instance that is replaced by a new one has left. -/
lemma view_leave : (G.afterAct i (.new id beaconTime) []).view r = (G.view r).leave i := by
  have hp : (Node.new id beaconTime).inst.phase r = .out := by
    rw [Inst.phase, Node.new, Lock.stateOf, Lock.getResource_new]
    rfl
  refine Lib.Claim.Cfg.ext rfl ?_ said_afterAct ?_ (Sys.view_stage_out rfl)
    (Sys.view_chan_quiet (fun p hp => absurd hp List.not_mem_nil) rfl) rfl
  · refine Sys.view_phase_act.trans ?_
    rw [hp]
    rfl
  · refine Sys.view_since_act.trans ?_
    rw [hp, if_neg fun h => absurd rfl h.1]
    exact Function.update_eq_self ..

/-- The new instance and its threads keep the invariant. -/
lemma sound_leave (h : G.Sound FitsWire r k fun _ L => L.Fits)
    (hid : id = (G.sys.inst i).lock.id) :
    (G.afterAct i (.new id beaconTime) []).Sound FitsWire r k fun _ L => L.Fits := by
  refine h.replace (i := i) (N := .new id beaconTime) ?_ (fun l => ?_) (Node.sound_new id _)
    (fun ctl hctl => by cases hctl) (Threads.ordered_new id r) (fun n => Node.labelled_new)
    Lock.fits_new
  · exact Sys.sound_quiet h.sys Inst.sound_new hid rfl
  · split_ifs with hl
    · rw [hl, node_afterAct_self]
    · exact node_afterAct_of_ne hl

/-- A thread that might have returned late does not any more. -/
lemma sound_wait (h : G.Sound FitsWire r k fun _ L => L.Fits) :
    (G.afterAct i { G.node i with late := none } []).Sound FitsWire r k fun _ L => L.Fits := by
  have hN : ({ G.node i with late := none } : Node).Sound :=
    { h.node i with
      late := fun ctl hctl => by cases hctl
      tied := fun n => ⟨((h.node i).tied n).id, ((h.node i).tied n).res⟩ }
  have hl : ∀ n, ({ G.node i with late := none } : Node).Labelled FitsWire r k n :=
    fun n => ⟨(h.labelled i n).op, (h.labelled i n).building, (h.labelled i n).packets⟩
  refine h.replace (i := i) (N := { G.node i with late := none }) ?_ (fun l => ?_) hN
    (fun ctl hctl => by cases hctl) (h.ordered i) hl (h.lawful i)
  · exact sound_stays (n := r) (o := none) (fun _ hn => hn) h fun m hm => by cases hm
  · split_ifs with hl
    · rw [hl, node_afterAct_self]
    · exact node_afterAct_of_ne hl

end Group

/-! ### Runs of the group -/

namespace Crew

variable {ι : Type*} [DecidableEq ι] {o : ι → Options} {r : Name} {k : UInt32}
  {C C' : Crew ι} {m : CrewMove ι} {ms : List (CrewMove ι)} {i : ι} {N : Node} {pc : ChildPc}
  {pc' : Option ChildPc} {P : Name → Prop}

/-- What the process `i` knows after its step, and the others as before. -/
lemma known_update (h : C.Sound o r k) (hN : ∀ pc, pc' = some pc → N.Known (o i) pc)
    {sent : List DLPacket} (l : ι) (pc : ChildPc) (hl : Function.update C.pc i pc' l = some pc) :
    ((C.net.afterAct i N sent).node l).Known (o l) pc := by
  rcases eq_or_ne l i with rfl | hne
  · rw [Group.node_afterAct_self]
    exact hN pc (by rwa [Function.update_self] at hl)
  · rw [Group.node_afterAct_of_ne hne]
    exact h.pc l pc (by rwa [Function.update_of_ne hne] at hl)

/-- The instance of a process is replaced by a new one, at its construction or at the end. -/
lemma sound_leave [Fintype ι] {id : UInt32} {beaconTime : UInt64} (h : C.Sound o r k)
    (hid : id = (C.net.sys.inst i).lock.id)
    (hpc : ∀ pc, pc' = some pc → (Node.new id beaconTime).Known (o i) pc)
    (hnet : C'.net = C.net.afterAct i (.new id beaconTime) [])
    (hpc' : C'.pc = Function.update C.pc i pc') :
    Lib.Claim.Move k.toNat (C.net.view r) (C'.net.view r) ∧ C'.Sound o r k := by
  refine ⟨?_, ?_, ?_⟩
  · rw [hnet, Group.view_leave]
    exact .leave i
  · rw [hnet]
    exact Group.sound_leave h.net hid
  · rw [hnet, hpc']
    exact known_update h hpc

/-- Positions at which `main` knows nothing about its instance. -/
lemma known_new {id : UInt32} {beaconTime : UInt64} {o : Options} (hpc : ∀ I, pc.Holds o I) :
    (Node.new id beaconTime).Known o pc where
  inst := hpc _
  late ctl h := by cases h

/-- A process without an instance constructs it, or ends. -/
lemma sound_construct [Fintype ι] {e : ChildEvent} {s : Child} (h : C.Sound o r k)
    (hlive : pc.hasDl = false) (hd : C.Draws (.main i e))
    (hs : (C.child i pc).step (o i) e = some s) :
    Lib.Claim.Move k.toNat (C.net.view r) ((C.afterMain i pc s).net.view r) ∧
      (C.afterMain i pc s).Sound o r k := by
  have hdl : (C.child i pc).dl = none := if_neg (by simp [hlive])
  have hpositions : ∀ {pc'}, (C.child i pc).pc = pc' → pc'.hasDl = false := by
    rintro _ rfl
    exact hlive
  have hnode : ∀ {id beaconTime}, C.nodeAfter i pc
      (some ⟨Lock.new id beaconTime, .free none⟩) = .new id beaconTime := by
    intro id beaconTime
    rw [nodeAfter, if_neg (by simp [hlive])]
    rfl
  cases Child.transition_of_step hs with
  | construct id =>
    have hnet : (C.afterMain i pc { C.child i pc with
        dl := some ⟨Lock.new id (o i).beaconTime, .free none⟩
        pc := .limiting }).net = C.net.afterAct i (.new id (o i).beaconTime) [] := by
      rw [afterMain, hnode]
    refine sound_leave h hd (fun pc hpc => ?_) hnet rfl
    obtain rfl := Option.some.inj hpc
    exact known_new fun _ => trivial
  | throws =>
    refine sound_leave h rfl (fun pc hpc => ?_) rfl rfl
    obtain rfl := Option.some.inj hpc
    exact known_new fun _ => trivial
  | dl _ _ _ _ _ hI | main _ _ hI =>
    rw [hdl] at hI
    cases hI
  | forkFails _ h | forks _ h | waits _ _ _ h => cases hpositions h

/-- A step of `main` in a process that has an instance. -/
lemma sound_main [Fintype ι] {e : ChildEvent} {s : Child} (ha : (o i).Agrees r k)
    (h : C.Sound o r k) (he : ∀ e', e ≠ .dl e') (hop : C.net.op i = none) (hpc : C.pc i = some pc)
    (hlive : pc.hasDl = true) (hs : (C.child i pc).step (o i) e = some s) :
    Lib.Claim.Move k.toNat (C.net.view r) ((C.afterMain i pc s).net.view r) ∧
      (C.afterMain i pc s).Sound o r k := by
  have hdl : (C.child i pc).dl = some (C.net.sys.inst i) := if_pos hlive
  have hcon : pc ≠ .constructing := by
    rintro rfl
    cases hlive
  have hnode : ∀ I, C.nodeAfter i pc (some I) = (C.net.node i).follow I := fun I => if_pos hlive
  have hknown := h.pc i pc hpc
  cases Child.effect_step (s := C.child i pc) ha hdl hcon hknown.inst he hs with
  | exit code hexit =>
    subst hexit
    refine sound_leave h rfl (fun pc hpc => ?_) rfl rfl
    obtain rfl := Option.some.inj hpc
    exact known_new fun _ => trivial
  | flow pc' st hflow hpc' hdl' =>
    subst hflow
    have hnet : (C.afterMain i pc { C.child i pc with pc := pc', status := st }).net =
        C.net.afterAct i { C.net.node i with late := none } [] := by
      rw [afterMain]
      dsimp only
      rw [hdl, hnode]
      exact congrArg (C.net.afterAct i · []) (Node.follow_inst (h.net.node i))
    refine ⟨?_, ?_, ?_⟩
    · rw [hnet]
      exact .step (Group.view_stays (n := r) (o := none) (fun _ hn => hn) h.net
        (fun m hm => by cases hm) rfl (by simp [Group.node]))
    · rw [hnet]
      exact Group.sound_wait h.net
    · rw [hnet]
      refine known_update h fun pc hpc => ?_
      obtain rfl := Option.some.inj hpc
      exact ⟨hpc', fun ctl hctl => by cases hctl⟩
  | call pc' c hc hI hcall hpc' hdl' =>
    subst hcall
    have hcalled : C.net.step (.act i (.own (.call c))) = some (C.net.afterAct i
        ((C.net.node i).follow (Inst.enter (C.net.sys.inst i).lock c)) []) := by
      rw [Group.step, Node.step_follow (h.net.node i) hop hI]
      · rfl
      · rintro _ ⟨⟩
    have hnet : (C.afterMain i pc { C.child i pc with
        dl := some (Inst.enter (C.net.sys.inst i).lock c)
        pc := pc'
        sent := (C.child i pc).sent ++ [] }).net =
        C.net.afterAct i ((C.net.node i).follow (Inst.enter (C.net.sys.inst i).lock c)) [] := by
      rw [afterMain]
      dsimp only
      rw [hnode]
    refine ⟨?_, ?_, ?_⟩
    · rw [hnet]
      exact .step (Group.step_view (P := (· = r)) (m := .act i (.own (.call c)))
        (fun _ hn => hn) rfl h.net trivial trivial hcalled)
    · rw [hnet]
      exact Group.sound_step (P := (· = r)) (m := .act i (.own (.call c)))
        (fun _ hn => hn) rfl Group.lawful_proper h.net hc trivial hcalled
    · rw [hnet]
      refine known_update h fun pc hpc => ?_
      obtain rfl := Option.some.inj hpc
      exact ⟨hpc', fun ctl hctl => by cases hctl⟩

/-- What `main` knows is not touched by what happens in the instances and on the channels. -/
lemma known_net {net : Group ι} {e : NodeEvent} {sent : List DLPacket} (h : C.Sound o r k)
    (hd : (C.net.node i).Does e N sent) (he : e.isCall = false)
    (hnode : ∀ l, net.node l = if l = i then N else C.net.node l) (l : ι) (pc : ChildPc)
    (hpc : C.pc l = some pc) : (net.node l).Known (o l) pc := by
  rw [hnode]
  split_ifs with hl
  · subst hl
    exact hd.known he (h.pc l pc hpc)
  · exact h.pc l pc hpc

/-- **Every step of the group is a step of the protocol, or a process leaves.** -/
theorem sound_step [Fintype ι] (hP : P r) (ha : ∀ i, (o i).Agrees r k) (h : C.Sound o r k)
    (hd : C.Draws m) (ht : C.TimerOk P m) (hok : C.InTurn P m) (hs : C.step o m = some C') :
    Lib.Claim.Move k.toNat (C.net.view r) (C'.net.view r) ∧ C'.Sound o r k := by
  have hA : ∀ n, FitsWire n → FitsWire n := fun _ hn => hn
  cases does_of_step hs with
  | @main i e pc s he hop hpc hstep =>
    cases hlive : pc.hasDl with
    | true => exact sound_main (ha i) h he hop hpc hlive hstep
    | false => exact sound_construct h hlive hd hstep
  | @dl i e net he hnet =>
    have hcalls : C.net.Calls (fun _ L c => c.Proper r k L) (.act i e) := by
      cases e with
      | own e =>
        cases e with
        | call c => cases he
        | _ => trivial
      | _ => trivial
    refine ⟨.step (Group.step_view hA hP h.net ht hok hnet),
      Group.sound_step hA hP Group.lawful_proper h.net hcalls hok hnet, ?_⟩
    obtain ⟨-, N, sent, hdoes, rfl⟩ := Group.step_act_inv hnet
    refine known_net (C := C) h hdoes he fun l => ?_
    split_ifs with hl
    · rw [hl, Group.node_afterAct_self]
    · exact Group.node_afterAct_of_ne hl
  | kill i => exact sound_leave h rfl (fun pc hpc => by cases hpc) rfl rfl
  | @deliver j i net hnet =>
    refine ⟨.step (Group.step_view (m := .deliver j i) hA hP h.net trivial trivial hnet),
      Group.sound_step (m := .deliver j i) hA hP Group.lawful_proper h.net trivial trivial hnet, ?_⟩
    obtain ⟨d, rest, hchan, rfl⟩ := Group.step_deliver_inv hnet
    obtain ⟨p, hp, -⟩ := Sys.delivered h.net.sys hchan
    exact known_net (C := C) h (.deliver p) rfl (Group.node_afterDeliver hp)

omit [DecidableEq ι] in
/-- The invariant holds before anything has happened. -/
lemma sound_start {id : ι → UInt32} (hids : Function.Injective id) :
    (start id).Sound o r k where
  net := Group.sound_start (Sys.fresh_initial fun _ => le_rfl) hids
    (fun i R hR => absurd hR (by simp [Sys.fresh])) fun i n hn => absurd hn List.not_mem_nil
  pc i pc hpc := by
    obtain rfl := Option.some.inj hpc
    exact ⟨trivial, fun ctl hctl => by cases hctl⟩

omit [DecidableEq ι] in
/-- A process that runs its command holds the resources of its command line. -/
lemma mem_holders_of_running [Fintype ι] (h : C.Sound o r k) (hi : i ∈ C.running o r) :
    i ∈ C.net.sys.holders r := by
  obtain ⟨hrun, hsome⟩ := Bool.and_eq_true_iff.mp (Finset.mem_filter.mp hi).2
  have hmem : r ∈ (o i).resMap.keys :=
    Lib.OrdMap.mem_keys_iff.mpr (Option.isSome_iff_exists.mp hsome)
  obtain ⟨pc, hpc, hruns⟩ := (Option.any_eq_true _ _).mp hrun
  have hholds := (h.pc i pc hpc).inst
  refine Finset.mem_filter.mpr ⟨Finset.mem_univ i, ?_⟩
  cases pc with
  | forking | waiting pid | waited =>
    obtain ⟨hnames, hacq, hctl⟩ := hholds
    rw [Inst.Acquiring, hctl] at hacq
    exact hacq r (hnames r hmem)
  | _ => cases hruns

/-- **The tool keeps its promise.**  In a group of processes of which each either acquires
resources for its command, or queries, and which start, end and are killed at any time, the
number of processes that have acquired `r` and run their commands never exceeds the count of
`r`, if all command lines with `r` give it the same count. -/
theorem card_running_le [Fintype ι] {id : ι → UInt32} (hids : Function.Injective id)
    (ha : ∀ i, (o i).Agrees r k)
    (hrun : Run (step o) (fun C m => C.Draws m ∧ C.TimerOk (· = r) m ∧ C.InTurn (· = r) m)
      (start id) ms C) :
    (C.running o r).card ≤ k.toNat := by
  let Rel (C : Crew ι) (c : Lib.Claim.Cfg ι) : Prop := c = C.net.view r ∧ C.Sound o r k
  obtain ⟨c, hreach, rfl, hC⟩ : ∃ c,
      Relation.ReflTransGen (Lib.Claim.Move k.toNat) ((start id).net.view r) c ∧ Rel C c := by
    refine hrun.simulate ?_ ⟨rfl, sound_start hids⟩
    rintro C m C' _ ⟨rfl, hC⟩ ⟨hd, ht, hok⟩ hs
    obtain ⟨hmove, hC'⟩ := sound_step (P := (· = r)) rfl ha hC hd ht hok hs
    exact ⟨_, .single hmove, rfl, hC'⟩
  have hcard := Lib.Claim.card_holders_le_of_moves
    (Sys.view_initial (Sys.fresh_initial fun _ => le_rfl)) hreach
  have hholders : (C.net.view r).holders = C.net.sys.holders r := Sys.holders_view
  rw [hholders] at hcard
  exact (Finset.card_le_card fun i hi => mem_holders_of_running hC hi).trans hcard

/-- What happens in the instances of the group. -/
def inside : List (GroupMove Bool) → List (CrewMove Bool) :=
  List.map fun
    | .act i e => .dl i e
    | .deliver j i => .deliver j i

/-- A process starts, and `main` calls `acquire`, up to the listening. -/
def startsUp (i : Bool) (id : UInt32) : List (CrewMove Bool) :=
  [.main i (.constructed (some id))] ++ List.replicate 5 (.main i .main) ++
    inside ((Group.startsAll i [[97]]).drop 1)

/-- `dist_lock -r a -- b`, and for the second process `dist_lock -n 1 -r a -- b`. -/
def contenders (i : Bool) : Options :=
  if i then { Child.oneResource with retryNum := 1 } else Child.oneResource

open DistLock.Group (arrives beacons builds calls resets sends sets) in
/-- Both processes try to acquire `a`; the first one runs its command, and the second one gives
up. -/
def contends : List (CrewMove Bool) :=
  startsUp false 1 ++ startsUp true 2 ++
    inside (arrives 2 false false ++ arrives 2 true true ++ arrives 2 false true ++
      arrives 2 true false ++ builds false [97] ++ sends false [97] ++ arrives 1 false true ++
      arrives 1 false false ++ calls false [.timeout] ++ calls true [.timeout] ++ sets false ++
      calls false [.run] ++ arrives 1 false true ++ arrives 1 false false ++ builds true [97] ++
      sends true [97] ++ arrives 1 true false ++ arrives 1 true true ++ calls false [.timeout] ++
      sets true ++ calls true [.run] ++ calls false [.run] ++ sets false ++ calls false [.run]) ++
    [.main false .main, .main false (.forked 42)] ++
    inside (arrives 1 false true ++ arrives 1 true false ++ arrives 1 true true ++
      beacons false [97] ++ arrives 1 false true ++ calls true [.timeout, .run] ++ resets true ++
      calls true [.run, .run, .timeout, .run]) ++
    [.main true .main]

/-- The first process runs its command. -/
theorem card_running_le_contends :
    ∃ C : Crew Bool, Run (step contenders)
        (fun C m => C.Draws m ∧ C.TimerOk (· = [97]) m ∧ C.InTurn (· = [97]) m)
        (start fun i => if i then 2 else 1) contends C ∧
      C.pc false = some (.waiting 42) ∧ C.pc true = some (.exited 5) ∧
      (C.running contenders [97]).card ≤ 1 := by
  have ha : Child.oneResource.Agrees [97] 1 :=
    { fits := by decide
      pos := fun n c hc => by
        rw [Child.oneResource, Lib.OrdMap.find?_insert] at hc
        split_ifs at hc
        · obtain rfl := Option.some.inj hc
          exact le_rfl
        · cases hc
      count := fun c hc => (Option.some.inj hc).symm
      resource := by decide }
  have hagrees : ∀ i, (contenders i).Agrees [97] 1
    | true => ⟨ha.fits, ha.pos, ha.count, ha.resource⟩
    | false => ha
  have hexec : (Lib.exec (step contenders)
      (fun C m => C.Draws m ∧ C.TimerOk (· = [97]) m ∧ C.InTurn (· = [97]) m)
      (start fun i => if i then 2 else 1) contends).map (fun C => (C.pc false, C.pc true)) =
        some (some (.waiting 42), some (.exited 5)) := by
    decide +kernel
  obtain ⟨C, hC, hpc⟩ := Option.map_eq_some_iff.mp hexec
  obtain ⟨hfalse, htrue⟩ := Prod.mk.inj hpc
  exact ⟨C, .of_exec hC, hfalse, htrue, card_running_le (by decide) hagrees (.of_exec hC)⟩

end Crew
end DistLock
