/-
The way of the command-line tool to its command, when nobody contests the resources.

`main` (`dist_lock.cc`) constructs `dl`, defines the resources, acquires them and starts the
command.  If the constructor and `fork` succeed, and neither an attempt nor a holder of one of the
resources is heard, then the command is started with everything acquired after a number of steps
that the command line determines, and the process ends with the exit code of the command
(`Child.reaches_command`).
-/
import DistLock.System.Alone
import DistLock.System.Usage
import DistLock.Tool.Fleet

namespace DistLock

open Lib (OrdMap Run)

/-- The command line asks for resources and gives a command. -/
structure Options.Asks (o : Options) : Prop where
  plain : o.query = false ∧ o.isAny = false ∧ o.isWaiting = false
  nonempty : 0 < o.resMap.entries.length
  begins : 0 < o.optind ∧ o.argv[o.optind - 1]? = some dashes ∧ o.optind < o.argv.length

/-- The steps of `main`, and of the function that it has called, of its own accord. -/
def ChildEvent.ofMain : ChildEvent → Bool
  | .dl e => e.ofThread
  | .main | .constructed _ => true
  | .forked _ | .waited _ _ => false

namespace Inst

variable {I I' : Inst} {e : Event} {sent : List DLPacket} {o : Options}
  {rest : List ((_ : Name) × UInt32)} {d : (_ : Name) × UInt32} {b : Option Bool}

/-- What holds of the instance while the resources in `rest` are still to be defined, whatever it
hears. -/
structure Defining (o : Options) (rest : List ((_ : Name) × UInt32)) (I : Inst) : Prop where
  ctl : ∃ b, I.ctl = .free b
  nodup : (rest.map Sigma.fst).Nodup
  names : ∀ n, n ∈ o.resMap.keys ↔ n ∈ I.lock.names ∨ n ∈ rest.map Sigma.fst
  fresh : ∀ n ∈ I.lock.names, n ∉ rest.map Sigma.fst
  counts : ∀ r R, I.lock.getResource r = some R → 0 < R.count
  ready : I.Ready none

/-- The same if nobody contests the resources. -/
structure Setup (o : Options) (rest : List ((_ : Name) × UInt32)) (I : Inst) : Prop
    extends Defining o rest I where
  roomy : I.Roomy none

/-- Nothing changes the counts. -/
lemma counts_step (h : ∀ r R, I.lock.getResource r = some R → 0 < R.count)
    (he : e.isCall = false) (hs : I.step e = some (I', sent)) :
    ∀ r R, I'.lock.getResource r = some R → 0 < R.count := by
  intro r R hR
  rw [(frame_step he hs).resource] at hR
  obtain ⟨R₀, hR₀, rfl⟩ := Option.map_eq_some_iff.mp hR
  rw [change_count]
  exact h r R₀ hR₀

/-- What happens while the resources are defined leaves things as they are. -/
lemma Defining.step (h : I.Defining o rest) (he : e.isCall = false)
    (hs : I.step e = some (I', sent)) :
    I'.Defining o rest ∧ I'.ctl = I.ctl ∧ e.ofThread = false := by
  obtain ⟨b, hctl⟩ := h.ctl
  obtain ⟨hctl', -⟩ := free_step hctl he hs
  have hf := frame_step he hs
  refine ⟨⟨⟨b, hctl'⟩, h.nodup, ?_, ?_, counts_step h.counts he hs, ?_⟩, hctl'.trans hctl.symm,
    ofThread_of_free hctl he hs⟩
  · rw [hf.names_eq]
    exact h.names
  · rw [hf.names_eq]
    exact h.fresh
  · -- between the calls nobody stops a beacon thread
    intro r R hr hR
    rw [Lock.targets_congr hf.names_eq] at hr
    rw [hf.resource] at hR
    obtain ⟨R₀, hR₀, rfl⟩ := Option.map_eq_some_iff.mp hR
    rw [change_running fun _ => by simp [next, hctl]]
    exact h.ready r R₀ hr hR₀

lemma Setup.step (h : I.Setup o rest) (hc : I.Calm none e) (hs : I.step e = some (I', sent)) :
    I'.Setup o rest ∧ I'.ctl = I.ctl ∧ e.ofThread = false := by
  obtain ⟨h', hctl, hnot⟩ := h.toDefining.step hc.isCall hs
  exact ⟨⟨h', roomy_step h.roomy hc hs⟩, hctl, hnot⟩

/-- The instance after its construction. -/
lemma setup_new {id : UInt32} {beaconTime : UInt64} :
    (⟨Lock.new id beaconTime, .free b⟩ : Inst).Setup o o.resMap.entries where
  ctl := ⟨b, rfl⟩
  nodup := o.resMap.keys_nodup
  names _ := ⟨.inr, fun h => h.resolve_left List.not_mem_nil⟩
  fresh _ hn := absurd hn List.not_mem_nil
  counts _ _ hR := absurd hR (by simp)
  ready _ _ hr := absurd hr List.not_mem_nil
  roomy _ hr := absurd hr List.not_mem_nil

/-- `setAdquireMaxRetry` does not concern the resources. -/
lemma Defining.limit (h : I.Defining o rest) (n : UInt32) :
    (enter I.lock (.setAdquireMaxRetry n)).Defining o rest where
  ctl := ⟨none, rfl⟩
  nodup := h.nodup
  names := h.names
  fresh := h.fresh
  counts := h.counts
  ready := h.ready

lemma Setup.limit (h : I.Setup o rest) (n : UInt32) :
    (enter I.lock (.setAdquireMaxRetry n)).Setup o rest := ⟨h.toDefining.limit n, h.roomy⟩

/-- A resource that is defined for the first time has an empty table, and its beacon thread has been
started. -/
lemma Defining.new_of_define (h : I.Defining o (d :: rest)) {r : Name} {R : Resource}
    (hR : (enter I.lock (.defineResource d.1 d.2)).lock.getResource r = some R) :
    (0 < R.count ∧ R.HasRoom ∧ R.running = true) ∨ I.lock.getResource r = some R := by
  have hnone : I.lock.getResource d.1 = none := by
    rw [← Option.not_isSome_iff_eq_none, Option.isSome_iff_exists, ← Lock.mem_names_iff]
    exact fun hn => h.fresh d.1 hn List.mem_cons_self
  -- the resource is new, so that its table is empty
  rw [getResource_enter] at hR
  split_ifs at hR with hr
  · obtain rfl := Option.some.inj hr
    obtain rfl := Option.some.inj hR
    rw [hnone, Option.getD_none, recount]
    refine .inl ?_
    split_ifs with hlt
    · have hpos : 0 < d.2 := UInt32.lt_trans (by decide) hlt
      exact ⟨hpos, UInt32.lt_iff_toNat_lt.mp hpos, rfl⟩
    · exact ⟨UInt32.lt_iff_toNat_lt.mpr Nat.zero_lt_one, Nat.zero_lt_one, rfl⟩
  · exact .inr hR

/-- The definition of the next resource. -/
lemma Defining.define (h : I.Defining o (d :: rest)) :
    (enter I.lock (.defineResource d.1 d.2)).Defining o rest := by
  have hnames : ∀ n, n ∈ (enter I.lock (.defineResource d.1 d.2)).lock.names ↔
      d.1 = n ∨ n ∈ I.lock.names := fun n => by
    rw [mem_names_enter, creates, Option.some_inj]
  obtain ⟨hnot, hnodup⟩ := List.nodup_cons.mp h.nodup
  refine ⟨⟨_, rfl⟩, hnodup, fun n => ?_, fun n hn => ?_, fun r R hR => ?_, fun r R hr hR => ?_⟩
  · rw [hnames, h.names, List.map_cons, List.mem_cons]
    constructor
    · rintro (hn | rfl | hn)
      · exact .inl (.inr hn)
      · exact .inl (.inl rfl)
      · exact .inr hn
    · rintro ((rfl | hn) | hn)
      · exact .inr (.inl rfl)
      · exact .inl hn
      · exact .inr (.inr hn)
  · rcases (hnames n).mp hn with rfl | hn
    · exact hnot
    · exact fun hr => h.fresh n hn (List.mem_cons_of_mem _ hr)
  · rcases h.new_of_define hR with ⟨hpos, -⟩ | hR
    · exact hpos
    · exact h.counts r R hR
  · rcases h.new_of_define hR with ⟨-, -, hrun⟩ | hR
    · exact hrun
    · exact h.ready r R (Lock.mem_names_iff.mpr ⟨R, hR⟩) hR

lemma Setup.define (h : I.Setup o (d :: rest)) :
    (enter I.lock (.defineResource d.1 d.2)).Setup o rest := by
  refine ⟨h.toDefining.define, fun r _ R hR => ?_⟩
  rcases h.toDefining.new_of_define hR with ⟨-, hroom, -⟩ | hR
  · exact hroom
  · exact h.roomy r (Lock.mem_names_iff.mpr ⟨R, hR⟩) R hR

/-- The names of the resources are those of the command line when all are defined. -/
lemma Defining.names_iff (h : I.Defining o []) (n : Name) :
    n ∈ o.resMap.keys ↔ n ∈ I.lock.names := by
  rw [h.names, List.map_nil, or_iff_left List.not_mem_nil]

/-- The resources of the instance are those of the command line. -/
lemma length_names (h : ∀ n, n ∈ o.resMap.keys ↔ n ∈ I.lock.names) :
    I.lock.names.length = o.resMap.entries.length := by
  rw [← OrdMap.length_keys]
  refine List.Perm.length_eq ?_
  exact (List.perm_ext_iff_of_nodup I.lock.names_nodup o.resMap.keys_nodup).mpr
    fun n => (h n).symm

/-- There is something to acquire when all resources are defined. -/
lemma Defining.names_ne (ho : o.Asks) (h : I.Defining o []) : I.lock.names ≠ [] := by
  rw [← List.length_pos_iff, length_names h.names_iff]
  exact ho.nonempty

/-- The call of `acquire` when all resources are defined. -/
lemma Setup.acquire (ho : o.Asks) (h : I.Setup o []) :
    (enter I.lock (.acquire [])).Underway none ∧
      (enter I.lock (.acquire [])).left ≤ 7 * o.resMap.entries.length + 11 ∧
      ∀ n, n ∈ o.resMap.keys ↔ n ∈ (enter I.lock (.acquire [])).lock.names := by
  have hroom : Roomy (scopeOf []) ⟨I.lock, .free none⟩ := h.roomy
  obtain ⟨hunder, hleft⟩ :=
    underway_enter (fun _ => h.toDefining.names_ne ho) hroom fun _ => h.ready
  refine ⟨hunder, ?_, fun n => ?_⟩
  · rw [hleft, Lock.tryBound, length_names h.toDefining.names_iff]
  · rw [mem_names_enter, h.toDefining.names_iff]
    simp [creates]

end Inst

/-! ### The positions of `main` -/

namespace ChildPc

/-- How many steps are left at most, with `N` resources; `k` are left of the call of `acquire`. -/
def left (N k : ℕ) : ChildPc → ℕ
  | constructing => 9 * N + 17
  | limiting => 9 * N + 16
  | defining rest => 2 * rest.length + 7 * N + 15
  | defined rest => 2 * rest.length + 7 * N + 16
  | dispatching => 7 * N + 14
  | acquiring => k + 2
  | forking | waiting _ | waited => 1
  | _ => 0

/-- What holds of the instance at the positions on the way to the command. -/
def OnWay (o : Options) (I : Inst) : ChildPc → Prop
  | limiting => I.Setup o o.resMap.entries
  | defining rest => I.Setup o rest
  | defined rest => I.Setup o rest ∧ I.ctl = .free (some true)
  | dispatching => I.Setup o []
  | acquiring => I.Settled none ∧ ∀ n, n ∈ o.resMap.keys ↔ n ∈ I.lock.names
  | forking | waiting _ | waited =>
    I.Succeeded none ∧ ∀ n, n ∈ o.resMap.keys ↔ n ∈ I.lock.names
  | _ => False

variable {o : Options} {I I' : Inst} {e : Event} {sent : List DLPacket} {pc : ChildPc} {N : ℕ}

/-- What happens inside the instance. -/
lemma onWay_dl (h : pc.OnWay o I) (hc : I.Calm none e) (hs : I.step e = some (I', sent)) :
    pc.OnWay o I' ∧ pc.left N I'.left + e.ofThread.toNat ≤ pc.left N I.left := by
  have hnames := (Inst.frame_step hc.isCall hs).names_eq
  cases pc with
  | limiting | defining rest | dispatching =>
    obtain ⟨h', -, hnot⟩ := h.step hc hs
    rw [hnot]
    exact ⟨h', le_rfl⟩
  | defined rest =>
    obtain ⟨h', hctl, hnot⟩ := h.1.step hc hs
    rw [hnot]
    exact ⟨⟨h', hctl.trans h.2⟩, le_rfl⟩
  | acquiring =>
    obtain ⟨h', hleft⟩ := Inst.settled_step h.1 hc hs
    refine ⟨⟨h', ?_⟩, ?_⟩
    · rw [hnames]
      exact h.2
    · show I'.left + 2 + _ ≤ I.left + 2
      omega
  | forking | waiting pid | waited =>
    refine ⟨⟨Inst.succeeded_step h.1 hc.isCall hs, ?_⟩, ?_⟩
    · rw [hnames]
      exact h.2
    · rw [Inst.ofThread_of_free h.1.1 hc.isCall hs]
      exact le_rfl
  | constructing | asking | releasing | released | deleting | destroying | exited code =>
    exact h.elim

end ChildPc

/-! ### Runs of the process -/

namespace Child

variable {o : Options} {s s' : Child} {I : Inst} {e : ChildEvent} {es : List ChildEvent}
  {c : Call} {pc : ChildPc}

/-- Nobody contests the resources, and the constructor and `fork` succeed. -/
def Calm (s : Child) : ChildEvent → Prop
  | .dl e => ∀ I ∈ s.dl, I.Calm none e
  | .constructed id => id ≠ none
  | .forked pid => 0 ≤ pid
  | .main | .waited _ _ => True

instance (s : Child) : (e : ChildEvent) → Decidable (s.Calm e)
  | .dl e => inferInstanceAs (Decidable (∀ I ∈ s.dl, I.Calm none e))
  | .constructed id => inferInstanceAs (Decidable (id ≠ none))
  | .forked pid => inferInstanceAs (Decidable (0 ≤ pid))
  | .main | .waited _ _ => isTrue trivial

/-- What `main` returns after the command has ended. -/
def commandCode (s : Child) : UInt32 := if wifexited s.status then wexitstatus s.status else 1

/-- The process is on its way to the command, or has started it, or it has ended with it. -/
def OnWay (o : Options) (s : Child) : Prop :=
  (s.dl = none ∧ (s.pc = .constructing ∨ s.pc = .exited s.commandCode)) ∨
    ∃ I, s.dl = some I ∧ s.pc.OnWay o I

/-- How many steps are left of `main` at most. -/
def left (o : Options) (s : Child) : ℕ :=
  s.pc.left o.resMap.entries.length (s.dl.elim 0 Inst.left)

/-- The process can go on by itself. -/
def CanMove (o : Options) (s : Child) : Prop :=
  (∃ id, s.step o (.constructed (some id)) ≠ none) ∨ s.step o .main ≠ none ∨
    ∃ I, s.dl = some I ∧ I.CanMove

/-- The process waits for the beacon thread of one of its resources. -/
def AwaitsReady (s : Child) : Prop := ∃ I, s.dl = some I ∧ I.AwaitsReady

/-- The command is being started, or it runs, or it has ended; everything is acquired. -/
def Commands (o : Options) (s : Child) : Prop :=
  s.pc.runs = true ∧ ∃ I, s.dl = some I ∧ ∀ res ∈ o.resMap.keys, I.lock.Has .acquired res

lemma left_eq (hI : s.dl = some I) : s.left o = s.pc.left o.resMap.entries.length I.left := by
  rw [left, hI]
  rfl

/-- `main` calls a function of the instance. -/
lemma onWay_call (h : s.call I c pc = some s') (hpc : pc.OnWay o (Inst.enter I.lock c))
    (hI : s.dl = some I)
    (hleft : pc.left o.resMap.entries.length (Inst.enter I.lock c).left + 1 ≤
      s.pc.left o.resMap.entries.length I.left) :
    s'.OnWay o ∧ s'.left o + 1 ≤ s.left o := by
  obtain ⟨I', sent, hs, rfl⟩ := call_inv h
  obtain ⟨-, rfl, -⟩ := Inst.step_call hs
  refine ⟨.inr ⟨_, rfl, hpc⟩, ?_⟩
  rw [left_eq hI]
  exact hleft

/-- `main` goes on without a call. -/
lemma onWay_flow (hpc : pc.OnWay o I) (hI : s.dl = some I)
    (hleft : pc.left o.resMap.entries.length I.left + 1 ≤
      s.pc.left o.resMap.entries.length I.left) :
    OnWay o { s with pc := pc } ∧ left o { s with pc := pc } + 1 ≤ s.left o := by
  refine ⟨.inr ⟨I, hI, hpc⟩, ?_⟩
  rw [left_eq hI, left_eq (s := { s with pc := pc }) hI]
  exact hleft

/-- A step of `main`. -/
lemma onWay_main (ho : o.Asks) (hI : s.dl = some I) (h : s.pc.OnWay o I)
    (hs : s.mainStep o I = some s') : s'.OnWay o ∧ s'.left o + 1 ≤ s.left o := by
  obtain ⟨hq, ha, hw⟩ := ho.plain
  cases branch_of_mainStep hs with
  | limit hpc hs =>
    rw [hpc] at h
    refine onWay_call hs (h.limit o.retryNum) hI ?_
    rw [hpc]
    simp only [ChildPc.left]
    omega
  | define d rest hpc hs =>
    rw [hpc] at h
    refine onWay_call hs ⟨h.define, rfl⟩ hI ?_
    rw [hpc]
    simp only [ChildPc.left, List.length_cons]
    omega
  | next rest hpc _ hs =>
    rw [hpc] at h
    subst hs
    refine onWay_flow h.1 hI ?_
    rw [hpc]
    simp only [ChildPc.left]
    omega
  | undefined rest hpc _ hctl =>
    -- `defineResource` has returned true
    rw [hpc] at h
    cases hctl.symm.trans h.2
  | dispatch hpc _ hs =>
    rw [hpc] at h
    subst hs
    refine onWay_flow h hI ?_
    rw [hpc]
    simp only [ChildPc.left]
    omega
  | empty _ _ hlen => exact absurd ho.nonempty hlen
  | ask _ _ hflag _ | skip _ hflag _ =>
    rw [hq, ha, hw] at hflag
    cases hflag
  | usage _ _ _ hnot => exact absurd ho.begins hnot
  | acquire hpc _ hs =>
    rw [hpc] at h
    obtain ⟨hunder, hleft, hnames⟩ := Inst.Setup.acquire ho h
    refine onWay_call hs ⟨.inl hunder, hnames⟩ hI ?_
    rw [hpc]
    simp only [ChildPc.left]
    omega
  | acquired hpc hctl hs =>
    rw [hpc] at h
    subst hs
    have hdone : I.Succeeded none := h.1.outcome.resolve_right fun hnot => hnot.1 _ hctl
    refine onWay_flow ⟨hdone, h.2⟩ hI ?_
    rw [hpc]
    simp only [ChildPc.left]
    omega
  | refused hpc _ hctl =>
    -- `acquire` only returns when it has succeeded
    rw [hpc] at h
    rcases h.1.outcome with hdone | ⟨hnot, -⟩
    · cases hctl.symm.trans hdone.1
    · exact absurd hctl (hnot _)
  | ended hpc hs =>
    subst hs
    refine ⟨.inl ⟨rfl, .inr rfl⟩, ?_⟩
    rw [left_eq hI, hpc]
    exact le_rfl
  | answer _ hpc _ _ | release hpc _ | finish hpc _ | delete hpc _ | destroyed hpc _ =>
    rw [hpc] at h
    exact h.elim

/-- Where the instance exists, something is known about it. -/
lemma OnWay.inst (h : s.OnWay o) (hI : s.dl = some I) : s.pc.OnWay o I := by
  rcases h with ⟨hnone, -⟩ | ⟨J, hJ, h⟩
  · rw [hnone] at hI
    cases hI
  · obtain rfl := Option.some.inj (hI.symm.trans hJ)
    exact h

/-- The instance exists at the positions after the constructor. -/
lemma OnWay.exists_inst (h : s.OnWay o) (hlive : s.pc.hasDl = true) :
    ∃ I, s.dl = some I ∧ s.pc.OnWay o I := by
  rcases h with ⟨-, hpc | hpc⟩ | h
  · rw [hpc] at hlive
    cases hlive
  · rw [hpc] at hlive
    cases hlive
  · exact h

/-- **Every step keeps the process on its way**, and its own steps count down. -/
lemma onWay_step (ho : o.Asks) (h : s.OnWay o) (hc : s.Calm e) (hs : s.step o e = some s') :
    s'.OnWay o ∧ s'.left o + e.ofMain.toNat ≤ s.left o := by
  cases transition_of_step hs with
  | dl e I I' sent _ hI hstep =>
    obtain ⟨h', hleft⟩ := ChildPc.onWay_dl (h.inst hI) (hc I hI) hstep
    refine ⟨.inr ⟨I', rfl, h'⟩, ?_⟩
    rw [left_eq hI]
    exact hleft
  | main I s' hI hs => exact onWay_main ho hI (h.inst hI) hs
  | construct id hpc =>
    refine ⟨.inr ⟨_, rfl, Inst.setup_new⟩, ?_⟩
    rw [left, left, hpc]
    exact le_rfl
  | throws => exact absurd rfl hc
  | forkFails pid _ hneg => exact absurd hneg (not_lt.mpr hc)
  | forks pid hpc | waits pid _ _ hpc =>
    obtain ⟨I, hI, h⟩ := h.exists_inst (by rw [hpc]; rfl)
    rw [hpc] at h
    refine ⟨.inr ⟨I, hI, h⟩, ?_⟩
    rw [left, left, hpc]
    exact le_rfl

/-- Until the command is started the process can go on. -/
lemma OnWay.outcome (h : s.OnWay o) :
    (s.pc.Early ∧ (s.CanMove o ∨ s.AwaitsReady)) ∨ s.Commands o ∨
      s.pc = .exited s.commandCode := by
  rcases h with ⟨-, hpc | hpc⟩ | ⟨I, hI, h⟩
  · refine .inl ⟨by rw [hpc]; trivial, .inl (.inl ⟨0, ?_⟩)⟩
    rw [step, hpc]
    simp
  · exact .inr (.inr hpc)
  · -- where `main` is not inside a function that waits, it can go on itself
    have hmain : s.mainStep o I ≠ none → s.CanMove o ∨ s.AwaitsReady := by
      intro hne
      refine .inl (.inr (.inl ?_))
      show s.dl.bind _ ≠ none
      rw [hI]
      exact hne
    have hcall : ∀ {c pc b}, I.ctl = .free b → s.call I c pc ≠ none := by
      intro c pc b hctl
      rw [call, Inst.step, hctl]
      simp
    rw [Commands]
    cases hpc : s.pc with
    | limiting =>
      rw [hpc] at h
      obtain ⟨b, hctl⟩ := h.ctl
      refine .inl ⟨trivial, hmain ?_⟩
      rw [mainStep, hpc]
      exact hcall hctl
    | defining rest =>
      rw [hpc] at h
      obtain ⟨b, hctl⟩ := h.ctl
      refine .inl ⟨trivial, hmain ?_⟩
      rw [mainStep, hpc]
      cases rest with
      | nil =>
        dsimp only
        split_ifs <;> simp
      | cons d rest => exact hcall hctl
    | defined rest =>
      rw [hpc] at h
      refine .inl ⟨trivial, hmain ?_⟩
      rw [mainStep, hpc]
      dsimp only
      rw [h.2]
      simp
    | dispatching =>
      rw [hpc] at h
      obtain ⟨b, hctl⟩ := h.ctl
      refine .inl ⟨trivial, hmain ?_⟩
      rw [mainStep, hpc]
      dsimp only
      rw [dispatch]
      split_ifs <;> first | exact hcall hctl | simp
    | acquiring =>
      rw [hpc] at h
      refine .inl ⟨trivial, ?_⟩
      rcases h.1.outcome with ⟨hctl, -⟩ | ⟨-, hmove | hwait⟩
      · refine hmain ?_
        rw [mainStep, hpc]
        dsimp only
        rw [hctl]
        simp
      · exact .inl (.inr (.inr ⟨I, hI, hmove⟩))
      · exact .inr ⟨I, hI, hwait⟩
    | forking | waiting pid | waited =>
      rw [hpc] at h
      obtain ⟨⟨-, hacq⟩, hnames⟩ := h
      exact .inr (.inl ⟨rfl, I, hI, fun res hres => hacq res ((hnames res).mp hres)⟩)
    | constructing | asking | releasing | released | deleting | destroying | exited code =>
      rw [hpc] at h
      exact h.elim

/-- `dist_lock -r a -- b`, whose command exits with 7; somebody queries the resource meanwhile. -/
def undisturbed : List ChildEvent :=
  [.constructed (some 1), .main, .main, .main, .main, .main, .dl .run, .dl .wake, .dl .run,
    .dl .run, .dl .run, .dl .run,
    .dl (.deliver (((DLPacket.new State.querying.toByte 2).setResource [97]).setCount 1)),
    .dl .timeout, .dl .run, .dl .run, .dl .timeout, .dl .run, .dl .run, .dl .run, .main,
    .forked 42, .waited 42 0x700, .main]

end Child
end DistLock
