/-
A group of processes of the command-line tool (`dist_lock.cc`) on one network.

Each process runs `main` as in `DistLock.Tool.Child`, with options of its own: some acquire
resources and run a command, others query.  Processes start and end at any time, with every exit
code that `main` has, and they may be killed at any moment.  Where there is no object `dl`, the
group has an instance without resources, which neither sends nor records anything.

The instances assign and send a state in one step; `DistLock.Tool.Crew` has their threads as well.
-/
import DistLock.System.Sys
import DistLock.Tool.Child

namespace DistLock

namespace ChildPc

/-- The object `dl` exists: it has been constructed, and the process has not ended. -/
def hasDl : ChildPc → Bool
  | constructing | exited _ => false
  | _ => true

/-- From the return of `acquire` to the end of the process: the command runs in between. -/
def runs : ChildPc → Bool
  | forking | waiting _ | waited => true
  | _ => false

end ChildPc

/-- The processes of a group.  `pc i` is the position of `main` in the process `i`, or nothing
if the process has been killed; the instances of all processes are in `net`. -/
structure Fleet (ι : Type*) where
  net : Sys ι
  pc : ι → Option ChildPc
  status : ι → UInt32

/-- What can happen in the group: something in one process, its death, or a delivery. -/
inductive FleetMove (ι : Type*)
  | child (i : ι) (e : ChildEvent)
  | kill (i : ι)
  | deliver (j i : ι)

/-- Without an object `dl` there are no resources. -/
def Inst.absent (I : Inst) : Inst := ⟨Lock.new I.lock.id I.lock.beaconTime, .free none⟩

namespace Fleet

variable {ι : Type*} [DecidableEq ι]

/-- The process `i`, with what it is going to send in its next step. -/
def child (F : Fleet ι) (i : ι) (pc : ChildPc) : Child where
  dl := if pc.hasDl then some (F.net.inst i) else none
  pc := pc
  status := F.status i
  sent := []

/-- After a step of the process `i`. -/
def afterChild (F : Fleet ι) (i : ι) (s : Child) : Fleet ι where
  net := F.net.afterAct i (s.dl.getD (F.net.inst i).absent) s.sent
  pc := Function.update F.pc i (some s.pc)
  status := Function.update F.status i s.status

/-- After the process `i` has been killed. -/
def afterKill (F : Fleet ι) (i : ι) : Fleet ι where
  net := F.net.afterAct i (F.net.inst i).absent []
  pc := Function.update F.pc i none
  status := F.status

/-- One step of the group.  Packets are delivered from the channels only. -/
def step (o : ι → Options) (F : Fleet ι) : FleetMove ι → Option (Fleet ι)
  | .child _ (.dl (.deliver _)) => none
  | .child i e =>
    (F.pc i).bind fun pc => ((F.child i pc).step (o i) e).map fun s => F.afterChild i s
  | .kill i => (F.pc i).map fun _ => F.afterKill i
  | .deliver j i => (F.net.step (.deliver j i)).map fun net => { F with net := net }

/-- No process has done anything yet; the process `i` is going to draw the number `id i`. -/
def start (id : ι → UInt32) : Fleet ι where
  net := .fresh id 0 (fun _ => 1) fun _ => []
  pc _ := some .constructing
  status _ := 0

/-- The random numbers of the constructor. -/
def Draws (F : Fleet ι) : FleetMove ι → Prop
  | .child i (.constructed (some id)) => id = (F.net.inst i).lock.id
  | _ => True

instance (F : Fleet ι) : (m : FleetMove ι) → Decidable (F.Draws m)
  | .child i (.constructed (some id)) => inferInstanceAs (Decidable (id = (F.net.inst i).lock.id))
  | .child _ (.constructed none) | .child _ (.dl _) | .child _ .main | .child _ (.forked _)
  | .child _ (.waited _ _) | .kill _ | .deliver _ _ => isTrue trivial

/-! ### The steps -/

section

variable {o : ι → Options} {F F' : Fleet ι} {m : FleetMove ι}

/-- What a step of the group is. -/
lemma step_inv (hs : F.step o m = some F') :
    (∃ i e pc s, m = .child i e ∧ (∀ p, e ≠ .dl (.deliver p)) ∧ F.pc i = some pc ∧
      (F.child i pc).step (o i) e = some s ∧ F' = F.afterChild i s) ∨
    (∃ i, m = .kill i ∧ F' = F.afterKill i) ∨
    ∃ j i net, m = .deliver j i ∧ F.net.step (.deliver j i) = some net ∧
      F' = { F with net := net } := by
  cases m with
  | child i e =>
    have hdel : ∀ p, e ≠ .dl (.deliver p) := by
      rintro p rfl
      cases hs
    have hs' : ((F.pc i).bind fun pc => ((F.child i pc).step (o i) e).map fun s =>
        F.afterChild i s) = some F' := by
      rcases e with e | _ | id | pid | ⟨n, status⟩
      · cases e with
        | deliver p => exact absurd rfl (hdel p)
        | _ => exact hs
      all_goals exact hs
    obtain ⟨pc, hpc, h⟩ := Option.bind_eq_some_iff.mp hs'
    obtain ⟨s, hstep, rfl⟩ := Option.map_eq_some_iff.mp h
    exact .inl ⟨i, e, pc, s, rfl, hdel, hpc, hstep, rfl⟩
  | kill i =>
    obtain ⟨pc, -, rfl⟩ := Option.map_eq_some_iff.mp hs
    exact .inr (.inl ⟨i, rfl, rfl⟩)
  | deliver j i =>
    obtain ⟨net, hnet, rfl⟩ := Option.map_eq_some_iff.mp hs
    exact .inr (.inr ⟨j, i, net, rfl, hnet, rfl⟩)

end

end Fleet
end DistLock
