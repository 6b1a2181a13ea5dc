/-
A group of instances with their threads.

The group of `DistLock.System.Sys` consists of instances that assign and send a state in one step.
Here every instance has the threads of its resources (`DistLock.Beacon.Node`): between the
assignment of a state and its announcement, and between the building of a beacon and its sending,
anything may happen.  The channels, the clock and the timers are those of `Sys`.
-/
import DistLock.Beacon.Tied
import DistLock.System.View

namespace DistLock

open DLPacket (FitsWire)

/-- A constructed resource, with its beacon thread at the beginning of the loop. -/
def Readiness.start (id : UInt32) (R : Resource) : Readiness where
  threads :=
    { Threads.new id R.name with
      res := R
      beacon := if R.running then .head else .ended }
  due := false
  wait := .outside

/-- By its timeout the collision wait leads to the loop that checks and marks. -/
def Ctl.isChecking : Ctl → Bool
  | .adquire _ _ (.checking _) | .adquire _ _ (.marking _ _) => true
  | _ => false

/-- And the listening to the one that announces. -/
def Ctl.isTimedOut : Ctl → Bool
  | .adquire _ _ (.announcing _) => true
  | ctl => ctl.isChecking

/-- A state of the group; see `Sys` and `Node`. -/
structure Group (ι : Type*) where
  sys : Sys ι
  ready : ι → Name → Readiness
  op : ι → Option Name
  late : ι → Option Ctl

/-- Something happens at one instance, or the oldest datagram from `j` to `i` is delivered. -/
inductive GroupMove (ι : Type*)
  | act (i : ι) (e : NodeEvent)
  | deliver (j i : ι)

namespace Group

variable {ι : Type*} [DecidableEq ι]

/-- The threads of a group whose instances have just been constructed. -/
def start (S : Sys ι) : Group ι where
  sys := S
  ready i n := .start (S.inst i).lock.id (((S.inst i).lock.getResource n).getD (.new n))
  op _ := none
  late _ := none

/-- The instance `i` with its threads. -/
def node (G : Group ι) (i : ι) : Node := ⟨G.sys.inst i, G.ready i, G.op i, G.late i⟩

/-- After a step of `i` to `N` in which it broadcasts `sent`. -/
def afterAct (G : Group ι) (i : ι) (N : Node) (sent : List DLPacket) : Group ι where
  sys := G.sys.afterAct i N.inst sent
  ready := Function.update G.ready i N.ready
  op := Function.update G.op i N.op
  late := Function.update G.late i N.late

/-- After the delivery of the datagram `d` from `j` to `i`. -/
def afterDeliver (G : Group ι) (j i : ι) (d : Datagram) (rest : List Datagram) : Group ι where
  sys := G.sys.afterDeliver j i d rest
  ready := G.ready
  op := G.op
  late :=
    match DLPacket.ofPayload d.payload with
    | none => G.late
    | some p => Function.update G.late i ((G.node i).hear p).late

/-- One step of the group.  Packets are delivered from the channels only. -/
def step (G : Group ι) : GroupMove ι → Option (Group ι)
  | .act _ (.deliver _) => none
  | .act i e => ((G.node i).step e).map fun s => G.afterAct i s.1 s.2
  | .deliver j i =>
    match G.sys.chan j i with
    | [] => none
    | d :: rest => some (G.afterDeliver j i d rest)

/-- The assumption about the timers, for the resources in `P`, as for `Sys`.  It concerns a wait
that returns late as well. -/
def TimerOk [Fintype ι] (P : Name → Prop) (G : Group ι) : GroupMove ι → Prop
  | .act i (.own e) => G.sys.TimerOk P (.act i e)
  | .act i .late => ∀ ctl ∈ G.late i, ctl.isTimedOut → G.sys.Passed P i
  | _ => True

/-- The condition on the steps of the threads of the resources in `P`: `setState` does not send
while the beacon thread holds an older packet, and a collision wait that has been notified does not
return by its timeout. -/
def InTurn (P : Name → Prop) (G : Group ι) : GroupMove ι → Prop
  | .act i .late => ∀ ctl ∈ G.late i, ctl.isChecking = false
  | .act i e => (G.node i).Allows Threads.InTurn P e
  | .deliver _ _ => True

/-- The calls of the group. -/
def Calls (C : ι → Lock → Call → Prop) (G : Group ι) : GroupMove ι → Prop
  | .act i (.own (.call c)) => C i (G.sys.inst i).lock c
  | _ => True

instance [Fintype ι] (P : Name → Prop) [DecidablePred P] (G : Group ι) :
    (m : GroupMove ι) → Decidable (G.TimerOk P m)
  | .act i (.own e) => inferInstanceAs (Decidable (G.sys.TimerOk P (.act i e)))
  | .act i .late =>
    inferInstanceAs (Decidable (∀ ctl ∈ G.late i, ctl.isTimedOut → G.sys.Passed P i))
  | .act _ .store | .act _ .api | .act _ (.ready _ _) | .act _ (.deliver _) | .deliver _ _ =>
    isTrue trivial

instance (P : Name → Prop) [DecidablePred P] (G : Group ι) :
    (m : GroupMove ι) → Decidable (G.InTurn P m)
  | .act i .late => inferInstanceAs (Decidable (∀ ctl ∈ G.late i, ctl.isChecking = false))
  | .act i (.own e) => inferInstanceAs (Decidable ((G.node i).Allows Threads.InTurn P (.own e)))
  | .act i .store => inferInstanceAs (Decidable ((G.node i).Allows Threads.InTurn P .store))
  | .act i .api => inferInstanceAs (Decidable ((G.node i).Allows Threads.InTurn P .api))
  | .act i (.ready n e) =>
    inferInstanceAs (Decidable ((G.node i).Allows Threads.InTurn P (.ready n e)))
  | .act i (.deliver p) =>
    inferInstanceAs (Decidable ((G.node i).Allows Threads.InTurn P (.deliver p)))
  | .deliver _ _ => isTrue trivial

instance (C : ι → Lock → Call → Prop) [∀ i L, DecidablePred (C i L)] (G : Group ι) :
    (m : GroupMove ι) → Decidable (G.Calls C m)
  | .act i (.own (.call c)) => inferInstanceAs (Decidable (C i (G.sys.inst i).lock c))
  | .act _ (.own .run) | .act _ (.own .timeout) | .act _ (.own .wake) | .act _ (.own (.elapsed _))
  | .act _ (.own (.beacon _)) | .act _ (.own (.deliver _)) | .act _ .store | .act _ .api
  | .act _ (.ready _ _) | .act _ (.deliver _) | .act _ .late | .deliver _ _ => isTrue trivial

section step

variable {G G' : Group ι} {i j : ι} {e : NodeEvent} {N : Node} {sent : List DLPacket}

/-- Something happens at an instance; packets are not among it. -/
lemma step_act_inv (hs : G.step (.act i e) = some G') :
    (∀ p, e ≠ .deliver p) ∧ ∃ N sent, (G.node i).Does e N sent ∧ G' = G.afterAct i N sent := by
  have hd : ∀ p, e ≠ .deliver p := by
    rintro p rfl
    exact absurd hs (by simp [step])
  have hs' : ((G.node i).step e).map (fun s => G.afterAct i s.1 s.2) = some G' := by
    cases e with
    | deliver p => exact absurd rfl (hd p)
    | _ => exact hs
  obtain ⟨⟨N, sent⟩, hN, rfl⟩ := Option.map_eq_some_iff.mp hs'
  exact ⟨hd, N, sent, Node.does_of_step hN, rfl⟩

/-- The oldest datagram is delivered. -/
lemma step_deliver_inv (hs : G.step (.deliver j i) = some G') :
    ∃ d rest, G.sys.chan j i = d :: rest ∧ G' = G.afterDeliver j i d rest := by
  simp only [step] at hs
  split at hs
  · cases hs
  · next d rest hd => exact ⟨d, rest, hd, (Option.some.inj hs).symm⟩

lemma node_afterAct_self : (G.afterAct i N sent).node i = N := by
  obtain ⟨I, ready, op, late⟩ := N
  simp [node, afterAct, Sys.afterAct]

lemma node_afterAct_of_ne (h : j ≠ i) : (G.afterAct i N sent).node j = G.node j := by
  simp [node, afterAct, Sys.afterAct, h]

/-- A delivery is the arrival of the packet at the instance. -/
lemma node_afterDeliver {d : Datagram} {rest : List Datagram} {p : DLPacket}
    (hp : DLPacket.ofPayload d.payload = some p) (l : ι) :
    (G.afterDeliver j i d rest).node l = if l = i then (G.node i).hear p else G.node l := by
  rw [node, afterDeliver, hp, Sys.afterDeliver_eq hp]
  dsimp only
  split_ifs with hl
  · subst hl
    rw [Function.update_self, Function.update_self]
    rfl
  · rw [Function.update_of_ne hl, Function.update_of_ne hl]
    rfl

end step

end Group
end DistLock
