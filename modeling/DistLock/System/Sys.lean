/-
A group of instances that broadcast to each other.

A broadcast reaches everybody, the sender included.  Between each two instances the datagrams
arrive in the order in which they were sent; none is lost, corrupted or forged, and it may take
any time.  Every step of the group carries a time stamp, from which the assumption about the
timers is stated (`Sys.TimerOk`): the timeout of a listening or collision wait comes late enough
for everything that was sent before the wait to have arrived, and for a beacon of everybody who
was in the competition all the time.
-/
import Mathlib.Data.Fintype.Basic
import Mathlib.Logic.Function.Basic
import DistLock.Lib.Run
import DistLock.Model.Spec

namespace DistLock

/-- A datagram on its way, with the time at which it was sent. -/
structure Datagram where
  stamp : ℕ
  payload : List UInt8
  deriving DecidableEq

/-- The thread is in the wait that senses the medium or in the one that detects collisions. -/
def Inst.inWindow (I : Inst) : Bool :=
  match I.ctl with
  | .adquire _ _ .listening | .adquire _ _ .colliding => true
  | _ => false

/-- The resource takes part in the competition. -/
def Inst.claims (I : Inst) (res : Name) : Bool :=
  match I.lock.stateOf res with
  | some s => s.Claimed
  | none => false

/-- A state of the group.  `chan j i` holds the datagrams on their way from `j` to `i`, oldest
first.  The other fields only keep a record: `opened i` is the time at which the last window of
`i` was opened, `since i r` the time at which `r` last entered the competition at `i`, and
`heard i j r` the last packet of `j` about `r` that was delivered to `i`. -/
structure Sys (ι : Type*) where
  clock : ℕ
  inst : ι → Inst
  chan : ι → ι → List Datagram
  opened : ι → ℕ
  since : ι → Name → ℕ
  heard : ι → ι → Name → Option (ℕ × State)

/-- A move of the group: something happens at one instance, or the oldest datagram from `j` to
`i` is delivered. -/
inductive Move (ι : Type*)
  | act (i : ι) (e : Event)
  | deliver (j i : ι)

namespace Sys

variable {ι : Type*} [DecidableEq ι]

/-- After a step of `i` to `I'` in which it broadcasts `sent`. -/
def afterAct (S : Sys ι) (i : ι) (I' : Inst) (sent : List DLPacket) : Sys ι where
  clock := S.clock + 1
  inst := Function.update S.inst i I'
  chan := fun j l =>
    if j = i then S.chan j l ++ sent.map fun p => ⟨S.clock, p.build⟩ else S.chan j l
  opened :=
    if I'.inWindow ∧ ¬ (S.inst i).inWindow then Function.update S.opened i S.clock else S.opened
  since := fun j r =>
    if j = i ∧ I'.claims r ∧ ¬ (S.inst i).claims r then S.clock else S.since j r
  heard := S.heard

/-- After the delivery of the datagram `d` from `j` to `i`; a payload that cannot be decoded is
ignored. -/
def afterDeliver (S : Sys ι) (j i : ι) (d : Datagram) (rest : List Datagram) : Sys ι :=
  let S := { S with
    clock := S.clock + 1
    chan := fun j' i' => if j' = j ∧ i' = i then rest else S.chan j' i' }
  match DLPacket.ofPayload d.payload with
  | none => S
  | some p =>
    { S with
      inst := Function.update S.inst i ((S.inst i).actionPerformed p)
      heard := fun i' j' r =>
        if i' = i ∧ j' = j ∧ r = p.resource then some (d.stamp, State.ofByte p.state)
        else S.heard i' j' r }

/-- One step of the group.  Packets are delivered from the channels only. -/
def step (S : Sys ι) : Move ι → Option (Sys ι)
  | .act _ (.deliver _) => none
  | .act i e => ((S.inst i).step e).map fun s => S.afterAct i s.1 s.2
  | .deliver j i =>
    match S.chan j i with
    | [] => none
    | d :: rest => some (S.afterDeliver j i d rest)

section step

variable {S S' : Sys ι} {i j : ι} {e : Event}

/-- Something happens at an instance; packets are not among it. -/
lemma step_act_inv (hs : S.step (.act i e) = some S') :
    (∀ p, e ≠ .deliver p) ∧ ∃ I' sent, (S.inst i).step e = some (I', sent) ∧
      S' = S.afterAct i I' sent := by
  have hd : ∀ p, e ≠ .deliver p := by
    rintro p rfl
    exact absurd hs (by simp [step])
  have hs' : ((S.inst i).step e).map (fun s => S.afterAct i s.1 s.2) = some S' := by
    cases e with
    | deliver p => exact absurd rfl (hd p)
    | _ => exact hs
  obtain ⟨⟨I', sent⟩, hI, rfl⟩ := Option.map_eq_some_iff.mp hs'
  exact ⟨hd, I', sent, hI, rfl⟩

/-- The oldest datagram is delivered. -/
lemma step_deliver_inv (hs : S.step (.deliver j i) = some S') :
    ∃ d rest, S.chan j i = d :: rest ∧ S' = S.afterDeliver j i d rest := by
  simp only [step] at hs
  split at hs
  · cases hs
  · next d rest hd => exact ⟨d, rest, hd, (Option.some.inj hs).symm⟩

end step

/-- The last window of `i` may be closed by its timeout, as far as the resources in `P` are
concerned: (a) everything that was broadcast before it was opened has been delivered, and (b) from
every other instance that has been in the competition for a resource during the whole window a
beacon about this resource has been delivered that was sent inside the window. -/
def Passed [Fintype ι] (P : Name → Prop) (S : Sys ι) (i : ι) : Prop :=
  (∀ j, ∀ d ∈ S.chan j i, S.opened i ≤ d.stamp) ∧
    ∀ j, j ≠ i → ∀ r ∈ (S.inst j).lock.names, P r → (S.inst j).claims r →
      S.since j r ≤ S.opened i → ∃ m ∈ S.heard i j r, S.opened i < m.1

instance [Fintype ι] (P : Name → Prop) [DecidablePred P] (S : Sys ι) (i : ι) :
    Decidable (S.Passed P i) :=
  inferInstanceAs (Decidable ((∀ j, ∀ d ∈ S.chan j i, S.opened i ≤ d.stamp) ∧
    ∀ j, j ≠ i → ∀ r ∈ (S.inst j).lock.names, P r → (S.inst j).claims r →
      S.since j r ≤ S.opened i → ∃ m ∈ S.heard i j r, S.opened i < m.1))

/-- The assumption about the timers: no window times out before. -/
def TimerOk [Fintype ι] (P : Name → Prop) (S : Sys ι) : Move ι → Prop
  | .act i .timeout => (S.inst i).inWindow → S.Passed P i
  | _ => True

instance [Fintype ι] (P : Name → Prop) [DecidablePred P] (S : Sys ι) :
    (m : Move ι) → Decidable (S.TimerOk P m)
  | .act i .timeout => inferInstanceAs (Decidable ((S.inst i).inWindow → S.Passed P i))
  | .act _ (.call _) | .act _ .run | .act _ .wake | .act _ (.elapsed _) | .act _ (.beacon _)
  | .act _ (.deliver _) | .deliver _ _ => isTrue trivial

/-- Before anything has happened: the resources have been defined, and nobody has sent or
received anything. -/
structure Initial (S : Sys ι) : Prop where
  free : ∀ i, ∃ b, (S.inst i).ctl = .free b
  named : ∀ i, (S.inst i).lock.Named
  idle : ∀ i r R, (S.inst i).lock.getResource r = some R → R.state = .idle ∧ R.members = .empty
  chan : ∀ j i, S.chan j i = []
  heard : ∀ i j r, S.heard i j r = none

end Sys

/-- The calls that a group makes. -/
def Move.Calls {ι : Type*} (P : Call → Prop) : Move ι → Prop
  | act _ (.call c) => P c
  | _ => True

instance {ι : Type*} (P : Call → Prop) [DecidablePred P] : (m : Move ι) → Decidable (m.Calls P)
  | .act _ (.call c) => inferInstanceAs (Decidable (P c))
  | .act _ .run | .act _ .timeout | .act _ .wake | .act _ (.elapsed _) | .act _ (.beacon _)
  | .act _ (.deliver _) | .deliver _ _ => isTrue trivial

/-! ### The beginning of a run -/

/-- The resources have been defined with the given counts, and they have not been used. -/
def Lock.Unused (counts : Name → UInt32) (L : Lock) : Prop :=
  ∀ n R, L.getResource n = some R → R = { Resource.new n with count := counts n }

lemma Lock.unused_new {counts : Name → UInt32} (id : UInt32) (beaconTime : UInt64) :
    (Lock.new id beaconTime).Unused counts := fun _ _ h => absurd h (by simp)

lemma Lock.Unused.define {counts : Name → UInt32} {L : Lock} (h : L.Unused counts) {n : Name}
    (hn : 1 ≤ counts n) : (L.defineResource n (counts n)).Unused counts := by
  intro n' R hR
  change (Inst.enter L (.defineResource n (counts n))).lock.getResource n' = some R at hR
  rw [Inst.getResource_enter] at hR
  split_ifs at hR with hc
  · obtain rfl : n = n' := Option.some.inj hc
    obtain rfl := Option.some.inj hR
    have hold :
        (L.getResource n).getD (Resource.new n) = { Resource.new n with count := counts n } ∨
        (L.getResource n).getD (Resource.new n) = Resource.new n := by
      cases hL : L.getResource n with
      | none => exact .inr rfl
      | some R₀ => exact .inl (h n R₀ hL)
    rw [Inst.recount]
    -- `defineResource` sets the count only if it is more than 1, which is the default
    split_ifs with hlt
    · rcases hold with hold | hold <;> rw [hold] <;> rfl
    · have h1 : counts n = 1 := UInt32.le_antisymm (UInt32.not_lt.mp hlt) hn
      rcases hold with hold | hold <;> rw [hold, h1]
      rfl
  · exact h n' R hR

/-- A group of new instances that have defined the given resources. -/
def Sys.fresh {ι : Type*} (id : ι → UInt32) (beaconTime : UInt64) (counts : Name → UInt32)
    (names : ι → List Name) : Sys ι where
  clock := 0
  inst i := ⟨(names i).foldl (fun L n => L.defineResource n (counts n)) (.new (id i) beaconTime),
    .free none⟩
  chan _ _ := []
  opened _ := 0
  since _ _ := 0
  heard _ _ _ := none

section fresh

variable {ι : Type*} {id : ι → UInt32} {beaconTime : UInt64} {counts : Name → UInt32}
  {names : ι → List Name}

lemma Sys.fresh_unused (h : ∀ n, 1 ≤ counts n) (i : ι) :
    ((fresh id beaconTime counts names).inst i).lock.Unused counts := by
  have hfold : ∀ (ns : List Name) (L : Lock), L.Unused counts →
      (ns.foldl (fun L n => L.defineResource n (counts n)) L).Unused counts := by
    intro ns
    induction ns with
    | nil => exact fun _ hL => hL
    | cons n ns ih => exact fun L hL => ih _ (hL.define (h n))
  exact hfold _ _ (Lock.unused_new _ _)

lemma Sys.fresh_initial (h : ∀ n, 1 ≤ counts n) : (fresh id beaconTime counts names).Initial where
  free _ := ⟨none, rfl⟩
  named i n R hR := by rw [fresh_unused h i n R hR]; rfl
  idle i n R hR := by rw [fresh_unused h i n R hR]; exact ⟨rfl, rfl⟩
  chan _ _ := rfl
  heard _ _ _ := rfl

end fresh
end DistLock
