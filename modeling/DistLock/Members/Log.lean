/-
The member tables as a record of the packets that have been delivered.

A table is updated in place, and what is recorded depends on the state and the count that the
resource has at that moment.  The log of the operations nevertheless determines it: the entry
of a member is the last of its packets that the resource has recorded since it was last reset
(`members_refine_log`).
-/
import DistLock.Lib.Run
import DistLock.Model.Addressee

namespace DistLock

open Lib (OrdMap)

/-- An operation that concerns the member tables. -/
inductive TableOp
  | deliver (pkt : DLPacket)
  | setState (res : Name) (s : State)
  | reset (res : Name)
  deriving DecidableEq

/-- The operation on the tables of an instance. -/
def Inst.perform (I : Inst) : TableOp → Inst
  | .deliver pkt => I.actionPerformed pkt
  | .setState res s => { I with lock := (I.lock.setState res s).1 }
  | .reset res => { I with lock := (I.lock.reset res).1 }

/-! ### The log -/

/-- The state in which an operation leaves the resource `res`. -/
def TableOp.stateOf (res : Name) (s : State) : TableOp → State
  | deliver _ => s
  | setState r s' => if r = res then s' else s
  | reset r => if r = res then .idle else s

/-- The state of the resource `res` after a log of operations. -/
def stateAfter (res : Name) (s : State) (ops : List TableOp) : State :=
  ops.foldl (TableOp.stateOf res) s

/-- The instance `own` records the packet in the table of `res`, which has the count `c` and is
in the state `s`. -/
def Recorded (own : UInt32) (res : Name) (c : UInt32) (s : State) (pkt : DLPacket) : Prop :=
  pkt.resource = res ∧ pkt.memberId ≠ own ∧ s ≠ .idle ∧ (pkt.count = c ∨ s = .querying)

instance (own : UInt32) (res : Name) (c : UInt32) (s : State) (pkt : DLPacket) :
    Decidable (Recorded own res c s pkt) :=
  inferInstanceAs (Decidable (_ ∧ _ ∧ _ ∧ _))

section Heard

variable (own : UInt32) (res : Name) (c : UInt32) (s : State) (ops : List TableOp)

/-- The operation at position `i` of the log delivers a packet that is recorded. -/
def RecordedAt (i : ℕ) (pkt : DLPacket) : Prop :=
  ops[i]? = some (.deliver pkt) ∧ Recorded own res c (stateAfter res s (ops.take i)) pkt

/-- The last packet of the member `id` that has been recorded, if `res` has not been reset
since. -/
def Heard (id : UInt32) (pkt : DLPacket) : Prop :=
  ∃ i, RecordedAt own res c s ops i pkt ∧ pkt.memberId = id ∧
    ∀ j, i < j → ops[j]? ≠ some (.reset res) ∧
      ∀ q, RecordedAt own res c s ops j q → q.memberId ≠ id

end Heard

section snoc

variable {own : UInt32} {res : Name} {c : UInt32} {s : State} {ops : List TableOp}
  {op : TableOp} {i : ℕ} {id : UInt32} {pkt : DLPacket}

lemma stateAfter_append :
    stateAfter res s (ops ++ [op]) = op.stateOf res (stateAfter res s ops) := by
  rw [stateAfter, List.foldl_append]
  rfl

lemma not_heard_nil : ¬ Heard own res c s [] id pkt := by
  rintro ⟨i, ⟨hi, -⟩, -⟩
  exact absurd hi (by simp)

lemma recordedAt_append_of_lt (h : i < ops.length) :
    RecordedAt own res c s (ops ++ [op]) i pkt ↔ RecordedAt own res c s ops i pkt := by
  rw [RecordedAt, RecordedAt, List.getElem?_append_left h, List.take_append_of_le_length h.le]

lemma recordedAt_append_length :
    RecordedAt own res c s (ops ++ [op]) ops.length pkt ↔
      op = .deliver pkt ∧ Recorded own res c (stateAfter res s ops) pkt := by
  rw [RecordedAt, List.getElem?_concat_length, List.take_left, Option.some.injEq]

/-- There is nothing at the positions behind the log. -/
lemma nothing_behind (h : ops.length ≤ i) :
    ops[i]? ≠ some (.reset res) ∧ ∀ q, RecordedAt own res c s ops i q → q.memberId ≠ id := by
  have hnone : ops[i]? = none := List.getElem?_eq_none h
  rw [hnone]
  exact ⟨by simp, fun q hq => absurd hq.1 (by simp [hnone])⟩

/-- The packet that is heard last, after one more operation. -/
lemma heard_append :
    Heard own res c s (ops ++ [op]) id pkt ↔
      (op = .deliver pkt ∧ pkt.memberId = id ∧ Recorded own res c (stateAfter res s ops) pkt) ∨
      (Heard own res c s ops id pkt ∧ op ≠ .reset res ∧
        ∀ q, op = .deliver q → q.memberId = id →
          ¬ Recorded own res c (stateAfter res s ops) q) := by
  have hlast : (ops ++ [op])[ops.length]? = some op := List.getElem?_concat_length
  have hone : (ops ++ [op]).length = ops.length + 1 := by
    rw [List.length_append, List.length_singleton]
  constructor
  · rintro ⟨i, hi, hid, hlater⟩
    have hlen : i < (ops ++ [op]).length := (List.getElem?_eq_some_iff.mp hi.1).1
    rw [hone] at hlen
    rcases (Nat.lt_succ_iff.mp hlen).lt_or_eq with hlt | rfl
    · refine .inr ⟨⟨i, (recordedAt_append_of_lt hlt).mp hi, hid, fun j hj => ?_⟩, ?_, ?_⟩
      · by_cases hjlen : j < ops.length
        · obtain ⟨hreset, hrec⟩ := hlater j hj
          rw [List.getElem?_append_left hjlen] at hreset
          exact ⟨hreset, fun q hq => hrec q ((recordedAt_append_of_lt hjlen).mpr hq)⟩
        · exact nothing_behind (not_lt.mp hjlen)
      · rintro rfl
        exact (hlater ops.length hlt).1 hlast
      · rintro q rfl hq hrec
        exact (hlater ops.length hlt).2 q (recordedAt_append_length.mpr ⟨rfl, hrec⟩) hq
    · obtain ⟨hop, hrec⟩ := recordedAt_append_length.mp hi
      exact .inl ⟨hop, hid, hrec⟩
  · rintro (⟨rfl, hid, hrec⟩ | ⟨⟨i, hi, hid, hlater⟩, hreset, hdeliver⟩)
    · refine ⟨ops.length, recordedAt_append_length.mpr ⟨rfl, hrec⟩, hid, fun j hj => ?_⟩
      exact nothing_behind (by rw [hone]; omega)
    · have hlt : i < ops.length := (List.getElem?_eq_some_iff.mp hi.1).1
      refine ⟨i, (recordedAt_append_of_lt hlt).mpr hi, hid, fun j hj => ?_⟩
      rcases lt_trichotomy j ops.length with hjlen | rfl | hjlen
      · rw [List.getElem?_append_left hjlen]
        obtain ⟨hr, hrec⟩ := hlater j hj
        exact ⟨hr, fun q hq => hrec q ((recordedAt_append_of_lt hjlen).mp hq)⟩
      · rw [hlast]
        refine ⟨fun h => hreset (Option.some.inj h), fun q hq hqid => ?_⟩
        obtain ⟨hop, hrec⟩ := recordedAt_append_length.mp hq
        exact hdeliver q hop hqid hrec
      · exact nothing_behind (by rw [hone]; omega)

end snoc

/-! ### The table -/

namespace Resource

variable {R : Resource} {id : UInt32} {pkt : DLPacket}

/-- The entry that a packet from the member makes or overwrites. -/
def entry (R : Resource) (id : UInt32) (pkt : DLPacket) : Member :=
  { (R.getMember id).getD (Member.new id) with
    count := pkt.count
    state := .ofByte pkt.state }

lemma entry_id (hkey : ∀ m, R.members.find? id = some m → m.id = id) :
    (R.entry id pkt).id = id := by
  show ((R.getMember id).getD (Member.new id)).id = id
  cases hm : R.getMember id with
  | none => rfl
  | some m => exact hkey m hm

lemma find?_updateMember (h : R.count = pkt.count ∨ R.state = .querying) :
    (R.updateMember pkt.memberId (.ofByte pkt.state) pkt.count).members.find? id =
      if pkt.memberId = id then some (R.entry id pkt) else R.members.find? id := by
  rw [updateMember_eq h]
  split_ifs with hid
  · subst hid
    exact OrdMap.find?_insert_self
  · exact OrdMap.find?_insert_of_ne (Ne.symm hid)

end Resource

namespace Inst

variable {I : Inst} {pkt : DLPacket} {res : Name} {R : Resource} {id : UInt32}

/-- What a delivery does to the entry of a member: it is overwritten if the packet comes from
the member and is recorded. -/
lemma find?_heardBy :
    (I.heardBy pkt res R).members.find? id =
      if pkt.memberId = id ∧ Recorded I.lock.id res R.count R.state pkt then
        some (R.entry id pkt)
      else R.members.find? id := by
  rw [heardBy]
  by_cases hrec : res = pkt.resource ∧ pkt.memberId ≠ I.lock.id ∧ R.state ≠ .idle
  · rw [if_pos hrec]
    obtain ⟨rfl, hown, hidle⟩ := hrec
    by_cases hc : R.count = pkt.count ∨ R.state = .querying
    · rw [Resource.find?_updateMember hc]
      exact if_congr ⟨fun hid => ⟨hid, rfl, hown, hidle, hc.imp_left Eq.symm⟩, And.left⟩ rfl rfl
    · rw [Resource.updateMember_of_not hc, if_neg]
      exact fun h => hc (h.2.2.2.2.imp_left Eq.symm)
  · rw [if_neg hrec, if_neg]
    exact fun h => hrec ⟨h.2.1.symm, h.2.2.1, h.2.2.2.1⟩

@[simp] lemma perform_id (I : Inst) (op : TableOp) : (I.perform op).lock.id = I.lock.id := by
  cases op with
  | deliver pkt =>
    show (I.actionPerformed pkt).lock.id = _
    rw [actionPerformed_lock, hear_id]
  | setState r s => exact Lock.setState_id
  | reset r => exact Lock.reset_id

/-- What an operation does to the resource of the given name. -/
def effect (I : Inst) (res : Name) (R : Resource) : TableOp → Resource
  | .deliver pkt => I.heardBy pkt res R
  | .setState r s => if r = res then Action.apply (.setState s) R else R
  | .reset r => if r = res then Action.reset.apply R else R

lemma getResource_perform (I : Inst) (op : TableOp) (res : Name) :
    (I.perform op).lock.getResource res =
      (I.lock.getResource res).map fun R => I.effect res R op := by
  have hmap : ∀ (r : Name) (f : Resource → Resource),
      (if res = r then (I.lock.getResource res).map f else I.lock.getResource res) =
        (I.lock.getResource res).map fun R => if r = res then f R else R := by
    intro r f
    by_cases hr : r = res
    · rw [if_pos hr.symm]
      simp only [hr, if_true]
    · rw [if_neg fun h => hr h.symm]
      simp only [hr, if_false, Option.map_id']
  cases op with
  | deliver pkt =>
    show (I.actionPerformed pkt).lock.getResource res = _
    rw [actionPerformed_lock, getResource_hear]
    rfl
  | setState r s => exact Lock.getResource_setState.trans (hmap r _)
  | reset r => exact Lock.getResource_reset.trans (hmap r _)

/-- The resource is what the log says. -/
structure Reflects (own : UInt32) (res : Name) (c : UInt32) (s : State) (ops : List TableOp)
    (R : Resource) : Prop where
  count : R.count = c
  state : R.state = stateAfter res s ops
  find? : ∀ id m, R.members.find? id = some m ↔
    m.id = id ∧ ∃ pkt, Heard own res c s ops id pkt ∧ m.state = .ofByte pkt.state ∧
      m.count = pkt.count

/-- **One operation more.** -/
lemma Reflects.perform {c : UInt32} {s : State} {ops : List TableOp}
    (h : Reflects I.lock.id res c s ops R) (op : TableOp) :
    Reflects I.lock.id res c s (ops ++ [op]) (I.effect res R op) := by
  cases op with
  | deliver pkt =>
    refine ⟨heardBy_count.trans h.count, ?_, fun id m => ?_⟩
    · rw [stateAfter_append]
      exact heardBy_state.trans h.state
    show (I.heardBy pkt res R).members.find? id = some m ↔ _
    rw [find?_heardBy, h.count, h.state]
    split_ifs with hrec
    · -- the packet replaces whatever has been heard from the member
      obtain ⟨hid, hrec⟩ := hrec
      have hentry : (R.entry id pkt).id = id :=
        Resource.entry_id fun m hm => ((h.find? id m).mp hm).1
      constructor
      · intro hm
        obtain rfl := Option.some.inj hm
        exact ⟨hentry, pkt, heard_append.mpr (.inl ⟨rfl, hid, hrec⟩), rfl, rfl⟩
      · rintro ⟨hmid, q, hq, hms, hmc⟩
        rcases heard_append.mp hq with ⟨hop, -, -⟩ | ⟨-, -, hnot⟩
        · obtain rfl := TableOp.deliver.inj hop
          refine congrArg some ?_
          calc R.entry id pkt = ⟨(R.entry id pkt).id, pkt.count, .ofByte pkt.state⟩ := rfl
            _ = m := by rw [hentry, ← hmid, ← hms, ← hmc]
        · exact absurd hrec (hnot pkt rfl hid)
    · -- nobody records the packet, so that the same packets count as before
      rw [h.find?]
      refine and_congr_right fun _ => exists_congr fun q => and_congr_left fun _ => ?_
      rw [heard_append]
      constructor
      · intro hq
        refine .inr ⟨hq, by simp, ?_⟩
        rintro q' hq' hid hr
        obtain rfl := TableOp.deliver.inj hq'
        exact hrec ⟨hid, hr⟩
      · rintro (⟨hop, hid, hr⟩ | ⟨hq, -⟩)
        · obtain rfl := TableOp.deliver.inj hop
          exact absurd ⟨hid, hr⟩ hrec
        · exact hq
  -- the members stay, whatever the resource
  | setState r s' =>
    have hmembers : (I.effect res R (.setState r s')).members = R.members := by
      rw [effect]
      split_ifs <;> rfl
    refine ⟨?_, ?_, fun id m => ?_⟩
    · rw [← h.count, effect]
      split_ifs <;> rfl
    · rw [stateAfter_append, ← h.state, effect, TableOp.stateOf]
      split_ifs <;> rfl
    · rw [hmembers, h.find?]
      simp [heard_append]
  | reset r =>
    by_cases hr : r = res
    · subst hr
      rw [effect, if_pos rfl]
      refine ⟨h.count, ?_, fun id m => ?_⟩
      · rw [stateAfter_append, TableOp.stateOf, if_pos rfl]
        rfl
      · -- the table is empty, and nothing has been heard since the reset
        simp [heard_append, Action.apply]
    · rw [effect, if_neg hr]
      refine ⟨h.count, ?_, fun id m => ?_⟩
      · rw [stateAfter_append, TableOp.stateOf, if_neg hr, h.state]
      · rw [h.find?]
        simp [heard_append, hr]

/-- **The log of a run of operations.** -/
lemma reflects_foldl {s : State} (hR : I.lock.getResource res = some R) (hs : R.state = s)
    (hempty : R.members = .empty) (ops : List TableOp) :
    ∃ R', (ops.foldl perform I).lock.getResource res = some R' ∧
      (ops.foldl perform I).lock.id = I.lock.id ∧ Reflects I.lock.id res R.count s ops R' := by
  induction ops using List.reverseRecOn with
  | nil =>
    refine ⟨R, hR, rfl, rfl, hs, fun id m => ?_⟩
    rw [hempty]
    simp [not_heard_nil]
  | append_singleton ops op ih =>
    obtain ⟨R', hR', hid, href⟩ := ih
    rw [List.foldl_append, List.foldl_cons, List.foldl_nil]
    refine ⟨_, by rw [getResource_perform, hR']; rfl, by rw [perform_id, hid], ?_⟩
    rw [← hid] at href ⊢
    exact href.perform op

/-- The members that are announced as holders, among those that have been heard. -/
lemma Reflects.isAcquirable_iff {own c : UInt32} {s : State} {ops : List TableOp}
    (h : Reflects own res c s ops R) :
    R.isAcquirable = true ↔
      {id | ∃ m, R.members.find? id = some m ∧ m.state = .acquired}.ncard < R.count.toNat := by
  have hown : R.members.find? own = none := by
    refine Option.eq_none_iff_forall_ne_some.mpr fun m hm => ?_
    obtain ⟨-, pkt, ⟨i, ⟨-, hrec⟩, hid, -⟩, -⟩ := (h.find? own m).mp hm
    exact hrec.2.1 hid
  rw [Resource.isAcquirable_iff hown]
  have hcard := R.members.countP_entries fun m => decide (m.state = .acquired)
  simp only [decide_eq_true_iff] at hcard
  rw [hcard]

/-- **The member tables refine the log.**  Let the tables of an instance be empty, and let any
operations follow.  Then the entry of a member in the table of a resource is the last of its
packets that the resource has recorded since it was last reset, and there is no other entry;
the resource can be acquired if and only if fewer members than its count are entered as
holders; and no delivery changes the state or the count of a resource, or the table of another
one than it names. -/
theorem members_refine_log
    (hempty : ∀ r R, I.lock.getResource r = some R → R.members = .empty) (ops : List TableOp) :
    (∀ r R, I.lock.getResource r = some R → ∃ R',
      (ops.foldl perform I).lock.getResource r = some R' ∧ R'.count = R.count ∧
      R'.state = stateAfter r R.state ops ∧
      (∀ id m, R'.members.find? id = some m ↔
        m.id = id ∧ ∃ pkt, Heard I.lock.id r R.count R.state ops id pkt ∧
          m.state = .ofByte pkt.state ∧ m.count = pkt.count) ∧
      (R'.isAcquirable = true ↔
        {id | ∃ m, R'.members.find? id = some m ∧ m.state = .acquired}.ncard <
          R'.count.toNat)) ∧
    ∀ pkt r R, (ops.foldl perform I).lock.getResource r = some R → ∃ R',
      ((ops.foldl perform I).perform (.deliver pkt)).lock.getResource r = some R' ∧
      R'.state = R.state ∧ R'.count = R.count ∧ (r ≠ pkt.resource → R'.members = R.members) := by
  constructor
  · intro r R hR
    obtain ⟨R', hR', -, href⟩ := reflects_foldl hR rfl (hempty r R hR) ops
    exact ⟨R', hR', href.count, href.state, href.find?, href.isAcquirable_iff⟩
  · intro pkt r R hR
    refine ⟨_, by rw [getResource_perform, hR]; rfl, heardBy_state, heardBy_count, fun hr => ?_⟩
    exact congrArg Resource.members (if_neg fun h => hr h.1)

/-- A holder of the resource `a` is heard of, and then that it has released the resource. -/
def heardRelease : List TableOp :=
  [.setState [97] .starting,
    .deliver (((DLPacket.new State.acquired.toByte 2).setResource [97]).setCount 1),
    .deliver (((DLPacket.new State.released.toByte 2).setResource [97]).setCount 1)]

theorem members_refine_release :
    ∃ R, (heardRelease.foldl perform (solo 1 [97])).lock.getResource [97] = some R ∧
      R.state = .starting ∧ R.members.find? 2 = some ⟨2, 1, .released⟩ ∧
      R.isAcquirable = true := by
  have hempty : ∀ r R, (solo 1 [97]).lock.getResource r = some R → R.members = .empty := by
    intro r R hR
    have hnew := getResource_enter (Lock.new 1 50) (.defineResource [97] 1) r
    rw [Lock.getResource_new] at hnew
    rw [show (solo 1 [97]).lock.getResource r = _ from hnew] at hR
    split_ifs at hR
    obtain rfl := Option.some.inj hR
    rfl
  obtain ⟨R, hR, -, hs, hfind, hacq⟩ :=
    (members_refine_log hempty heardRelease).1 [97] (Resource.new [97]) (by decide)
  have hlast : Heard 1 [97] 1 .idle heardRelease 2 _ :=
    ⟨2, ⟨rfl, by decide⟩, rfl, fun j hj => ?_⟩
  · refine ⟨R, hR, hs, (hfind 2 _).mpr ⟨rfl, _, hlast, rfl, rfl⟩, ?_⟩
    obtain rfl := Option.some.inj ((show _ = some R from hR).symm.trans rfl)
    decide
  · have hnone : heardRelease[j]? = none := List.getElem?_eq_none (Nat.succ_le_of_lt hj)
    rw [hnone]
    exact ⟨by simp, fun q hq => absurd hq.1 (by simp [hnone])⟩

/-! ### The steps of an instance -/

/-- One step of an instance, without what it broadcasts. -/
def proceed (I : Inst) (e : Event) : Option Inst := (I.step e).map Prod.fst

lemma proceed_eq {I' : Inst} {e : Event} (h : I.proceed e = some I') :
    ∃ sent, I.step e = some (I', sent) := by
  obtain ⟨⟨I', sent⟩, hs, rfl⟩ := Option.map_eq_some_iff.mp h
  exact ⟨sent, hs⟩

/-- The operation on the tables that a step performs, if any. -/
def op (I : Inst) : Event → Option TableOp
  | .run =>
    match I.next with
    | some (res, .setState s) => some (.setState res s)
    | some (res, .reset) => some (.reset res)
    | _ => none
  | .deliver pkt => some (.deliver pkt)
  | _ => none

/-- Two resources that differ at most in whether the beacon thread runs. -/
def SameTable (R R' : Resource) : Prop :=
  R'.count = R.count ∧ R'.state = R.state ∧ R'.members = R.members

lemma sameTable_change (I : Inst) (e : Event) (res : Name) (R : Resource) :
    SameTable ((I.op e).elim R (I.effect res R)) (I.change e res R) := by
  cases e with
  | run =>
    rw [op]
    cases hn : I.next with
    | none => exact ⟨by rw [change, hn]; rfl, by rw [change, hn]; rfl, by rw [change, hn]; rfl⟩
    | some ra =>
      obtain ⟨r, a⟩ := ra
      simp only [change, hn]
      cases a with
      | setState s | reset =>
        simp only [Option.elim_some, effect, eq_comm (a := r)]
        exact ⟨rfl, rfl, rfl⟩
      | stop =>
        simp only [Option.elim_none]
        split_ifs <;> exact ⟨rfl, rfl, rfl⟩
  | _ => exact ⟨rfl, rfl, rfl⟩

/-- **Between two calls, the tables of the machine refine the log of its steps.** -/
theorem reflects_run {I' : Inst} {es : List Event} {ops : List TableOp}
    (hR : I.lock.getResource res = some R) (hempty : R.members = .empty)
    (hrun : Lib.Run (Lib.tracedStep proceed op) (fun _ e => e.isCall = false) (I, []) es
      (I', ops)) :
    ∃ R', I'.lock.getResource res = some R' ∧
      Reflects I.lock.id res R.count R.state ops R' := by
  refine (hrun.invariant (I := fun s => s.1.lock.id = I.lock.id ∧
    ∃ R', s.1.lock.getResource res = some R' ∧
      Reflects I.lock.id res R.count R.state s.2 R') ?_ ⟨rfl, R, hR, rfl, rfl, ?_⟩).2
  · rintro ⟨J, log⟩ e s' ⟨hid, R', hR', href⟩ he hst
    obtain ⟨J', hJ', rfl⟩ := Option.map_eq_some_iff.mp hst
    obtain ⟨sent, hs⟩ := proceed_eq hJ'
    have hf := frame_step he hs
    refine ⟨hf.id_eq.trans hid, J.change e res R', by rw [hf.resource, hR']; rfl, ?_⟩
    obtain ⟨hcount, hstate, hmembers⟩ := sameTable_change J e res R'
    cases hop : J.op e with
    | none =>
      rw [hop] at hcount hstate hmembers
      rw [Option.toList_none, List.append_nil]
      exact ⟨hcount.trans href.count, hstate.trans href.state,
        fun id m => by rw [hmembers]; exact href.find? id m⟩
    | some o =>
      rw [hop] at hcount hstate hmembers
      have hnext := (show Reflects J.lock.id _ _ _ _ _ from hid ▸ href).perform o
      rw [hid] at hnext
      rw [Option.toList_some]
      exact ⟨hcount.trans hnext.count, hstate.trans hnext.state,
        fun id m => by rw [hmembers]; exact hnext.find? id m⟩
  · intro id m
    rw [hempty]
    simp [not_heard_nil]

end Inst

end DistLock
