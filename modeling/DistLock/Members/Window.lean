/-
What a resource hears while its table is not cleared.

In such a window the entry of a member is determined by the last of its packets that is
admitted, and by the entry that was there before if there is no such packet (`memberState_run`).
-/
import DistLock.Members.Log

namespace DistLock

/-- The packets about the resource that come from other instances than `own`. -/
def heardPackets (own : UInt32) (res : Name) (es : List Event) : List DLPacket :=
  es.filterMap fun
    | .deliver pkt => if pkt.resource = res ∧ pkt.memberId ≠ own then some pkt else none
    | _ => none

/-- The last of the packets that comes from the member `id`. -/
def lastFrom (id : UInt32) (pkts : List DLPacket) : Option DLPacket :=
  (pkts.filter (·.memberId = id)).getLast?

/-- The state in which a member is entered in the table. -/
def Resource.memberState (R : Resource) (id : UInt32) : Option State :=
  (R.getMember id).map (·.state)

lemma heardPackets_deliver (own : UInt32) (res : Name) (pkt : DLPacket) :
    heardPackets own res [.deliver pkt] =
      if pkt.resource = res ∧ pkt.memberId ≠ own then [pkt] else [] := by
  rw [heardPackets, List.filterMap_cons, List.filterMap_nil]
  dsimp only
  split_ifs <;> rfl

section lastFrom

variable {id : UInt32} {pkts pkts' : List DLPacket} {pkt : DLPacket}

lemma lastFrom_append :
    lastFrom id (pkts ++ pkts') = (lastFrom id pkts').or (lastFrom id pkts) := by
  rw [lastFrom, List.filter_append, List.getLast?_append]
  rfl

lemma lastFrom_eq_some (h : lastFrom id pkts = some pkt) : pkt ∈ pkts ∧ pkt.memberId = id := by
  have hmem := List.mem_of_getLast? h
  rw [List.mem_filter, decide_eq_true_iff] at hmem
  exact hmem

lemma exists_lastFrom (h : pkt ∈ pkts) : ∃ q, lastFrom pkt.memberId pkts = some q := by
  refine Option.ne_none_iff_exists'.mp fun hnone => ?_
  rw [lastFrom, List.getLast?_eq_none_iff, List.filter_eq_nil_iff] at hnone
  exact hnone pkt h (by simp)

end lastFrom

namespace Inst

variable {I I' : Inst} {e : Event} {res : Name} {R : Resource} {id : UInt32}
  {admits : DLPacket → Prop}

/-- The table of the resource is not cleared in this step, and it admits the packets that
satisfy `admits`. -/
structure Hears (res : Name) (admits : DLPacket → Prop) (I : Inst) (e : Event) : Prop where
  kept : e = .run → I.next ≠ some (res, .reset)
  active : ∀ R, I.lock.getResource res = some R → R.state ≠ .idle
  admits_iff : ∀ R, I.lock.getResource res = some R → ∀ pkt,
    (pkt.count = R.count ∨ R.state = .querying) ↔ admits pkt

variable [DecidablePred admits]

/-- One step. -/
lemma memberState_change (hR : I.lock.getResource res = some R) (h : I.Hears res admits e) :
    (I.change e res R).memberState id =
      ((lastFrom id ((heardPackets I.lock.id res [e]).filter admits)).map
        fun pkt => State.ofByte pkt.state).or (R.memberState id) := by
  have hnone : heardPackets I.lock.id res [e] = [] → (I.change e res R).members = R.members →
      (I.change e res R).memberState id =
        ((lastFrom id ((heardPackets I.lock.id res [e]).filter admits)).map
          fun pkt => State.ofByte pkt.state).or (R.memberState id) := by
    intro hp hm
    rw [hp, Resource.memberState, Resource.getMember, hm]
    rfl
  cases e with
  | run =>
    refine hnone rfl ?_
    rcases I.change_run_cases res R with hch | ⟨a, hn, hch⟩
    · rw [hch]
    · rw [hch]
      cases a with
      -- within the window no reset takes place
      | reset => exact absurd hn (h.kept rfl)
      | setState s => rfl
      | stop => rfl
  | deliver pkt =>
    have hmem : (I.heardBy pkt res R).memberState id =
        if pkt.memberId = id ∧ Recorded I.lock.id res R.count R.state pkt then
          some (.ofByte pkt.state) else R.memberState id := by
      rw [Resource.memberState, Resource.getMember, find?_heardBy]
      split_ifs <;> rfl
    rw [change, hmem]
    have hrec : Recorded I.lock.id res R.count R.state pkt ↔
        (pkt.resource = res ∧ pkt.memberId ≠ I.lock.id) ∧ admits pkt := by
      rw [Recorded, h.admits_iff R hR, and_iff_right (h.active R hR), and_assoc]
    rw [heardPackets_deliver]
    simp only [hrec]
    by_cases habout : pkt.resource = res ∧ pkt.memberId ≠ I.lock.id
    · rw [if_pos habout]
      by_cases hadm : admits pkt
      · by_cases hid : pkt.memberId = id
        · rw [if_pos ⟨hid, habout, hadm⟩]
          simp [lastFrom, hadm, hid]
        · rw [if_neg fun hif => hid hif.1]
          simp [lastFrom, hadm, hid]
      · rw [if_neg fun hif => hadm hif.2.2]
        simp [lastFrom, hadm]
    · rw [if_neg habout, if_neg fun hif => habout hif.2.1]
      rfl
  | _ => exact hnone rfl rfl

/-- **What a resource has heard in a window.** -/
lemma memberState_run {es : List Event}
    (hrun : Lib.Run proceed (fun I e => e.isCall = false ∧ I.Hears res admits e) I es I')
    (hR : I.lock.getResource res = some R) :
    ∃ R', I'.lock.getResource res = some R' ∧ I'.lock.id = I.lock.id ∧ R'.count = R.count ∧
      ∀ id, R'.memberState id =
        ((lastFrom id ((heardPackets I.lock.id res es).filter admits)).map
          fun pkt => State.ofByte pkt.state).or (R.memberState id) := by
  induction hrun generalizing R with
  | nil => exact ⟨R, hR, rfl, rfl, fun id => rfl⟩
  | @cons I I₁ I' e es he hst _ ih =>
    obtain ⟨sent, hs⟩ := proceed_eq hst
    have hf := frame_step he.1 hs
    obtain ⟨R', hR', hid, hcount, hmem⟩ := ih (by rw [hf.resource, hR]; rfl)
    refine ⟨R', hR', hid.trans hf.id_eq, hcount.trans change_count, fun id => ?_⟩
    have hsplit : heardPackets I.lock.id res (e :: es) =
        heardPackets I.lock.id res [e] ++ heardPackets I.lock.id res es := by
      rw [heardPackets, heardPackets, heardPackets, ← List.filterMap_append]
      rfl
    rw [hmem, memberState_change hR he.2, hf.id_eq, hsplit, List.filter_append, lastFrom_append,
      Option.map_or, Option.or_assoc]

end Inst
end DistLock
