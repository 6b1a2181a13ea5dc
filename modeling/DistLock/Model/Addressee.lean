/-
Which resource a packet reaches.

The name travels in at most `RES_BUFF` bytes, while the instances look it up in full.  A packet
about a longer name is therefore taken for one about the first `RES_BUFF` bytes of the name
(`addressee_iff`).
-/
import DistLock.Model.Spec

namespace DistLock
namespace Inst

variable {A B : Inst} {n : Name} {p : DLPacket}

/-- What is left of a name without NUL bytes after the wire. -/
lemma ofPayload_beacon (h : 0 ∉ n) {R : Resource} (hR : R.name = n) (id : UInt32) :
    DLPacket.ofPayload (R.beacon id).build =
      some { R.beacon id with resource := n.take RES_BUFF } := by
  have htake : 0 ∉ n.take RES_BUFF := fun hmem => h (List.mem_of_mem_take hmem)
  rw [DLPacket.ofPayload_build, Resource.beacon_resource, hR, DLPacket.cStr_eq_self htake]

/-- **Which resource a packet reaches.**  The packet that `A` sends about its resource `n` is
decoded by `B`, and it is looked up as the resource `n` of `B`, or as none if `B` has none of
this name, if and only if the name fits into `RES_BUFF` bytes or `B` knows neither the name nor
its first `RES_BUFF` bytes. -/
theorem addressee_iff (hA : A.lock.Named) (hB : B.lock.Named) (hid : A.lock.id ≠ B.lock.id)
    (hn : 0 ∉ n) (hp : p ∈ A.lock.sendBeacon n) :
    ∃ p', DLPacket.ofPayload p.build = some p' ∧
      (B.addressee p' = B.lock.getResource n ↔
        n.length ≤ RES_BUFF ∨ n ∉ B.lock.names ∧ n.take RES_BUFF ∉ B.lock.names) := by
  obtain ⟨R, hR, rfl⟩ := Lock.mem_sendBeacon hp
  refine ⟨_, ofPayload_beacon hn (hA n R hR) A.lock.id, ?_⟩
  show (if A.lock.id = B.lock.id then none else B.lock.getResource (n.take RES_BUFF)) = _ ↔ _
  rw [if_neg hid]
  rcases le_or_gt n.length RES_BUFF with hlen | hlen
  · rw [List.take_of_length_le hlen]
    exact iff_of_true rfl (.inl hlen)
  · -- the name has been cut, so that it is looked up as another one
    have hne : n.take RES_BUFF ≠ n := by
      intro h
      have := congrArg List.length h
      rw [List.length_take] at this
      omega
    rw [Lock.mem_names_iff, Lock.mem_names_iff]
    constructor
    · intro h
      refine .inr ⟨?_, ?_⟩
      · rintro ⟨R', hR'⟩
        exact hne ((hB _ R' (h.trans hR')).symm.trans (hB _ R' hR'))
      · rintro ⟨R', hR'⟩
        exact hne ((hB _ R' hR').symm.trans (hB _ R' (h.symm.trans hR')))
    · rintro (h | ⟨h, h'⟩)
      · exact absurd h (not_le.mpr hlen)
      · have hnone : ∀ {m : Name}, ¬ (∃ R', B.lock.getResource m = some R') →
            B.lock.getResource m = none := fun h =>
          Option.eq_none_iff_forall_ne_some.mpr fun R' hR' => h ⟨R', hR'⟩
        rw [hnone h, hnone h']

/-- An instance with a single resource. -/
def solo (id : UInt32) (res : Name) : Inst :=
  ⟨(Lock.new id 50).defineResource res 1, .free none⟩

lemma solo_named (id : UInt32) (res : Name) : (solo id res).lock.Named := by
  have hs : step ⟨Lock.new id 50, .free none⟩ (.call (.defineResource res 1)) =
      some (⟨(solo id res).lock, .free (some true)⟩, []) := rfl
  have h : (⟨(solo id res).lock, .free (some true)⟩ : Inst).lock.Named :=
    named_step (Lock.named_new id 50) hs
  exact h

/-- A name of one byte. -/
theorem addressee_short :
    ∃ p ∈ (solo 1 [97]).lock.sendBeacon [97], ∃ p', DLPacket.ofPayload p.build = some p' ∧
      (solo 2 [97]).addressee p' = (solo 2 [97]).lock.getResource [97] := by
  have hp : (Resource.new [97]).beacon 1 ∈ (solo 1 [97]).lock.sendBeacon [97] := by decide
  obtain ⟨p', hp', h⟩ :=
    addressee_iff (solo_named 1 [97]) (solo_named 2 [97]) (by decide) (by decide) hp
  exact ⟨_, hp, p', hp', h.mpr (.inl (by decide))⟩

/-- A name of `RES_BUFF + 1` bytes does not reach the resource of this name, and it reaches
one whose name is the part that fits. -/
theorem addressee_long :
    let n : Name := List.replicate (RES_BUFF + 1) 97
    ∃ p ∈ (solo 1 n).lock.sendBeacon n, ∃ p', DLPacket.ofPayload p.build = some p' ∧
      (solo 2 n).lock.getResource n ≠ none ∧ (solo 2 n).addressee p' = none ∧
      (solo 3 (n.take RES_BUFF)).lock.getResource n = none ∧
      (solo 3 (n.take RES_BUFF)).addressee p' ≠ none := by
  intro n
  have hp : (Resource.new n).beacon 1 ∈ (solo 1 n).lock.sendBeacon n := by decide +kernel
  exact ⟨_, hp, _, ofPayload_beacon (by decide +kernel) rfl 1, by decide +kernel⟩

end Inst
end DistLock
