/-
A resource of a lock instance (`DistributedLock::Resource` in `DistributedLock.h` and
`DistributedLock.cc`): its announced state, its count, and the table of the members that
have been heard of.

The fields `owner` and the time stamps `tp` are never read and are left out, and so is
`removeMember`, which is never called.  The beacon thread is modelled separately.
-/
import DistLock.Lib.OrdMap
import DistLock.Wire.DLPacket

namespace DistLock

open Lib (OrdMap)

/-- `Resource::State`.  A state byte that is received from the network is cast to the
enumeration without a check, hence the last constructor. -/
inductive State
  | idle
  | starting
  | acquiring
  | acquired
  | released
  | querying
  | unnamed (b : UInt8) (h : 5 < b)
  deriving DecidableEq

namespace State

/-- The value of an enumerator. -/
def toByte : State → UInt8
  | idle => 0
  | starting => 1
  | acquiring => 2
  | acquired => 3
  | released => 4
  | querying => 5
  | unnamed b _ => b

/-- The cast `(Resource::State)pkt->getState()`. -/
def ofByte (b : UInt8) : State :=
  if h : 5 < b then unnamed b h
  else if b = 0 then idle
  else if b = 1 then starting
  else if b = 2 then acquiring
  else if b = 3 then acquired
  else if b = 4 then released
  else querying

@[simp] lemma ofByte_toByte (s : State) : ofByte s.toByte = s := by
  cases s with
  | unnamed b h => simp [toByte, ofByte, h]
  | _ => rfl

@[simp] lemma toByte_ofByte (b : UInt8) : (ofByte b).toByte = b := by
  rw [ofByte]
  split_ifs with h h₀ h₁ h₂ h₃ h₄
  · rfl
  · exact h₀.symm
  · exact h₁.symm
  · exact h₂.symm
  · exact h₃.symm
  · exact h₄.symm
  · -- the only byte that is left is the one of `querying`
    have hb := UInt8.le_iff_toNat_le.mp (UInt8.not_lt.mp h)
    have hne : ∀ c : UInt8, b ≠ c → b.toNat ≠ c.toNat := fun c hc he => hc (UInt8.toNat_inj.mp he)
    have h₀ := hne _ h₀
    have h₁ := hne _ h₁
    have h₂ := hne _ h₂
    have h₃ := hne _ h₃
    have h₄ := hne _ h₄
    simp only [UInt8.reduceToNat] at hb h₀ h₁ h₂ h₃ h₄
    apply UInt8.toNat_inj.mp
    show 5 = b.toNat
    omega

/-- The states in which a resource takes part in the competition. -/
def Claimed (s : State) : Prop := s = starting ∨ s = acquiring ∨ s = acquired

instance (s : State) : Decidable s.Claimed :=
  inferInstanceAs (Decidable (s = starting ∨ s = acquiring ∨ s = acquired))

end State

/-- `Resource::Member`. -/
structure Member where
  id : UInt32
  count : UInt32
  state : State
  deriving DecidableEq

/-- `Member(unsigned int _id)`. -/
def Member.new (id : UInt32) : Member where
  id := id
  count := 0
  state := .idle

/-- `DistributedLock::Resource`. -/
structure Resource where
  name : Name
  running : Bool
  state : State
  count : UInt32
  members : OrdMap UInt32 Member
  deriving DecidableEq

namespace Resource

/-- `Resource(DistributedLock* p, std::string name)`; the beacon thread is started. -/
def new (name : Name) : Resource where
  name := name
  running := true
  state := .idle
  count := 1
  members := .empty

def setCount (R : Resource) (c : UInt32) : Resource := { R with count := c }

def getMember (R : Resource) (id : UInt32) : Option Member := R.members.find? id

/-- `Resource::addMember`: the entry of `id`, which is created unless it exists. -/
def addMember (R : Resource) (id : UInt32) : Resource × Member :=
  match R.getMember id with
  | some m => (R, m)
  | none => ({ R with members := R.members.insert id (Member.new id) }, Member.new id)

/-- `Resource::updateMember`: only the members that report the same count are recorded,
unless the resource is being queried. -/
def updateMember (R : Resource) (id : UInt32) (state : State) (count : UInt32) : Resource :=
  if R.count = count ∨ R.state = .querying then
    let (R, m) := R.addMember id
    { R with members := R.members.insert id { m with count := count, state := state } }
  else R

/-- `num_members` of `Resource::isAcquirable`, a 32-bit counter. -/
def numMembers (R : Resource) : UInt32 :=
  R.members.entries.foldl (fun n e => if e.2.state = .acquired then n + 1 else n) 0

/-- `Resource::isAcquirable`. -/
def isAcquirable (R : Resource) : Bool := R.numMembers < R.count

/-- The loop of `Resource::reset` that deletes all members. -/
def clearMembers (R : Resource) : Resource := { R with members := .empty }

/-- The packet that `Resource::sendBeacon` builds for an instance with the given id. -/
def beacon (R : Resource) (id : UInt32) : DLPacket :=
  ((DLPacket.new R.state.toByte id).setResource R.name).setCount R.count

/-! ### What the operations do to the member table -/

@[simp] lemma beacon_state (R : Resource) (id : UInt32) : (R.beacon id).state = R.state.toByte :=
  rfl

@[simp] lemma beacon_memberId (R : Resource) (id : UInt32) : (R.beacon id).memberId = id := rfl

@[simp] lemma beacon_count (R : Resource) (id : UInt32) : (R.beacon id).count = R.count := rfl

@[simp] lemma beacon_resource (R : Resource) (id : UInt32) : (R.beacon id).resource = R.name :=
  rfl

@[simp] lemma addMember_fst_name (R : Resource) (id : UInt32) :
    (R.addMember id).1.name = R.name := by
  unfold addMember; split <;> rfl

@[simp] lemma addMember_fst_running (R : Resource) (id : UInt32) :
    (R.addMember id).1.running = R.running := by
  unfold addMember; split <;> rfl

@[simp] lemma addMember_fst_state (R : Resource) (id : UInt32) :
    (R.addMember id).1.state = R.state := by
  unfold addMember; split <;> rfl

@[simp] lemma addMember_fst_count (R : Resource) (id : UInt32) :
    (R.addMember id).1.count = R.count := by
  unfold addMember; split <;> rfl

lemma addMember_find?_of_ne {R : Resource} {id j : UInt32} (h : j ≠ id) :
    (R.addMember id).1.members.find? j = R.members.find? j := by
  rw [addMember]
  split
  · rfl
  · exact OrdMap.find?_insert_of_ne h

section updateMember

variable (R : Resource) (id : UInt32) (s : State) (c : UInt32)

@[simp] lemma updateMember_name : (R.updateMember id s c).name = R.name := by
  unfold updateMember; split_ifs <;> simp

@[simp] lemma updateMember_running : (R.updateMember id s c).running = R.running := by
  unfold updateMember; split_ifs <;> simp

@[simp] lemma updateMember_state : (R.updateMember id s c).state = R.state := by
  unfold updateMember; split_ifs <;> simp

@[simp] lemma updateMember_count : (R.updateMember id s c).count = R.count := by
  unfold updateMember; split_ifs <;> simp

variable {R id s c}

/-- The entry of the member that has been heard. -/
lemma updateMember_find?_self (h : R.count = c ∨ R.state = .querying) :
    ∃ m, (R.updateMember id s c).members.find? id = some m ∧ m.state = s ∧ m.count = c := by
  rw [updateMember, if_pos h]
  exact ⟨_, OrdMap.find?_insert_self, rfl, rfl⟩

lemma updateMember_find?_of_ne {j : UInt32} (h : j ≠ id) :
    (R.updateMember id s c).members.find? j = R.members.find? j := by
  rw [updateMember]
  split_ifs
  · exact (OrdMap.find?_insert_of_ne h).trans (addMember_find?_of_ne h)
  · rfl

/-- The entry is overwritten, or it is made for a new member. -/
lemma updateMember_eq (h : R.count = c ∨ R.state = .querying) :
    R.updateMember id s c = { R with
      members := R.members.insert id
        { (R.getMember id).getD (Member.new id) with count := c, state := s } } := by
  rw [updateMember, if_pos h, addMember]
  cases hm : R.getMember id with
  | some m => rfl
  | none =>
    have htwice : (R.members.insert id (Member.new id)).insert id
        { Member.new id with count := c, state := s } =
          R.members.insert id { Member.new id with count := c, state := s } := by
      refine OrdMap.ext_find? fun j => ?_
      rw [OrdMap.find?_insert, OrdMap.find?_insert, OrdMap.find?_insert]
      split_ifs <;> rfl
    show ({ R with members := (R.members.insert id (Member.new id)).insert id _ } : Resource) = _
    rw [htwice]
    rfl

/-- A packet with another count is ignored, except while the resource is being queried. -/
lemma updateMember_of_not (h : ¬ (R.count = c ∨ R.state = .querying)) :
    R.updateMember id s c = R := by
  rw [updateMember, if_neg h]

end updateMember

/-- The counter counts the members that are announced as holders, modulo `2 ^ 32`. -/
lemma toNat_numMembers (R : Resource) :
    R.numMembers.toNat = R.members.entries.countP (fun e => e.2.state = .acquired) % 2 ^ 32 := by
  have hfold : ∀ (es : List ((_ : UInt32) × Member)) (n : UInt32),
      (es.foldl (fun n e => if e.2.state = .acquired then n + 1 else n) n).toNat =
        (n.toNat + es.countP fun e => e.2.state = .acquired) % 2 ^ 32 := by
    intro es
    induction es with
    | nil =>
      intro n
      have := n.toNat_lt
      simp only [List.foldl_nil, List.countP_nil]
      omega
    | cons e es ih =>
      intro n
      rw [List.foldl_cons, ih, List.countP_cons]
      by_cases he : e.2.state = .acquired
      · simp only [he, if_true, UInt32.toNat_add, UInt32.reduceToNat, decide_true]
        omega
      · simp [he]
  rw [numMembers, hfold, UInt32.toNat_zero, zero_add]

/-- A table without the id of the instance itself has fewer entries than there are ids. -/
lemma countP_members_lt {R : Resource} {id : UInt32} (h : R.members.find? id = none)
    (p : ((_ : UInt32) × Member) → Bool) : R.members.entries.countP p < 2 ^ 32 := by
  have hnot : id ∉ R.members.keys := by
    rw [OrdMap.mem_keys_iff, h]
    simp
  have hnd : ((id :: R.members.keys).map UInt32.toNat).Nodup := by
    refine List.Nodup.map (fun a b hab => UInt32.toNat_inj.mp hab) ?_
    exact List.nodup_cons.mpr ⟨hnot, OrdMap.keys_nodup⟩
  have hsub : (id :: R.members.keys).map UInt32.toNat ⊆ List.range (2 ^ 32) := by
    intro n hn
    obtain ⟨i, -, rfl⟩ := List.mem_map.mp hn
    exact List.mem_range.mpr i.toNat_lt
  have hlen := (List.subperm_of_subset hnd hsub).length_le
  rw [List.length_map, List.length_cons, List.length_range] at hlen
  have hcount : R.members.entries.countP p ≤ R.members.keys.length := by
    rw [OrdMap.keys, List.keys, List.length_map]
    exact List.countP_le_length
  omega

/-- As long as the table has no entry for the instance itself, the counter does not wrap
around. -/
lemma isAcquirable_iff {R : Resource} {id : UInt32} (h : R.members.find? id = none) :
    R.isAcquirable = true ↔
      R.members.entries.countP (fun e => e.2.state = .acquired) < R.count.toNat := by
  rw [isAcquirable, decide_eq_true_iff, UInt32.lt_iff_toNat_lt, toNat_numMembers,
    Nat.mod_eq_of_lt (countP_members_lt h _)]

end Resource
end DistLock
