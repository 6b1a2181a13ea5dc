/-
The data of a `DistributedLock` instance and the operations on one of its resources
(`DistributedLock.h`, `DistributedLock.cc`).

Every assignment of a state goes through `setState`, which also broadcasts the new state; the
packets that an operation broadcasts are returned with its result.
-/
import DistLock.Model.Resource

namespace DistLock

open Lib (OrdMap)

/-- `DistributedLock`, as far as it is data.  `max_backoff` is never assigned, so it is a
constant. -/
structure Lock where
  id : UInt32
  beaconTime : UInt64
  retryMax : UInt32
  resources : OrdMap Name Resource
  deriving DecidableEq

/-- `MAX_BACKOFF`. -/
def maxBackoff : UInt64 := 6

namespace Lock

/-- `DistributedLock(unsigned int id, ...)`, for an id that is not zero. -/
def new (id : UInt32) (beaconTime : UInt64) : Lock where
  id := id
  beaconTime := beaconTime
  retryMax := 0
  resources := .empty

/-- The names of the resources, in the order in which the code iterates over them. -/
def names (L : Lock) : List Name := L.resources.keys

def getResource (L : Lock) (res : Name) : Option Resource := L.resources.find? res

/-- An operation on the object of a resource; nothing happens without one. -/
def modify (L : Lock) (res : Name) (f : Resource → Resource) : Lock :=
  match L.getResource res with
  | some R => { L with resources := L.resources.insert res (f R) }
  | none => L

/-- `DistributedLock::createResource`: an existing resource is left as it is. -/
def createResource (L : Lock) (res : Name) : Lock :=
  match L.getResource res with
  | some _ => L
  | none => { L with resources := L.resources.insert res (Resource.new res) }

/-- `DistributedLock::defineResource`. -/
def defineResource (L : Lock) (res : Name) (count : UInt32) : Lock :=
  let L := L.createResource res
  if count > 1 then L.modify res (·.setCount count) else L

/-- `Resource::sendBeacon`. -/
def sendBeacon (L : Lock) (res : Name) : List DLPacket :=
  match L.getResource res with
  | some R => [R.beacon L.id]
  | none => []

/-- `Resource::setState`. -/
def setState (L : Lock) (res : Name) (s : State) : Lock × List DLPacket :=
  let L := L.modify res fun R => { R with state := s }
  (L, L.sendBeacon res)

/-- `Resource::reset`. -/
def reset (L : Lock) (res : Name) : Lock × List DLPacket :=
  let (L, sent) := L.setState res .idle
  (L.modify res (·.clearMembers), sent)

/-- `Resource::stop`: the beacon thread is told to end and joined. -/
def stop (L : Lock) (res : Name) : Lock :=
  L.modify res fun R => if R.running then { R with running := false } else R

/-- `Resource::isAcquirable` for the resource of the given name. -/
def isAcquirable (L : Lock) (res : Name) : Bool :=
  match L.getResource res with
  | some R => R.isAcquirable
  | none => false

/-- The state of a resource, if there is one. -/
def stateOf (L : Lock) (res : Name) : Option State := (L.getResource res).map (·.state)

@[simp] lemma getResource_new {id : UInt32} {beaconTime : UInt64} {res : Name} :
    (Lock.new id beaconTime).getResource res = none := OrdMap.find?_empty

/-- A lock is determined by its resources. -/
lemma ext_getResource {L L' : Lock} (hid : L.id = L'.id) (hbt : L.beaconTime = L'.beaconTime)
    (hrm : L.retryMax = L'.retryMax) (hres : ∀ n, L.getResource n = L'.getResource n) :
    L = L' := by
  obtain ⟨id, bt, rm, R⟩ := L
  obtain ⟨id', bt', rm', R'⟩ := L'
  obtain rfl : id = id' := hid
  obtain rfl : bt = bt' := hbt
  obtain rfl : rm = rm' := hrm
  obtain rfl : R = R' := OrdMap.ext_find? hres
  rfl

/-! ### One resource at a time -/

section modify

variable {L : Lock} {res res' : Name} {f : Resource → Resource} {R : Resource}

@[simp] lemma modify_id : (L.modify res f).id = L.id := by
  unfold modify; split <;> rfl

@[simp] lemma modify_beaconTime : (L.modify res f).beaconTime = L.beaconTime := by
  unfold modify; split <;> rfl

@[simp] lemma modify_retryMax : (L.modify res f).retryMax = L.retryMax := by
  unfold modify; split <;> rfl

lemma getResource_modify_self :
    (L.modify res f).getResource res = (L.getResource res).map f := by
  rw [modify]
  split
  · next R hR => exact OrdMap.find?_insert_self.trans (by rw [hR]; rfl)
  · next hR => rw [hR]; rfl

lemma getResource_modify_of_ne (h : res' ≠ res) :
    (L.modify res f).getResource res' = L.getResource res' := by
  rw [modify]
  split
  · exact OrdMap.find?_insert_of_ne h
  · rfl

/-- Operations on existing resources keep the order of iteration. -/
@[simp] lemma names_modify : (L.modify res f).names = L.names := by
  rw [modify]
  split
  · next R hR => exact OrdMap.keys_insert_of_mem (OrdMap.mem_keys_iff.mpr ⟨R, hR⟩)
  · rfl

lemma mem_names_iff : res ∈ L.names ↔ ∃ R, L.getResource res = some R := OrdMap.mem_keys_iff

lemma isSome_getResource : (L.getResource res).isSome = true ↔ res ∈ L.names :=
  Option.isSome_iff_exists.trans mem_names_iff.symm

lemma isNone_getResource : (L.getResource res).isNone = true ↔ res ∉ L.names := by
  rw [Option.isNone_iff_eq_none, mem_names_iff, ← Option.ne_none_iff_exists', not_not]

lemma names_nodup (L : Lock) : L.names.Nodup := OrdMap.keys_nodup

lemma getResource_modify :
    (L.modify res f).getResource res' =
      if res' = res then (L.getResource res').map f else L.getResource res' := by
  split_ifs with h
  · rw [h, getResource_modify_self]
  · exact getResource_modify_of_ne h

/-- Two operations on the same resource are one. -/
lemma modify_modify {g : Resource → Resource} :
    (L.modify res f).modify res g = L.modify res fun R => g (f R) := by
  refine ext_getResource (by simp) (by simp) (by simp) fun n => ?_
  rw [getResource_modify, getResource_modify, getResource_modify]
  split_ifs
  · rw [Option.map_map]
    rfl
  · rfl

end modify

section createResource

variable {L : Lock} {res res' : Name}

@[simp] lemma createResource_id : (L.createResource res).id = L.id := by
  unfold createResource; split <;> rfl

@[simp] lemma createResource_beaconTime : (L.createResource res).beaconTime = L.beaconTime := by
  unfold createResource; split <;> rfl

@[simp] lemma createResource_retryMax : (L.createResource res).retryMax = L.retryMax := by
  unfold createResource; split <;> rfl

lemma getResource_createResource :
    (L.createResource res).getResource res' =
      if res' = res then some ((L.getResource res).getD (Resource.new res))
      else L.getResource res' := by
  rw [createResource]
  split
  · next R hR =>
    split_ifs with h
    · rw [h, hR]; rfl
    · rfl
  · next hR =>
    split_ifs with h
    · subst h
      exact OrdMap.find?_insert_self.trans (by rw [hR]; rfl)
    · exact OrdMap.find?_insert_of_ne h

lemma mem_names_createResource :
    res' ∈ (L.createResource res).names ↔ res' = res ∨ res' ∈ L.names := by
  rw [mem_names_iff, mem_names_iff, getResource_createResource]
  split_ifs with h <;> simp [h]

end createResource

section setState

variable {L : Lock} {res res' : Name} {s : State}

@[simp] lemma setState_id : (L.setState res s).1.id = L.id := modify_id

@[simp] lemma setState_names : (L.setState res s).1.names = L.names := names_modify

lemma getResource_setState :
    (L.setState res s).1.getResource res' =
      if res' = res then (L.getResource res').map fun R => { R with state := s }
      else L.getResource res' :=
  getResource_modify

/-- Only the last of two assignments counts. -/
lemma setState_setState {t : State} :
    (L.setState res s).1.setState res t = L.setState res t := by
  rw [setState, setState, setState, modify_modify]

/-- `setState` broadcasts exactly the new state of its resource. -/
lemma setState_sent {R : Resource} (h : L.getResource res = some R) :
    (L.setState res s).2 = [({ R with state := s } : Resource).beacon L.id] := by
  have hR : (L.setState res s).1.getResource res = some { R with state := s } := by
    rw [getResource_setState, if_pos rfl, h]
    rfl
  show sendBeacon (L.setState res s).1 res = _
  rw [sendBeacon, hR, setState_id]

end setState

end Lock
end DistLock
