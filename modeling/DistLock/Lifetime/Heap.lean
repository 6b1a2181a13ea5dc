/-
The objects of a lock instance in memory (`DistributedLock.h`, `DistributedLock.cc`).

A `Resource` is made by `createResource` and deleted by the destructor of the lock; in between its
beacon thread is joined by `stop`.  A `Member` is made when it is heard of, or as a copy for the
answer of a query, and deleted when its table is cleared.  Whether `stop` joins depends on the flag
`running` of the object, and nothing but this flag keeps the thread from being joined twice.

Every function is a number of steps of the ledger of the objects; the histories that a `Resource`
and a `Member` may have at the end are in `Freed`.
-/
import DistLock.Lib.Ledger
import DistLock.Model.Api

namespace DistLock

open Lib (OrdMap Ledger history)

/-- What happens to an object: it is made, its thread is joined, it is deleted. -/
inductive MemEvent
  | newResource
  | join
  | freeResource
  | newMember
  | freeMember
  deriving DecidableEq

/-- A `Resource` as an object: its address, the flag that `stop` tests, and the addresses in its
member table. -/
structure Obj where
  ptr : ℕ
  running : Bool
  members : OrdMap UInt32 ℕ
  deriving DecidableEq

/-- The objects of an instance: those in its resource map, and those in the list that a query
returns.  The log has what has happened to all objects. -/
structure Heap where
  next : ℕ
  resources : OrdMap Name Obj
  nList : OrdMap UInt32 ℕ
  log : List (ℕ × MemEvent)
  deriving DecidableEq

namespace Heap

/-- Before the first call. -/
def start : Heap := { next := 0, resources := .empty, nList := .empty, log := [] }

/-- `createResource`. -/
def createResource (H : Heap) (res : Name) : Heap :=
  match H.resources.find? res with
  | some _ => H
  | none =>
    { H with
      next := H.next + 1
      resources := H.resources.insert res { ptr := H.next, running := true, members := .empty }
      log := H.log ++ [(H.next, .newResource)] }

/-- `Resource::stop`; the join succeeds. -/
def stop (H : Heap) (res : Name) : Heap :=
  match H.resources.find? res with
  | some o =>
    if o.running then
      { H with
        resources := H.resources.insert res { o with running := false }
        log := H.log ++ [(o.ptr, .join)] }
    else H
  | none => H

/-- `Resource::addMember`. -/
def addMember (H : Heap) (res : Name) (id : UInt32) : Heap :=
  match H.resources.find? res with
  | some o =>
    match o.members.find? id with
    | some _ => H
    | none =>
      { H with
        next := H.next + 1
        resources := H.resources.insert res { o with members := o.members.insert id H.next }
        log := H.log ++ [(H.next, .newMember)] }
  | none => H

/-- The members of a table are deleted. -/
def freeMembers (members : OrdMap UInt32 ℕ) : List (ℕ × MemEvent) :=
  members.entries.map fun e => (e.2, .freeMember)

/-- The loop of `Resource::reset`. -/
def clearMembers (H : Heap) (res : Name) : Heap :=
  match H.resources.find? res with
  | some o =>
    { H with
      resources := H.resources.insert res { o with members := .empty }
      log := H.log ++ freeMembers o.members }
  | none => H

/-- The copy of one member in the loop of `query_lock`. -/
def copyMember (H : Heap) (id : UInt32) : Heap :=
  { H with
    next := H.next + 1
    nList := H.nList.insert id H.next
    log := H.log ++ [(H.next, .newMember)] }

/-- The loop at the end of `query_lock`. -/
def copyMembers (H : Heap) (res : Name) : Heap :=
  match H.resources.find? res with
  | some o => o.members.keys.foldl copyMember H
  | none => H

/-- The loop at the end of a query, which disposes of the copies. -/
def dispose (H : Heap) : Heap :=
  { H with nList := .empty, log := H.log ++ freeMembers H.nList }

/-- `Resource::~Resource`, and the `delete` that calls it. -/
def delete (o : Obj) : List (ℕ × MemEvent) :=
  freeMembers o.members ++ (if o.running then [(o.ptr, .join)] else []) ++ [(o.ptr, .freeResource)]

/-- One turn of the loop of `DistributedLock::~DistributedLock`. -/
def tearDown (H : Heap) (res : Name) : Heap :=
  let H := H.stop res
  match H.resources.find? res with
  | some o =>
    { H with
      resources := H.resources.filterKeys (· ≠ res)
      log := H.log ++ delete o }
  | none => H

end Heap

/-! ### The ledger -/

/-- Where an object can be reached from. -/
inductive Place
  | resource (res : Name)
  | member (res : Name) (id : UInt32)
  | copy (id : UInt32)
  deriving DecidableEq

/-- What has happened to a `Resource` that is in the map. -/
def Obj.hist (o : Obj) : List MemEvent :=
  if o.running then [.newResource] else [.newResource, .join]

/-- The object of a place, and what has happened to it. -/
def Heap.held (H : Heap) : Place → Option (ℕ × List MemEvent)
  | .resource res => (H.resources.find? res).map fun o => (o.ptr, o.hist)
  | .member res id =>
    ((H.resources.find? res).bind fun o => o.members.find? id).map fun p => (p, [.newMember])
  | .copy id => (H.nList.find? id).map fun p => (p, [.newMember])

/-- The objects of an instance as a ledger. -/
def Heap.ledger (H : Heap) : Ledger Place MemEvent :=
  { next := H.next, log := H.log, held := H.held }

/-- The histories of objects that are gone: a `Resource` is joined once, and before it is freed. -/
def Freed (hist : List MemEvent) : Prop :=
  hist = [.newResource, .join, .freeResource] ∨ hist = [.newMember, .freeMember]

namespace Heap

variable {H : Heap} {res : Name} {id : UInt32} {o : Obj}

lemma ledger_held (H : Heap) : H.ledger.held = H.held := rfl

/-- The steps of a function on the objects. -/
abbrev Steps (H H' : Heap) : Prop := Ledger.Steps Freed H.ledger H'.ledger

/-- A step of the ledger after which it is the ledger of the new heap. -/
lemma steps_of_step {H' : Heap} {B : Ledger Place MemEvent} (h : Ledger.Step Freed H.ledger B)
    (hnext : H'.next = B.next) (hlog : H'.log = B.log) (hheld : H'.held = B.held) :
    Steps H H' := by
  have heq : H'.ledger = B := by
    cases B
    rw [ledger, hnext, hlog, hheld]
  rw [Steps, heq]
  exact .single h

lemma held_resource (h : H.resources.find? res = some o) :
    H.held (.resource res) = some (o.ptr, o.hist) := by
  rw [held, h]
  rfl

lemma held_member (h : H.resources.find? res = some o) :
    H.held (.member res id) = (o.members.find? id).map fun p => (p, [.newMember]) := by
  rw [held, h]
  rfl

section insert

variable {next : ℕ} {log : List (ℕ × MemEvent)}

/-- An object that is put into the map with the members of before. -/
lemma held_insert_resource (h : ∀ id, H.held (.member res id) =
      (o.members.find? id).map fun p => (p, [.newMember])) :
    ({ H with next := next, resources := H.resources.insert res o, log := log } : Heap).held =
      Function.update H.held (.resource res) (some (o.ptr, o.hist)) := by
  funext k
  cases k with
  | resource res' =>
    rw [held, OrdMap.find?_insert]
    by_cases hres : res' = res
    · rw [if_pos hres, hres, Function.update_self]
      rfl
    · have hne : Place.resource res' ≠ .resource res := fun h => hres (Place.resource.inj h)
      rw [if_neg hres, Function.update_of_ne hne]
      rfl
  | member res' id =>
    have hne : Place.member res' id ≠ .resource res := nofun
    rw [held, OrdMap.find?_insert, Function.update_of_ne hne]
    split_ifs with hres
    · rw [hres]
      exact (h id).symm
    · rfl
  | copy id => rfl

/-- An object whose members change. -/
lemma held_insert_members_self {members : OrdMap UInt32 ℕ} :
    ({ H with
      next := next
      resources := H.resources.insert res { o with members := members }
      log := log } : Heap).held (.member res id) =
      (members.find? id).map fun p => (p, [.newMember]) := by
  rw [held, OrdMap.find?_insert_self]
  rfl

lemma held_insert_members_of_ne (h : H.resources.find? res = some o) {members : OrdMap UInt32 ℕ}
    {k : Place} (hk : ∀ id, k ≠ .member res id) :
    ({ H with
      next := next
      resources := H.resources.insert res { o with members := members }
      log := log } : Heap).held k = H.held k := by
  cases k with
  | resource res' =>
    rw [held, OrdMap.find?_insert]
    split_ifs with hres
    · rw [hres]
      exact (held_resource h).symm
    · rfl
  | member res' id =>
    have hres : res' ≠ res := fun hres => hk id (congrArg (Place.member · id) hres)
    rw [held, OrdMap.find?_insert_of_ne hres]
    rfl
  | copy id => rfl

end insert

lemma steps_createResource (H : Heap) (res : Name) : Steps H (H.createResource res) := by
  rw [createResource]
  split
  · exact .refl
  · next hnone =>
    have hfree : H.held (.resource res) = none := by rw [held, hnone]; rfl
    refine steps_of_step (.acquire (B := H.ledger) (k := .resource res) .newResource hfree) rfl rfl
      (held_insert_resource fun id => ?_)
    rw [held, hnone]
    rfl

lemma steps_stop (H : Heap) (res : Name) : Steps H (H.stop res) := by
  rw [stop]
  split
  · next o ho =>
    split_ifs with hrunning
    · have hhist : o.hist = [.newResource] := if_pos hrunning
      have hheld := hhist ▸ held_resource ho
      exact steps_of_step (.advance (B := H.ledger) (k := .resource res) .join hheld) rfl rfl
        (held_insert_resource fun id => held_member (o := o) ho)
    · exact .refl
  · exact .refl

lemma steps_addMember (H : Heap) (res : Name) (id : UInt32) : Steps H (H.addMember res id) := by
  rw [addMember]
  split
  · next o ho =>
    split
    · exact .refl
    · next hnone =>
      have hfree : H.held (.member res id) = none := by rw [held_member ho, hnone]; rfl
      refine steps_of_step (.acquire (B := H.ledger) (k := .member res id) .newMember hfree) ?_ ?_
        (funext fun k => ?_)
      · rfl
      · rfl
      dsimp only
      by_cases hk : ∃ id', k = .member res id'
      · obtain ⟨id', rfl⟩ := hk
        rw [held_insert_members_self, OrdMap.find?_insert]
        by_cases hid : id' = id
        · rw [if_pos hid, hid, Function.update_self]
          rfl
        · have hne : Place.member res id' ≠ .member res id := fun h => hid (Place.member.inj h).2
          rw [if_neg hid, Function.update_of_ne hne]
          exact (held_member ho).symm
      · have hne : k ≠ .member res id := fun h => hk ⟨id, h⟩
        rw [held_insert_members_of_ne ho fun id' h => hk ⟨id', h⟩, Function.update_of_ne hne]
        rfl
  · exact .refl

/-! ### Member tables -/

section free

variable {f : UInt32 → Place} {members : OrdMap UInt32 ℕ}

/-- The places of the members of a table. -/
def places (f : UInt32 → Place) (members : OrdMap UInt32 ℕ) : List (Place × ℕ) :=
  members.entries.map fun e => (f e.1, e.2)

lemma mem_places {x : Place × ℕ} :
    x ∈ places f members ↔ ∃ id, x.1 = f id ∧ members.find? id = some x.2 := by
  obtain ⟨k, p⟩ := x
  rw [places, List.mem_map]
  constructor
  · rintro ⟨⟨id, p⟩, he, heq⟩
    obtain ⟨rfl, rfl⟩ := Prod.mk.inj heq
    exact ⟨id, rfl, OrdMap.mem_entries_iff.mp he⟩
  · rintro ⟨id, rfl, hfind⟩
    exact ⟨⟨id, p⟩, OrdMap.mem_entries_iff.mpr hfind, rfl⟩

lemma nodup_places (hf : Function.Injective f) : ((places f members).map Prod.fst).Nodup := by
  have hkeys : (places f members).map Prod.fst = members.keys.map f := by
    rw [places, OrdMap.keys, List.keys, List.map_map, List.map_map]
    rfl
  rw [hkeys]
  exact OrdMap.keys_nodup.map hf

/-- All members of a table are deleted, and the table is forgotten. -/
lemma steps_free {H' : Heap} (hf : Function.Injective f)
    (hheld : ∀ id, H.held (f id) = (members.find? id).map fun p => (p, [.newMember]))
    (hnext : H'.next = H.next) (hlog : H'.log = H.log ++ freeMembers members)
    (hgone : ∀ id, H'.held (f id) = none)
    (hother : ∀ k, (∀ id, k ≠ f id) → H'.held k = H.held k) : Steps H H' := by
  have hown : ∀ x ∈ places f members, H.ledger.held x.1 = some (x.2, [.newMember]) := by
    intro x hx
    obtain ⟨id, hk, hfind⟩ := mem_places.mp hx
    rw [hk]
    exact (hheld id).trans (by rw [hfind]; rfl)
  have hfreed : Freed ([.newMember] ++ [.freeMember]) := .inr rfl
  have hsteps := Ledger.steps_release (nodup_places hf) hown hfreed
  have hfrees : (places f members).map (fun x => (x.2, MemEvent.freeMember)) =
      freeMembers members := by
    rw [places, List.map_map]
    rfl
  -- the places that are left empty are those of the table
  have hafter : (fun k => if k ∈ (places f members).map Prod.fst then none else H.ledger.held k) =
      H'.held := by
    funext k
    by_cases hk : ∃ id, k = f id
    · obtain ⟨id, rfl⟩ := hk
      rw [hgone id]
      split_ifs with hmem
      · rfl
      · -- without an entry in the table there is nothing at the place
        show H.held (f id) = none
        rw [hheld id, Option.map_eq_none_iff]
        by_contra hsome
        obtain ⟨p, hp⟩ := Option.ne_none_iff_exists'.mp hsome
        exact hmem (List.mem_map.mpr ⟨(f id, p), mem_places.mpr ⟨id, rfl, hp⟩, rfl⟩)
    · have hne : ∀ id, k ≠ f id := fun id h => hk ⟨id, h⟩
      rw [hother k hne, if_neg]
      · rfl
      · intro hmem
        obtain ⟨x, hx, rfl⟩ := List.mem_map.mp hmem
        obtain ⟨id, hid, -⟩ := mem_places.mp hx
        exact hne id hid
  rw [hfrees, hafter] at hsteps
  have hledger : H'.ledger =
      { H.ledger with log := H.ledger.log ++ freeMembers members, held := H'.held } := by
    rw [ledger, hnext, hlog]
    rfl
  rw [Steps, hledger]
  exact hsteps

end free

section clearMembers

@[simp] lemma clearMembers_next : (H.clearMembers res).next = H.next := by
  unfold clearMembers; split <;> rfl

lemma clearMembers_log (h : H.resources.find? res = some o) :
    (H.clearMembers res).log = H.log ++ freeMembers o.members := by
  rw [clearMembers, h]

lemma held_clearMembers_self : (H.clearMembers res).held (.member res id) = none := by
  rw [clearMembers]
  split
  · next o ho => exact held_insert_members_self
  · next hnone =>
    rw [held, hnone]
    rfl

lemma held_clearMembers_of_ne {k : Place} (hk : ∀ id, k ≠ .member res id) :
    (H.clearMembers res).held k = H.held k := by
  rw [clearMembers]
  split
  · next o ho => exact held_insert_members_of_ne ho hk
  · rfl

lemma held_clearMembers_resource {res' : Name} :
    (H.clearMembers res).held (.resource res') = H.held (.resource res') :=
  held_clearMembers_of_ne fun _ h => nomatch h

lemma held_clearMembers_copy : (H.clearMembers res).held (.copy id) = H.held (.copy id) :=
  held_clearMembers_of_ne fun _ h => nomatch h

lemma steps_clearMembers (H : Heap) (res : Name) : Steps H (H.clearMembers res) := by
  cases hfind : H.resources.find? res with
  | none =>
    rw [clearMembers, hfind]
  | some o =>
    exact steps_free (f := .member res) (fun id id' h => (Place.member.inj h).2)
      (fun id => held_member hfind) clearMembers_next (clearMembers_log hfind)
      (fun id => held_clearMembers_self) fun k hk => held_clearMembers_of_ne hk

end clearMembers

lemma steps_dispose (H : Heap) : Steps H H.dispose := by
  refine steps_free (f := .copy) (fun id id' h => Place.copy.inj h)
    (fun id => rfl) rfl rfl (fun id => rfl) fun k hk => ?_
  cases k with
  | resource res => rfl
  | member res id => rfl
  | copy id => exact absurd rfl (hk id)

/-- The copies of members whose ids are not in the list yet. -/
lemma steps_foldl_copyMember {ids : List UInt32} (hnd : ids.Nodup)
    (hfree : ∀ id ∈ ids, H.nList.find? id = none) : Steps H (ids.foldl copyMember H) := by
  induction ids generalizing H with
  | nil => exact .refl
  | cons id ids ih =>
    obtain ⟨hid, hnd⟩ := List.nodup_cons.mp hnd
    have hfirst : Steps H (H.copyMember id) := by
      have hheld : H.held (.copy id) = none := by
        rw [held, hfree id List.mem_cons_self]
        rfl
      refine steps_of_step (.acquire (B := H.ledger) (k := .copy id) .newMember hheld) rfl rfl
        (funext fun k => ?_)
      cases k with
      | resource res =>
        have hne : Place.resource res ≠ .copy id := nofun
        exact (Function.update_of_ne hne (some (H.next, [.newMember])) H.held).symm
      | member res id' =>
        have hne : Place.member res id' ≠ .copy id := nofun
        exact (Function.update_of_ne hne (some (H.next, [.newMember])) H.held).symm
      | copy id' =>
        rw [held, copyMember]
        dsimp only
        rw [OrdMap.find?_insert]
        by_cases heq : id' = id
        · rw [if_pos heq, heq, Function.update_self]
          rfl
        · have hne : Place.copy id' ≠ .copy id := fun h => heq (Place.copy.inj h)
          rw [if_neg heq, Function.update_of_ne hne]
          rfl
    refine hfirst.trans (ih hnd fun id' hid' => ?_)
    have hne : id' ≠ id := ne_of_mem_of_not_mem hid' hid
    exact (OrdMap.find?_insert_of_ne hne).trans (hfree id' (List.mem_cons_of_mem _ hid'))

/-- The list of a query is empty before and after it. -/
lemma steps_copyMembers (H : Heap) (res : Name) (hnone : H.nList = .empty) :
    Steps H (H.copyMembers res) := by
  rw [copyMembers]
  split
  · next o ho =>
    refine steps_foldl_copyMember OrdMap.keys_nodup fun id _ => ?_
    rw [hnone]
    exact OrdMap.find?_empty
  · exact .refl

/-! ### The destructor -/

/-- The object after `stop`. -/
lemma find?_stop_self (h : H.resources.find? res = some o) :
    (H.stop res).resources.find? res = some { o with running := false } := by
  rw [stop, h]
  dsimp only
  split_ifs with hrunning
  · exact OrdMap.find?_insert_self
  · have hfalse : o.running = false := Bool.not_eq_true _ ▸ hrunning
    rw [h, ← hfalse]

lemma stop_of_none (h : H.resources.find? res = none) : H.stop res = H := by
  rw [stop, h]

/-- The destructor finds the thread joined, and only deletes the members and the object. -/
lemma delete_stopped (o : Obj) : delete { o with running := false } =
    freeMembers o.members ++ [(o.ptr, .freeResource)] := by
  rw [delete, if_neg Bool.false_ne_true, List.append_nil]

lemma steps_tearDown (H : Heap) (res : Name) : Steps H (H.tearDown res) := by
  rw [tearDown]
  cases hfind : H.resources.find? res with
  | none =>
    rw [stop_of_none hfind, hfind]
  | some o =>
    have hstop := find?_stop_self hfind
    have hsteps := (steps_stop H res).trans (steps_clearMembers (H.stop res) res)
    have hheld : ((H.stop res).clearMembers res).held (.resource res) =
        some (o.ptr, [.newResource, .join]) := by
      rw [held_clearMembers_resource, held_resource hstop]
      rfl
    rw [hstop]
    refine hsteps.trans (steps_of_step (.release (B := ((H.stop res).clearMembers res).ledger)
      (k := .resource res) .freeResource hheld (.inl rfl)) ?_ ?_ (funext fun k => ?_))
    · exact (@clearMembers_next (H.stop res) res).symm
    · show (H.stop res).log ++ delete _ = ((H.stop res).clearMembers res).log ++ _
      rw [clearMembers_log hstop, delete_stopped, List.append_assoc]
    · dsimp only
      rw [ledger_held]
      cases k with
      | resource res' =>
        rw [held, OrdMap.find?_filterKeys_ne]
        split_ifs with hres
        · rw [hres, Function.update_self]
          rfl
        · have hne : Place.resource res' ≠ .resource res := fun h => hres (Place.resource.inj h)
          rw [Function.update_of_ne hne, held_clearMembers_resource]
          rfl
      | member res' id =>
        have hne : Place.member res' id ≠ .resource res := nofun
        rw [held, OrdMap.find?_filterKeys_ne, Function.update_of_ne hne]
        split_ifs with hres
        · rw [hres, held_clearMembers_self]
          rfl
        · rw [held_clearMembers_of_ne fun id' h => hres (Place.member.inj h).1]
          rfl
      | copy id =>
        have hne : Place.copy id ≠ .resource res := nofun
        rw [Function.update_of_ne hne, held_clearMembers_copy]
        rfl

end Heap
end DistLock
