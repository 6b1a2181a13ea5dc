/-
A lock instance from its construction to the end of its destructor (`DistributedLock.h`).

The machine of the public functions is run together with the objects of the instance.  The
destructor begins when no function is running: it releases everything, waits for the deliveries of
packets to be over, and then stops and deletes one resource after the other.  When it has come to
its end, every object has been deleted, and every beacon thread joined, exactly once
(`joined_once`).
-/
import DistLock.Lib.Run
import DistLock.Lifetime.Heap
import DistLock.Model.Spec

namespace DistLock

open Lib (OrdMap Run history)

/-- What an action of the calling thread does to the objects. -/
def Heap.act (H : Heap) (res : Name) : Inst.Action → Heap
  | .setState _ => H
  | .reset => H.clearMembers res
  | .stop => H.stop res

/-- What a step of the instance does to its objects. -/
def Heap.effect (H : Heap) (I : Inst) : Event → Heap
  | .call c =>
    match Inst.creates c with
    | some res => H.createResource res
    | none => H
  | .run =>
    match I.ctl with
    | .query _ res .collect => (H.copyMembers res).dispose
    | _ =>
      match I.next with
      | some (res, a) => H.act res a
      | none => H
  | .deliver pkt =>
    match I.addressee pkt with
    | some R =>
      if R.state ≠ .idle ∧ (R.count = pkt.count ∨ R.state = .querying) then
        H.addMember pkt.resource pkt.memberId
      else H
    | none => H
  | _ => H

/-- How far the destructor is: not begun, in `releaseAll`, with the lock `update_m`, at its end. -/
inductive Life
  | alive
  | releasing
  | tearing
  | gone
  deriving DecidableEq

/-- An instance with its objects. -/
structure Owner where
  inst : Inst
  heap : Heap
  life : Life
  deriving DecidableEq

/-- What can happen: a step of the instance, or of the destructor. -/
inductive LifeEvent
  | inst (e : Event)
  | destroy
  | lockUpdate
  | tear
  deriving DecidableEq

namespace Owner

/-- A new instance. -/
def new (id : UInt32) (beaconTime : UInt64) : Owner where
  inst := ⟨Lock.new id beaconTime, .free none⟩
  heap := .start
  life := .alive

/-- A step of the instance. -/
def stepInst (O : Owner) (e : Event) : Option Owner :=
  (O.inst.step e).map fun s => { O with inst := s.1, heap := O.heap.effect O.inst e }

/-- The resource is erased from the map of the lock. -/
def eraseResource (I : Inst) (res : Name) : Inst :=
  { I with lock := { I.lock with resources := I.lock.resources.filterKeys (· ≠ res) } }

/-- One step.  The destructor is called like a function, and calls `releaseAll`; nothing is called
after it.  With the lock `update_m` it goes through the resources, and no packet is delivered. -/
def step (O : Owner) : LifeEvent → Option Owner
  | .inst e =>
    match O.life with
    | .alive => O.stepInst e
    | .releasing => if e.isCall then none else O.stepInst e
    | .tearing | .gone => none
  | .destroy =>
    match O.life, O.inst.ctl with
    | .alive, .free _ =>
      some { O with inst := Inst.enter O.inst.lock .releaseAll, life := .releasing }
    | _, _ => none
  | .lockUpdate =>
    match O.life, O.inst.ctl with
    | .releasing, .free _ => some { O with life := .tearing }
    | _, _ => none
  | .tear =>
    match O.life, O.heap.resources.entries with
    | .tearing, e :: _ =>
      some { O with inst := eraseResource O.inst e.1, heap := O.heap.tearDown e.1 }
    | .tearing, [] => some { O with life := .gone }
    | _, _ => none

end Owner

/-! ### The objects -/

namespace Heap

variable {H : Heap} {res res' : Name} {id : UInt32}

@[simp] lemma createResource_nList : (H.createResource res).nList = H.nList := by
  unfold createResource; split <;> rfl

@[simp] lemma stop_nList : (H.stop res).nList = H.nList := by
  unfold stop
  split
  · split_ifs <;> rfl
  · rfl

@[simp] lemma addMember_nList : (H.addMember res id).nList = H.nList := by
  unfold addMember
  split
  · split <;> rfl
  · rfl

@[simp] lemma clearMembers_nList : (H.clearMembers res).nList = H.nList := by
  unfold clearMembers; split <;> rfl

@[simp] lemma tearDown_nList : (H.tearDown res).nList = H.nList := by
  unfold tearDown
  dsimp only
  split
  · exact stop_nList
  · exact stop_nList

lemma steps_act (res : Name) (a : Inst.Action) (h : H.nList = .empty) :
    Steps H (H.act res a) ∧ (H.act res a).nList = .empty := by
  cases a with
  | setState s => exact ⟨.refl, h⟩
  | reset => exact ⟨steps_clearMembers H res, clearMembers_nList.trans h⟩
  | stop => exact ⟨steps_stop H res, stop_nList.trans h⟩

/-- A step of the instance is a number of steps of the ledger, and leaves no copies behind. -/
lemma steps_effect (I : Inst) (e : Event) (h : H.nList = .empty) :
    Steps H (H.effect I e) ∧ (H.effect I e).nList = .empty := by
  cases e with
  | call c =>
    rw [effect]
    split
    · exact ⟨steps_createResource H _, by rw [createResource_nList, h]⟩
    · exact ⟨.refl, h⟩
  | run =>
    rw [effect]
    split
    · -- a query copies the table and disposes of the copy
      next res _ =>
      exact ⟨(steps_copyMembers H res h).trans (steps_dispose (H.copyMembers res)), rfl⟩
    · split
      · exact steps_act _ _ h
      · exact ⟨.refl, h⟩
  | deliver pkt =>
    rw [effect]
    split
    · split_ifs
      · exact ⟨steps_addMember H _ _, by rw [addMember_nList, h]⟩
      · exact ⟨.refl, h⟩
    · exact ⟨.refl, h⟩
  | _ => exact ⟨.refl, h⟩

end Heap

/-! ### Exactly once -/

namespace Owner

variable {O O' : Owner}

/-- A step of the instance happens before the tear-down. -/
lemma step_inst {e : Event} (h : O.step (.inst e) = some O') :
    (O.life = .alive ∨ O.life = .releasing ∧ e.isCall = false) ∧ O.stepInst e = some O' := by
  rw [step] at h
  cases hlife : O.life with
  | alive =>
    rw [hlife] at h
    exact ⟨.inl rfl, h⟩
  | releasing =>
    rw [hlife] at h
    dsimp only at h
    split_ifs at h with hcall
    exact ⟨.inr ⟨rfl, Bool.not_eq_true _ ▸ hcall⟩, h⟩
  | tearing =>
    rw [hlife] at h
    cases h
  | gone =>
    rw [hlife] at h
    cases h

lemma step_destroy (h : O.step .destroy = some O') :
    O.life = .alive ∧ (∃ b, O.inst.ctl = .free b) ∧
      O' = { O with inst := Inst.enter O.inst.lock .releaseAll, life := .releasing } := by
  rw [step] at h
  split at h
  · next b hlife hctl => exact ⟨hlife, ⟨b, hctl⟩, (Option.some.inj h).symm⟩
  · cases h

lemma step_lockUpdate (h : O.step .lockUpdate = some O') :
    O.life = .releasing ∧ (∃ b, O.inst.ctl = .free b) ∧ O' = { O with life := .tearing } := by
  rw [step] at h
  split at h
  · next b hlife hctl => exact ⟨hlife, ⟨b, hctl⟩, (Option.some.inj h).symm⟩
  · cases h

/-- The tear-down deletes a resource, or there is none left. -/
lemma step_tear (h : O.step .tear = some O') :
    O.life = .tearing ∧
      ((∃ e es, O.heap.resources.entries = e :: es ∧
          O' = { O with inst := eraseResource O.inst e.1, heap := O.heap.tearDown e.1 }) ∨
        (O.heap.resources.entries = [] ∧ O' = { O with life := .gone })) := by
  rw [step] at h
  split at h
  · next e es hlife hentries =>
    exact ⟨hlife, .inl ⟨e, es, hentries, (Option.some.inj h).symm⟩⟩
  · next hlife hentries => exact ⟨hlife, .inr ⟨hentries, (Option.some.inj h).symm⟩⟩
  · cases h

/-- What holds of the objects: their ledger is sound, no copies are left behind, and in the end the
map is empty. -/
structure Kept (O : Owner) : Prop where
  sound : O.heap.ledger.Sound Freed
  nList : O.heap.nList = .empty
  gone : O.life = .gone → O.heap.resources.entries = []

lemma kept_new (id : UInt32) (beaconTime : UInt64) : (new id beaconTime).Kept where
  sound := by
    have hledger : (new id beaconTime).heap.ledger =
        { next := 0, log := [], held := fun _ => none } := by
      rw [Heap.ledger]
      congr 1
      funext k
      cases k <;> rfl
    rw [hledger]
    exact Lib.Ledger.sound_empty
  nList := rfl
  gone := nofun

/-- One step keeps the objects in order. -/
lemma Kept.step {e : LifeEvent} (h : O.Kept) (hs : O.step e = some O') : O'.Kept := by
  cases e with
  | inst e =>
    obtain ⟨hlife, hstep⟩ := step_inst hs
    obtain ⟨s, -, rfl⟩ := Option.map_eq_some_iff.mp hstep
    obtain ⟨hsteps, hlist⟩ := Heap.steps_effect O.inst e h.nList
    refine ⟨h.sound.steps hsteps, hlist, fun hgone => ?_⟩
    rcases hlife with hlife | ⟨hlife, -⟩
    · exact absurd (hlife.symm.trans hgone) nofun
    · exact absurd (hlife.symm.trans hgone) nofun
  | destroy =>
    obtain ⟨-, -, rfl⟩ := step_destroy hs
    exact ⟨h.sound, h.nList, nofun⟩
  | lockUpdate =>
    obtain ⟨-, -, rfl⟩ := step_lockUpdate hs
    exact ⟨h.sound, h.nList, nofun⟩
  | tear =>
    obtain ⟨hlife, ⟨e, es, -, rfl⟩ | ⟨hentries, rfl⟩⟩ := step_tear hs
    · refine ⟨h.sound.steps (Heap.steps_tearDown O.heap e.1), ?_, fun hgone => ?_⟩
      · exact Heap.tearDown_nList.trans h.nList
      · exact absurd (hlife.symm.trans hgone) nofun
    · exact ⟨h.sound, h.nList, fun _ => hentries⟩

lemma kept_run {id : UInt32} {beaconTime : UInt64} {es : List LifeEvent}
    (h : Run step (fun _ _ => True) (new id beaconTime) es O) : O.Kept :=
  h.invariant (fun _ _ _ hk _ hs => hk.step hs) (kept_new id beaconTime)

/-- At the end no place has an object. -/
lemma Kept.held_eq_none (h : O.Kept) (hgone : O.life = .gone) (k : Place) :
    O.heap.held k = none := by
  have hfind : ∀ res, O.heap.resources.find? res = none := by
    intro res
    rw [OrdMap.find?, h.gone hgone]
    rfl
  cases k with
  | resource res => rw [Heap.held, hfind]; rfl
  | member res id => rw [Heap.held, hfind]; rfl
  | copy id => rw [Heap.held, h.nList]; rfl

/-- **Every beacon thread is joined exactly once**, before its resource is freed, and every object
is freed exactly once: these are the histories of all objects when the destructor has ended. -/
theorem joined_once {id : UInt32} {beaconTime : UInt64} {es : List LifeEvent}
    (h : Run step (fun _ _ => True) (new id beaconTime) es O) (hgone : O.life = .gone) (p : ℕ) :
    ((p, .newResource) ∈ O.heap.log →
        history O.heap.log p = [.newResource, .join, .freeResource]) ∧
      ((p, .newMember) ∈ O.heap.log → history O.heap.log p = [.newMember, .freeMember]) ∧
      ((p, .newResource) ∉ O.heap.log → (p, .newMember) ∉ O.heap.log →
        history O.heap.log p = []) := by
  have hkept := kept_run h
  have hclosed := hkept.sound.closed_of_empty (hkept.held_eq_none hgone) p
  change history O.heap.log p = [] ∨ Freed (history O.heap.log p) at hclosed
  simp only [← Lib.mem_history]
  rcases hclosed with hnil | hresource | hmember
  · rw [hnil]
    exact ⟨nofun, nofun, fun _ _ => rfl⟩
  · rw [hresource]
    exact ⟨fun _ => rfl, by decide, by decide⟩
  · rw [hmember]
    exact ⟨by decide, fun _ => rfl, by decide⟩

/-- A query of the resource `a` during which a member is heard, two calls of `release`, and the
destructor. -/
def queriedAndReleased : List LifeEvent :=
  [.inst (.call (.query .isBusy [97])), .inst .run,
    .inst (.deliver { state := 3, memberId := 2, options := 0, count := 1, resource := [97] }),
    .inst .run, .inst .timeout, .inst .run,
    .inst (.call (.release [97])), .inst .run, .inst .run, .inst .run,
    .inst (.call (.release [97])), .inst .run, .inst .run, .inst .run,
    .destroy, .inst .run, .inst .run, .inst .run, .lockUpdate, .tear, .tear]

/-- The resource is made first, then the member and the copy of it for the answer. -/
theorem joined_once_queried :
    ∃ O, Run step (fun _ _ => True) (new 1 50) queriedAndReleased O ∧ O.life = .gone ∧
      history O.heap.log 0 = [.newResource, .join, .freeResource] ∧
      history O.heap.log 1 = [.newMember, .freeMember] ∧
      history O.heap.log 2 = [.newMember, .freeMember] := by
  obtain ⟨O, hexec, hgone, h₀, h₁, h₂⟩ :
      ∃ O, Lib.exec step (fun _ _ => True) (new 1 50) queriedAndReleased = some O ∧
        O.life = .gone ∧ (0, .newResource) ∈ O.heap.log ∧ (1, .newMember) ∈ O.heap.log ∧
        (2, .newMember) ∈ O.heap.log :=
    ⟨_, rfl, rfl, by decide, by decide, by decide⟩
  have hrun := Run.of_exec hexec
  exact ⟨O, hrun, hgone, (joined_once hrun hgone 0).1 h₀, (joined_once hrun hgone 1).2.1 h₁,
    (joined_once hrun hgone 2).2.1 h₂⟩

end Owner

end DistLock
