/-
The end of an instance while a packet is dispatched (`DistributedLock.h`, `Observable.h`).

The thread of the handler takes a pointer to an instance from `al_list` and calls
`actionPerformed`, which compares the ids and then works on a resource while it holds `update_m`.
The destructor of the instance, in another thread, takes the instance off the list, deletes the
resources while it holds `update_m`, and ends the life of the object.

`update_m` keeps every resource alive while it is used, but nothing keeps the instance alive:
`removeActionListener` does not wait for a call that is under way (`Teardown.safe_iff`).

The handler itself is shared and outlives the instances here; `DistLock.Handler.Shutdown` has its
end.
-/
import DistLock.Lib.Run
import DistLock.Wire.DLPacket
import Mathlib.Data.List.Nodup
import Mathlib.Logic.Function.Basic

namespace DistLock

open Lib (Run)

/-- Where the handler's thread is: it waits for a packet, or stands at the loop condition with an
index, or is in `actionPerformed` of an instance: before the ids are compared, before `update_m`
is taken, before the resource is looked up, with the resource, or before the mutex is released. -/
inductive CallPc (ι : Type*)
  | waiting
  | scanning (pkt : DLPacket) (n : ℕ)
  | called (pkt : DLPacket) (n : ℕ) (j : ι)
  | locking (pkt : DLPacket) (n : ℕ) (j : ι)
  | searching (pkt : DLPacket) (n : ℕ) (j : ι)
  | working (pkt : DLPacket) (n : ℕ) (j : ι)
  | unlocking (pkt : DLPacket) (n : ℕ) (j : ι)
  deriving DecidableEq

namespace CallPc

variable {ι : Type*}

/-- The instance to which the thread has a pointer. -/
def hand : CallPc ι → Option ι
  | waiting | scanning _ _ => none
  | called _ _ j | locking _ _ j | searching _ _ j | working _ _ j | unlocking _ _ j => some j

/-- The instance whose `update_m` the thread holds. -/
def inside : CallPc ι → Option ι
  | searching _ _ j | working _ _ j | unlocking _ _ j => some j
  | _ => none

end CallPc

/-- How far an instance has come: it does not exist yet, it is used, or it is in its destructor:
before `removeActionListener`, before `update_m` is taken, in the loop that deletes the resources,
or behind it; at the end the object is gone. -/
inductive DtorStage
  | unborn
  | alive
  | removing
  | locking
  | deleting
  | leaving
  | ended
  deriving DecidableEq

/-- The listeners of the handler, its thread, and the instances with the resources that exist. -/
structure Teardown (ι : Type*) where
  id : ι → UInt32
  listeners : List ι
  handler : CallPc ι
  stage : ι → DtorStage
  resources : ι → List Name

/-- A packet arrives, or the handler's thread goes on; or an instance is constructed, creates a
resource, or goes on in its destructor. -/
inductive TeardownEvent (ι : Type*)
  | packet (pkt : DLPacket)
  | handler
  | construct (j : ι)
  | create (j : ι) (res : Name)
  | dtor (j : ι)

namespace Teardown

variable {ι : Type*}

/-- Nothing has been constructed. -/
def start (id : ι → UInt32) : Teardown ι where
  id := id
  listeners := []
  handler := .waiting
  stage _ := .unborn
  resources _ := []

variable [DecidableEq ι]

/-- A step of `_actionPerformed`, or of the `actionPerformed` of an instance. -/
def runHandler (T : Teardown ι) : Option (Teardown ι) :=
  match T.handler with
  | .waiting => none
  | .scanning pkt n =>
    some { T with handler := (T.listeners[n]?).elim .waiting fun j => .called pkt n j }
  | .called pkt n j =>
    some { T with
      handler := if pkt.memberId = T.id j then .scanning pkt (n + 1) else .locking pkt n j }
  | .locking pkt n j =>
    if T.stage j = .deleting then none else some { T with handler := .searching pkt n j }
  | .searching pkt n j =>
    some { T with
      handler :=
        if (T.resources j).contains pkt.resource then .working pkt n j else .unlocking pkt n j }
  | .working pkt n j => some { T with handler := .unlocking pkt n j }
  | .unlocking pkt n _ => some { T with handler := .scanning pkt (n + 1) }

/-- A step of `~DistributedLock`. -/
def runDtor (T : Teardown ι) (j : ι) : Option (Teardown ι) :=
  match T.stage j with
  | .unborn | .ended => none
  | .alive => some { T with stage := Function.update T.stage j .removing }
  | .removing =>
    some { T with
      listeners := T.listeners.erase j
      stage := Function.update T.stage j .locking }
  | .locking =>
    if T.handler.inside = some j then none
    else some { T with stage := Function.update T.stage j .deleting }
  | .deleting =>
    match T.resources j with
    | [] => some { T with stage := Function.update T.stage j .leaving }
    | _ :: rest => some { T with resources := Function.update T.resources j rest }
  | .leaving => some { T with stage := Function.update T.stage j .ended }

/-- One step of the threads. -/
def step (T : Teardown ι) : TeardownEvent ι → Option (Teardown ι)
  | .packet pkt =>
    match T.handler with
    | .waiting => some { T with handler := .scanning pkt 0 }
    | _ => none
  | .handler => T.runHandler
  | .construct j =>
    match T.stage j with
    | .unborn =>
      some { T with
        listeners := T.listeners ++ [j]
        stage := Function.update T.stage j .alive }
    | _ => none
  | .create j res =>
    match T.stage j with
    | .alive => some { T with resources := Function.update T.resources j (T.resources j ++ [res]) }
    | _ => none
  | .dtor j => T.runDtor j

/-- The instance to which the handler's thread has a pointer has not come to its end. -/
def Safe (T : Teardown ι) : Prop := ∀ j, T.handler.hand = some j → T.stage j ≠ .ended

/-- The instance comes to its end while the handler's thread has a pointer to it. -/
def EndsInHand (T : Teardown ι) : TeardownEvent ι → Prop
  | .dtor j => T.stage j = .leaving ∧ T.handler.hand = some j
  | _ => False

/-- The instance is taken off the list while the handler's thread has a pointer to it. -/
def LeavesInHand (T : Teardown ι) : TeardownEvent ι → Prop
  | .dtor j => T.stage j = .removing ∧ T.handler.hand = some j
  | _ => False

instance (T : Teardown ι) : (e : TeardownEvent ι) → Decidable (T.EndsInHand e)
  | .dtor _ => inferInstanceAs (Decidable (_ ∧ _))
  | .packet _ | .handler | .construct _ | .create _ _ => isFalse fun h => h

instance (T : Teardown ι) : (e : TeardownEvent ι) → Decidable (T.LeavesInHand e)
  | .dtor _ => inferInstanceAs (Decidable (_ ∧ _))
  | .packet _ | .handler | .construct _ | .create _ _ => isFalse fun h => h

/-! ### What a step can do -/

/-- All steps. -/
inductive Effect (T : Teardown ι) : TeardownEvent ι → Teardown ι → Prop
  | packet (pkt : DLPacket) (h : T.handler = .waiting) :
    Effect T (.packet pkt) { T with handler := .scanning pkt 0 }
  | call (pkt : DLPacket) (n : ℕ) (j : ι) (h : T.handler = .scanning pkt n)
      (hj : T.listeners[n]? = some j) : Effect T .handler { T with handler := .called pkt n j }
  | enter (pkt : DLPacket) (n : ℕ) (j : ι) (h : T.handler = .called pkt n j) :
    Effect T .handler { T with handler := .locking pkt n j }
  | lock (pkt : DLPacket) (n : ℕ) (j : ι) (h : T.handler = .locking pkt n j)
      (hj : T.stage j ≠ .deleting) : Effect T .handler { T with handler := .searching pkt n j }
  | find (pkt : DLPacket) (n : ℕ) (j : ι) (h : T.handler = .searching pkt n j)
      (hr : pkt.resource ∈ T.resources j) : Effect T .handler { T with handler := .working pkt n j }
  | done (pkt : DLPacket) (n : ℕ) (j : ι)
      (h : T.handler = .searching pkt n j ∨ T.handler = .working pkt n j) :
    Effect T .handler { T with handler := .unlocking pkt n j }
  | back (pc : CallPc ι) (hpc : pc.hand = none) : Effect T .handler { T with handler := pc }
  | construct (j : ι) (h : T.stage j = .unborn) :
    Effect T (.construct j) { T with
      listeners := T.listeners ++ [j]
      stage := Function.update T.stage j .alive }
  | create (j : ι) (res : Name) :
    Effect T (.create j res)
      { T with resources := Function.update T.resources j (T.resources j ++ [res]) }
  | destroy (j : ι) (h : T.stage j = .alive) :
    Effect T (.dtor j) { T with stage := Function.update T.stage j .removing }
  | remove (j : ι) (h : T.stage j = .removing) :
    Effect T (.dtor j) { T with
      listeners := T.listeners.erase j
      stage := Function.update T.stage j .locking }
  | lockDtor (j : ι) (h : T.stage j = .locking) (hin : T.handler.inside ≠ some j) :
    Effect T (.dtor j) { T with stage := Function.update T.stage j .deleting }
  | delete (j : ι) (rest : List Name) (h : T.stage j = .deleting) :
    Effect T (.dtor j) { T with resources := Function.update T.resources j rest }
  | unlock (j : ι) (h : T.stage j = .deleting) :
    Effect T (.dtor j) { T with stage := Function.update T.stage j .leaving }
  | finish (j : ι) (h : T.stage j = .leaving) :
    Effect T (.dtor j) { T with stage := Function.update T.stage j .ended }

section

variable {T T' : Teardown ι} {e : TeardownEvent ι} {es : List (TeardownEvent ι)} {id : ι → UInt32}

lemma effect_handler (hs : T.runHandler = some T') : T.Effect .handler T' := by
  rw [runHandler] at hs
  cases hh : T.handler with
  | waiting =>
    rw [hh] at hs
    cases hs
  | scanning pkt n =>
    simp only [hh, Option.some.injEq] at hs
    subst hs
    cases hj : T.listeners[n]? with
    | none => exact .back .waiting rfl
    | some j => exact .call pkt n j hh hj
  | called pkt n j =>
    simp only [hh, Option.some.injEq] at hs
    subst hs
    split_ifs
    · exact .back _ rfl
    · exact .enter pkt n j hh
  | locking pkt n j =>
    simp only [hh] at hs
    split_ifs at hs with hj
    exact Option.some.inj hs ▸ .lock pkt n j hh hj
  | searching pkt n j =>
    simp only [hh, Option.some.injEq] at hs
    subst hs
    split_ifs with hr
    · exact .find pkt n j hh (List.contains_iff_mem.mp hr)
    · exact .done pkt n j (.inl hh)
  | working pkt n j =>
    simp only [hh, Option.some.injEq] at hs
    exact hs ▸ .done pkt n j (.inr hh)
  | unlocking pkt n j =>
    simp only [hh, Option.some.injEq] at hs
    exact hs ▸ .back _ rfl

lemma effect_dtor {j : ι} (hs : T.runDtor j = some T') : T.Effect (.dtor j) T' := by
  rw [runDtor] at hs
  cases hj : T.stage j with
  | unborn | ended =>
    rw [hj] at hs
    cases hs
  | alive =>
    simp only [hj, Option.some.injEq] at hs
    exact hs ▸ .destroy j hj
  | removing =>
    simp only [hj, Option.some.injEq] at hs
    exact hs ▸ .remove j hj
  | locking =>
    simp only [hj] at hs
    split_ifs at hs with hin
    exact Option.some.inj hs ▸ .lockDtor j hj hin
  | deleting =>
    simp only [hj] at hs
    cases hr : T.resources j with
    | nil =>
      rw [hr] at hs
      exact Option.some.inj hs ▸ .unlock j hj
    | cons res rest =>
      rw [hr] at hs
      exact Option.some.inj hs ▸ .delete j rest hj
  | leaving =>
    simp only [hj, Option.some.injEq] at hs
    exact hs ▸ .finish j hj

lemma effect_step (hs : T.step e = some T') : T.Effect e T' := by
  cases e with
  | packet pkt =>
    simp only [step] at hs
    cases hh : T.handler with
    | waiting =>
      rw [hh] at hs
      exact Option.some.inj hs ▸ .packet pkt hh
    | _ =>
      rw [hh] at hs
      cases hs
  | handler => exact effect_handler hs
  | construct j =>
    simp only [step] at hs
    cases hj : T.stage j with
    | unborn =>
      rw [hj] at hs
      exact Option.some.inj hs ▸ .construct j hj
    | _ =>
      rw [hj] at hs
      cases hs
  | create j res =>
    simp only [step] at hs
    cases hj : T.stage j with
    | alive =>
      rw [hj] at hs
      exact Option.some.inj hs ▸ .create j res
    | _ =>
      rw [hj] at hs
      cases hs
  | dtor j => exact effect_dtor hs

/-! ### What holds in every run -/

/-- The listeners are the instances that have not been taken off the list, nobody deletes resources
while the handler's thread holds the mutex, and the resource that is used exists. -/
structure Sound (T : Teardown ι) : Prop where
  nodup : T.listeners.Nodup
  listed : ∀ j, j ∈ T.listeners ↔ T.stage j = .alive ∨ T.stage j = .removing
  exclusive : ∀ j, T.handler.inside = some j → T.stage j ≠ .deleting
  found : ∀ pkt n j, T.handler = .working pkt n j → pkt.resource ∈ T.resources j

omit [DecidableEq ι] in
lemma sound_start : (start id).Sound where
  nodup := .nil
  listed j := by simp [start]
  exclusive _ h := by cases h
  found _ _ _ h := by cases h

omit [DecidableEq ι] in
/-- The handler's thread moves on. -/
lemma Sound.move (h : T.Sound) {pc : CallPc ι}
    (hin : ∀ j, pc.inside = some j → T.stage j ≠ .deleting)
    (hfound : ∀ pkt n j, pc = .working pkt n j → pkt.resource ∈ T.resources j) :
    Sound { T with handler := pc } :=
  ⟨h.nodup, h.listed, hin, hfound⟩

omit [DecidableEq ι] in
lemma inside_of_hand {pc : CallPc ι} (h : pc.hand = none) : pc.inside = none := by
  cases pc with
  | waiting | scanning => rfl
  | _ => cases h

/-- An instance goes on in its destructor. -/
lemma Sound.advance (h : T.Sound) {j : ι} {s : DtorStage}
    (hs : T.stage j = .alive ∧ s = .removing ∨
      T.stage j ≠ .alive ∧ T.stage j ≠ .removing ∧ s ≠ .alive ∧ s ≠ .removing)
    (hin : s = .deleting → T.handler.inside ≠ some j) :
    Sound { T with stage := Function.update T.stage j s } where
  nodup := h.nodup
  listed l := by
    dsimp only
    rw [h.listed l]
    rcases eq_or_ne l j with rfl | hl
    · rw [Function.update_self]
      rcases hs with ⟨hold, rfl⟩ | ⟨h₁, h₂, h₃, h₄⟩
      · simp [hold]
      · simp [h₁, h₂, h₃, h₄]
    · rw [Function.update_of_ne hl]
  exclusive l hl := by
    dsimp only at hl ⊢
    rcases eq_or_ne l j with rfl | hne
    · rw [Function.update_self]
      exact fun heq => hin heq hl
    · rw [Function.update_of_ne hne]
      exact h.exclusive l hl
  found := h.found

lemma sound_step (h : T.Sound) (hs : T.step e = some T') : T'.Sound := by
  cases effect_step hs with
  | packet | call | enter => exact h.move (by simp [CallPc.inside]) (by simp)
  | lock pkt n j _ hj =>
    refine h.move (fun l hl => ?_) (by simp)
    rwa [← Option.some.inj hl]
  | find pkt n j hh hr =>
    refine h.move (fun l hl => h.exclusive l (by rw [hh]; exact hl)) fun pkt' n' j' hpc => ?_
    obtain ⟨rfl, rfl, rfl⟩ := CallPc.working.inj hpc
    exact hr
  | done pkt n j hh =>
    refine h.move (fun l hl => h.exclusive l ?_) (by simp)
    rcases hh with hh | hh <;> rw [hh] <;> exact hl
  | back pc hpc =>
    refine h.move (fun l hl => ?_) fun pkt n j hw => ?_
    · rw [inside_of_hand hpc] at hl
      cases hl
    · rw [hw] at hpc
      cases hpc
  | construct j hj =>
    have hnot : j ∉ T.listeners := by
      rw [h.listed, hj]
      simp
    have hnodup := h.nodup.concat hnot
    rw [List.concat_eq_append] at hnodup
    refine ⟨hnodup, fun l => ?_, fun l hl => ?_, h.found⟩
    · dsimp only
      rw [List.mem_append, List.mem_singleton, h.listed]
      rcases eq_or_ne l j with rfl | hl
      · simp
      · simp [hl]
    · dsimp only at hl ⊢
      rcases eq_or_ne l j with rfl | hne
      · simp
      · rw [Function.update_of_ne hne]
        exact h.exclusive l hl
  | create j res =>
    refine ⟨h.nodup, h.listed, h.exclusive, fun pkt n l hw => ?_⟩
    have hold := h.found pkt n l hw
    dsimp only
    rcases eq_or_ne l j with rfl | hl
    · rw [Function.update_self]
      exact List.mem_append_left _ hold
    · rwa [Function.update_of_ne hl]
  | destroy j hj => exact h.advance (.inl ⟨hj, rfl⟩) (by simp)
  | remove j hj =>
    have hout : ∀ l, l ∈ T.listeners.erase j ↔ l ≠ j ∧ l ∈ T.listeners :=
      fun l => h.nodup.mem_erase_iff
    refine ⟨h.nodup.erase j, fun l => ?_, fun l hl => ?_, h.found⟩
    · dsimp only
      rw [hout, h.listed]
      rcases eq_or_ne l j with rfl | hl
      · simp
      · simp [hl]
    · dsimp only at hl ⊢
      rcases eq_or_ne l j with rfl | hne
      · simp
      · rw [Function.update_of_ne hne]
        exact h.exclusive l hl
  | lockDtor j hj hin => exact h.advance (.inr (by simp [hj])) fun _ => hin
  | delete j rest hj =>
    refine ⟨h.nodup, h.listed, h.exclusive, fun pkt n l hw => ?_⟩
    -- the handler's thread holds the mutex of another instance
    have hl : l ≠ j := by
      rintro rfl
      exact h.exclusive l (by rw [hw]; rfl) hj
    dsimp only
    rw [Function.update_of_ne hl]
    exact h.found pkt n l hw
  | unlock j hj | finish j hj => exact h.advance (.inr (by simp [hj])) (by simp)

/-- A pointer is only taken from the list. -/
lemma safe_step (h : T.Sound) (hv : T.Safe) (hs : T.step e = some T') :
    T'.Safe ↔ ¬ T.EndsInHand e := by
  have hkeep : ∀ {pc : CallPc ι}, (∀ j, pc.hand = some j → T.handler.hand = some j) →
      Safe { T with handler := pc } := fun hpc j hj => hv j (hpc j hj)
  have hstage : ∀ {j : ι} {s : DtorStage} {ls : List ι}, s ≠ .ended →
      Safe { T with listeners := ls, stage := Function.update T.stage j s } := by
    intro j s ls hne l hl
    dsimp only
    rcases eq_or_ne l j with rfl | hlj
    · rwa [Function.update_self]
    · rw [Function.update_of_ne hlj]
      exact hv l hl
  have hdtor : ∀ {j : ι}, T.stage j ≠ .leaving → ¬ T.EndsInHand (.dtor j) :=
    fun hj hcut => hj hcut.1
  cases effect_step hs with
  | packet => exact iff_of_true (hkeep (by simp [CallPc.hand])) fun h => h
  -- the pointer has just been read from the list, which only lists instances that exist
  | call pkt n j _ hj =>
    refine iff_of_true (fun l hl => ?_) fun h => h
    obtain rfl := Option.some.inj hl
    rcases (h.listed j).mp (List.mem_of_getElem? hj) with hst | hst
    · exact ne_of_eq_of_ne hst (by simp)
    · exact ne_of_eq_of_ne hst (by simp)
  | enter pkt n j hh | lock pkt n j hh | find pkt n j hh =>
    exact iff_of_true (hkeep fun l hl => by rw [hh]; exact hl) fun h => h
  | done pkt n j hh =>
    refine iff_of_true (hkeep fun l hl => ?_) fun h => h
    rcases hh with hh | hh <;> rw [hh] <;> exact hl
  | back pc hpc =>
    refine iff_of_true (hkeep fun l hl => ?_) fun h => h
    rw [hpc] at hl
    cases hl
  | construct j => exact iff_of_true (hstage (by simp)) fun h => h
  | create => exact iff_of_true hv fun h => h
  | destroy j hj | lockDtor j hj | unlock j hj =>
    exact iff_of_true (hstage (by simp)) (hdtor (by simp [hj]))
  | remove j hj => exact iff_of_true (hstage (by simp)) (hdtor (by simp [hj]))
  | delete j rest hj => exact iff_of_true hv (hdtor (by simp [hj]))
  -- the only step after which an instance is gone
  | finish j hj =>
    refine ⟨fun hv' hcut => ?_, fun hcut l hl => ?_⟩
    · exact hv' j hcut.2 (Function.update_self ..)
    · dsimp only at hl ⊢
      have hlj : l ≠ j := by
        rintro rfl
        exact hcut ⟨hj, hl⟩
      rw [Function.update_of_ne hlj]
      exact hv l hl

/-- If nobody leaves the list while the thread has a pointer to it, the pointer stays good. -/
lemma listed_step (h : T.Sound) (hl : ∀ j, T.handler.hand = some j → j ∈ T.listeners)
    (hc : ¬ T.LeavesInHand e) (hs : T.step e = some T') :
    ∀ j, T'.handler.hand = some j → j ∈ T'.listeners := by
  cases effect_step hs with
  | packet => exact fun l hl => (by cases hl)
  | call pkt n j _ hj =>
    intro l hlj
    rw [← Option.some.inj hlj]
    exact List.mem_of_getElem? hj
  | enter pkt n j hh | lock pkt n j hh | find pkt n j hh =>
    exact fun l hlj => hl l (by rw [hh]; exact hlj)
  | done pkt n j hh =>
    refine fun l hlj => hl l ?_
    rcases hh with hh | hh <;> rw [hh] <;> exact hlj
  | back pc hpc =>
    intro l hlj
    rw [hpc] at hlj
    cases hlj
  | construct j => exact fun l hlj => List.mem_append_left _ (hl l hlj)
  | create | destroy | lockDtor | delete | unlock | finish => exact hl
  | remove j hj =>
    intro l hlj
    have hne : l ≠ j := by
      rintro rfl
      exact hc ⟨hj, hlj⟩
    exact h.nodup.mem_erase_iff.mpr ⟨hne, hl l hlj⟩

/-- **A resource is not deleted while it is used, but an instance may be.**  In every interleaving
the resource on which `actionPerformed` works exists.  The instance itself is gone before
`actionPerformed` returns if and only if its destructor ends while the handler's thread has the
pointer, and this does not happen if `removeActionListener` takes nobody off the list whose
`actionPerformed` is being called. -/
theorem safe_iff (hrun : Run step (fun _ _ => True) (start id) es T) :
    (∀ pkt n j, T.handler = .working pkt n j → pkt.resource ∈ T.resources j) ∧
      ((∀ es₁ T₁, es₁ <+: es → Run step (fun _ _ => True) (start id) es₁ T₁ → T₁.Safe) ↔
        Run step (fun T e => True ∧ ¬ T.EndsInHand e) (start id) es T) ∧
      (Run step (fun T e => ¬ T.LeavesInHand e) (start id) es T → T.Safe) := by
  have hstep : ∀ (T : Teardown ι) (e : TeardownEvent ι) (T' : Teardown ι), T.Sound → True →
      T.step e = some T' → T'.Sound := fun _ _ _ h _ hs => sound_step h hs
  have hsound : T.Sound := hrun.invariant hstep sound_start
  refine ⟨hsound.found, ?_, fun hwaits => ?_⟩
  · exact hrun.forall_prefix_iff hstep (fun _ _ _ h hv _ hs => safe_step h hv hs) sound_start
      fun _ h => (by cases h)
  · have hlisted : T.Sound ∧ ∀ j, T.handler.hand = some j → j ∈ T.listeners := by
      refine hwaits.invariant
        (I := fun T => T.Sound ∧ ∀ j, T.handler.hand = some j → j ∈ T.listeners) ?_
        ⟨sound_start, fun _ h => (by cases h)⟩
      rintro T e T' ⟨hS, hl⟩ hc hs
      exact ⟨sound_step hS hs, listed_step hS hl hc hs⟩
    intro j hj
    rcases (hsound.listed j).mp (hlisted.2 j hj) with hst | hst
    · exact ne_of_eq_of_ne hst (by simp)
    · exact ne_of_eq_of_ne hst (by simp)

end

/-- An instance is destroyed while a packet is about to be handed to it. -/
def destroyedInHand : List (TeardownEvent Unit) :=
  [.construct (), .create () [97], .packet (DLPacket.new 3 2), .handler, .dtor (), .dtor (),
    .dtor (), .dtor (), .dtor (), .dtor ()]

/-- The handler's thread goes on with an instance that is gone. -/
theorem safe_iff_destroyed : ∃ T, Run step (fun _ _ => True) (start fun _ => 1) destroyedInHand T ∧
    ¬ T.Safe ∧
    ¬ Run step (fun T e => True ∧ ¬ T.EndsInHand e) (start fun _ => 1) destroyedInHand T := by
  have hexec : (Lib.exec step (fun _ _ => True) (start fun _ => 1) destroyedInHand).map
      (fun T => (T.handler.hand, T.stage ())) = some (some (), .ended) := by decide
  obtain ⟨T, hT, hend⟩ := Option.map_eq_some_iff.mp hexec
  obtain ⟨hhand, hended⟩ := Prod.mk.inj hend
  have hrun : Run step (fun _ _ => True) (start fun _ => 1) destroyedInHand T := .of_exec hT
  have hnot : ¬ T.Safe := fun hv => hv () hhand hended
  exact ⟨T, hrun, hnot, fun h => hnot ((safe_iff hrun).2.1.mpr h _ _ List.prefix_rfl hrun)⟩

end Teardown
end DistLock
