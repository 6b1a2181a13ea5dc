/-
The objects of a lock instance mirror its resources.

The objects have flags and member tables of their own, from which `stop` and the destructors decide
what to do.  They agree with those of the lock in every run (`mirrors_run`).  The destructor can
come to its end whenever it is called (`exists_gone`).
-/
import DistLock.Lifetime.Owner

namespace DistLock

open Lib (OrdMap Run)

/-- The flag of an object, and whose members it has. -/
def Obj.view (o : Obj) : Bool × (UInt32 → Bool) :=
  (o.running, fun id => (o.members.find? id).isSome)

/-- The flag of a resource, and whose members it has. -/
def Resource.view (R : Resource) : Bool × (UInt32 → Bool) :=
  (R.running, fun id => (R.members.find? id).isSome)

namespace Heap

variable {H : Heap} {res res' : Name} {id : UInt32}

/-- The view of the object of the given name. -/
def view (H : Heap) (res : Name) : Option (Bool × (UInt32 → Bool)) :=
  (H.resources.find? res).map Obj.view

lemma view_of_find? {o : Obj} (h : H.resources.find? res = some o) : H.view res = some o.view := by
  rw [view, h]
  rfl

lemma view_of_none (h : H.resources.find? res = none) : H.view res = none := by
  rw [view, h]
  rfl

/-- An object is put into the map. -/
lemma view_insert {H' : Heap} {o : Obj} (h : H'.resources = H.resources.insert res o) :
    H'.view res' = if res' = res then some o.view else H.view res' := by
  rw [view, h, OrdMap.find?_insert]
  split_ifs <;> rfl

/-- A function that changes one object, or leaves all as they are. -/
lemma view_change {H' : Heap} {f : Bool × (UInt32 → Bool) → Bool × (UInt32 → Bool)}
    (hnone : H.resources.find? res = none → H' = H)
    (hsome : ∀ o, H.resources.find? res = some o →
      (∃ o', H'.resources = H.resources.insert res o' ∧ o'.view = f o.view) ∨
        (H' = H ∧ o.view = f o.view)) :
    H'.view res' = if res' = res then (H.view res').map f else H.view res' := by
  cases hfind : H.resources.find? res with
  | none =>
    rw [hnone hfind]
    split_ifs with hres
    · rw [hres, view_of_none hfind]
      rfl
    · rfl
  | some o =>
    obtain ⟨o', hinsert, hview⟩ | ⟨rfl, hview⟩ := hsome o hfind
    · rw [view_insert hinsert]
      split_ifs with hres
      · rw [hres, view_of_find? hfind, hview]
        rfl
      · rfl
    · split_ifs with hres
      · rw [hres, view_of_find? hfind, Option.map_some, ← hview]
      · rfl

lemma view_createResource : (H.createResource res).view res' =
    if res' = res then some ((H.view res').getD (true, fun _ => false)) else H.view res' := by
  cases hfind : H.resources.find? res with
  | none =>
    have hinsert : (H.createResource res).resources =
        H.resources.insert res { ptr := H.next, running := true, members := .empty } := by
      rw [createResource, hfind]
    rw [view_insert hinsert]
    split_ifs with hres
    · rw [hres, view_of_none hfind]
      rfl
    · rfl
  | some o =>
    have hsame : H.createResource res = H := by rw [createResource, hfind]
    rw [hsame]
    split_ifs with hres
    · rw [hres, view_of_find? hfind]
      rfl
    · rfl

lemma view_stop : (H.stop res).view res' =
    if res' = res then (H.view res').map fun v => (false, v.2) else H.view res' := by
  refine view_change stop_of_none fun o ho => ?_
  rw [stop, ho]
  dsimp only
  split_ifs with hrunning
  · exact .inl ⟨_, rfl, rfl⟩
  · have hfalse : o.running = false := Bool.not_eq_true _ ▸ hrunning
    exact .inr ⟨rfl, congrArg (·, _) hfalse⟩

lemma view_clearMembers : (H.clearMembers res).view res' =
    if res' = res then (H.view res').map fun v => (v.1, fun _ => false) else H.view res' := by
  refine view_change (fun hnone => ?_) fun o ho => .inl ⟨{ o with members := .empty }, ?_, rfl⟩
  · rw [clearMembers, hnone]
  · rw [clearMembers, ho]

lemma view_addMember : (H.addMember res id).view res' =
    if res' = res then (H.view res').map fun v => (v.1, fun j => decide (j = id) || v.2 j)
    else H.view res' := by
  refine view_change (fun hnone => ?_) fun o ho => ?_
  · rw [addMember, hnone]
  rw [addMember, ho]
  dsimp only
  split
  · next p hp =>
    -- the member is in the table already
    refine .inr ⟨rfl, congrArg (o.running, ·) ?_⟩
    ext j
    by_cases hj : j = id
    · simp [hj, hp, Obj.view]
    · simp [hj, Obj.view]
  · refine .inl ⟨_, rfl, congrArg (o.running, ·) ?_⟩
    ext j
    dsimp only
    rw [OrdMap.find?_insert]
    by_cases hj : j = id
    · simp [hj]
    · simp [hj, Obj.view]

lemma view_tearDown : (H.tearDown res).view res' =
    if res' = res then none else H.view res' := by
  have hstop : res' ≠ res → (H.stop res).view res' = H.view res' := by
    intro hres
    rw [view_stop, if_neg hres]
  rw [tearDown, view]
  split
  · next o ho =>
    rw [OrdMap.find?_filterKeys_ne]
    split_ifs with hres
    · rfl
    · exact hstop hres
  · next hnone =>
    split_ifs with hres
    · rw [hres, hnone]
      rfl
    · exact hstop hres

lemma foldl_copyMember_resources (ids : List UInt32) (H : Heap) :
    (ids.foldl copyMember H).resources = H.resources := by
  induction ids generalizing H with
  | nil => rfl
  | cons id ids ih => exact ih (H.copyMember id)

@[simp] lemma copyMembers_resources : (H.copyMembers res).resources = H.resources := by
  rw [copyMembers]
  split
  · exact foldl_copyMember_resources _ H
  · rfl

end Heap

/-! ### Steps of the instance -/

namespace Resource

variable {R : Resource}

lemma view_recount {c : Call} : (Inst.recount c R).view = R.view := by
  cases c with
  | defineResource res count =>
    rw [Inst.recount]
    split_ifs <;> rfl
  | _ => rfl

/-- Members are recorded for the packets that `updateMember` accepts. -/
lemma view_updateMember {id : UInt32} {state : State} {count : UInt32} :
    (R.updateMember id state count).view =
      if R.count = count ∨ R.state = .querying then
        (R.view.1, fun j => decide (j = id) || R.view.2 j)
      else R.view := by
  split_ifs with h
  · rw [updateMember_eq h]
    refine congrArg (fun v => (R.running, v)) (funext fun j => ?_)
    dsimp only
    rw [OrdMap.find?_insert]
    by_cases hj : j = id
    · simp [hj]
    · simp [hj, view]
  · rw [updateMember_of_not h]

end Resource

variable {H : Heap} {I I' : Inst} {res : Name} {sent : List DLPacket}

/-- The objects of a heap have the flags and the members of the resources. -/
def Mirrors (H : Heap) (I : Inst) : Prop :=
  ∀ res, H.view res = (I.lock.getResource res).map Resource.view

lemma Mirrors.call (h : Mirrors H I) (c : Call) :
    Mirrors (H.effect I (.call c)) (Inst.enter I.lock c) := by
  intro res
  rw [Inst.getResource_enter, Heap.effect]
  cases hc : Inst.creates c with
  | none => exact h res
  | some r =>
    dsimp only
    rw [Heap.view_createResource, h res]
    by_cases hres : res = r
    · rw [if_pos hres, if_pos (congrArg some hres.symm), Option.map_some, Resource.view_recount]
      cases I.lock.getResource res <;> rfl
    · rw [if_neg hres, if_neg fun heq => hres (Option.some.inj heq).symm]

/-- What an action does to the flag and the members. -/
def onView : Inst.Action → Bool × (UInt32 → Bool) → Bool × (UInt32 → Bool)
  | .setState _, v => v
  | .reset, v => (v.1, fun _ => false)
  | .stop, v => (false, v.2)

lemma view_apply (a : Inst.Action) (R : Resource) : (a.apply R).view = onView a R.view := by
  cases a <;> rfl

lemma view_act (a : Inst.Action) {r : Name} : (H.act r a).view res =
    if res = r then (H.view res).map (onView a) else H.view res := by
  cases a with
  | setState s =>
    have hid : onView (.setState s) = id := rfl
    rw [hid, Option.map_id, id, ite_self]
    rfl
  | reset => exact Heap.view_clearMembers
  | stop => exact Heap.view_stop

lemma Mirrors.run (h : Mirrors H I) (hs : I.run = some (I', sent)) :
    Mirrors (H.effect I .run) I' := by
  intro res
  rw [(Inst.frame_run hs).resource res, Option.map_map, Heap.effect]
  cases hnext : I.next with
  | none =>
    -- nothing happens to the resources, but a query may collect its answer
    have hsame : Resource.view ∘ I.change .run res = Resource.view := by
      funext R
      have hne : ∀ a, I.next ≠ some (res, a) := by
        intro a
        rw [hnext]
        exact (Option.some_ne_none _).symm
      rw [Function.comp_apply, Inst.change_run_of_ne hne]
    rw [hsame, ← h res]
    split
    · rw [Heap.view, Heap.dispose, Heap.copyMembers_resources]
      rfl
    · rfl
  | some ra =>
    obtain ⟨r, a⟩ := ra
    split
    · next hctl =>
      rw [Inst.next, hctl] at hnext
      cases hnext
    · show (H.act r a).view res = _
      rw [view_act, h res]
      split_ifs with hres
      · rw [Option.map_map]
        refine congrArg (Option.map · _) (funext fun R => ?_)
        rw [Function.comp_apply, Function.comp_apply, Inst.change_run (hres ▸ hnext), view_apply]
      · refine congrArg (Option.map · _) (funext fun R => ?_)
        have hother : ∀ a', I.next ≠ some (res, a') := by
          intro a' hnext'
          rw [hnext] at hnext'
          exact hres (congrArg Prod.fst (Option.some.inj hnext')).symm
        rw [Function.comp_apply, Inst.change_run_of_ne hother]

lemma addressee_eq_some {pkt : DLPacket} {R : Resource} (h : I.addressee pkt = some R) :
    pkt.memberId ≠ I.lock.id ∧ I.lock.getResource pkt.resource = some R := by
  rw [Inst.addressee] at h
  split_ifs at h with hid
  exact ⟨hid, h⟩

/-- A packet that is not recorded for a resource leaves its object alone. -/
lemma view_effect_deliver (pkt : DLPacket) (h : ∀ R, I.lock.getResource res = some R →
      ¬ (res = pkt.resource ∧ pkt.memberId ≠ I.lock.id ∧ R.state ≠ .idle)) :
    (H.effect I (.deliver pkt)).view res = H.view res := by
  rw [Heap.effect]
  split
  · next R hR =>
    obtain ⟨hid, hfind⟩ := addressee_eq_some hR
    split_ifs with hif
    · rw [Heap.view_addMember, if_neg]
      intro hres
      exact h R (hres ▸ hfind) ⟨hres, hid, hif.1⟩
    · rfl
  · rfl

lemma Mirrors.deliver (h : Mirrors H I) (pkt : DLPacket) :
    Mirrors (H.effect I (.deliver pkt)) (I.actionPerformed pkt) := by
  intro res
  rw [Inst.actionPerformed_lock, Inst.getResource_hear]
  by_cases hrec : ∃ R, I.lock.getResource res = some R ∧
      res = pkt.resource ∧ pkt.memberId ≠ I.lock.id ∧ R.state ≠ .idle
  · obtain ⟨R, hR, hif⟩ := hrec
    have haddr : I.addressee pkt = some R := by rw [Inst.addressee, if_neg hif.2.1, ← hif.1, hR]
    have hview := h res
    rw [hR] at hview
    rw [hR, Option.map_some, Option.map_some, Inst.heardBy, if_pos hif, Resource.view_updateMember,
      Heap.effect, haddr]
    dsimp only
    by_cases hcount : R.count = pkt.count ∨ R.state = .querying
    · rw [if_pos ⟨hif.2.2, hcount⟩, if_pos hcount, Heap.view_addMember, if_pos hif.1, hview]
      rfl
    · rw [if_neg fun hand => hcount hand.2, if_neg hcount, hview]
      rfl
  · have hnot : ∀ R, I.lock.getResource res = some R →
        ¬ (res = pkt.resource ∧ pkt.memberId ≠ I.lock.id ∧ R.state ≠ .idle) :=
      fun R hR hif => hrec ⟨R, hR, hif⟩
    rw [view_effect_deliver pkt hnot, h res]
    cases hR : I.lock.getResource res with
    | none => rfl
    | some R =>
      rw [Option.map_some, Option.map_some, Option.map_some, Inst.heardBy, if_neg (hnot R hR)]

/-- A step of the instance. -/
lemma Mirrors.step {e : Event} (h : Mirrors H I) (hs : I.step e = some (I', sent)) :
    Mirrors (H.effect I e) I' := by
  cases e with
  | call c =>
    obtain ⟨-, rfl, -⟩ := Inst.step_call hs
    exact h.call c
  | run => exact h.run hs
  | deliver pkt =>
    obtain ⟨rfl, -⟩ := Inst.step_deliver hs
    exact h.deliver pkt
  | timeout =>
    intro res
    rw [Inst.onTimeout_lock (Inst.step_timeout hs).1]
    exact h res
  | wake =>
    intro res
    rw [Inst.onWake_lock (Inst.step_wake hs).1]
    exact h res
  | elapsed n =>
    intro res
    rw [Inst.onElapsed_lock (Inst.step_elapsed hs).1]
    exact h res
  | beacon r =>
    obtain ⟨rfl, -⟩ := Inst.step_beacon hs
    exact h

/-! ### The destructor -/

namespace Owner

variable {O O' : Owner}

lemma mirrors_step {e : LifeEvent} (h : Mirrors O.heap O.inst) (hs : O.step e = some O') :
    Mirrors O'.heap O'.inst := by
  cases e with
  | inst e =>
    obtain ⟨-, hstep⟩ := step_inst hs
    obtain ⟨⟨I', sent⟩, hI, rfl⟩ := Option.map_eq_some_iff.mp hstep
    exact h.step hI
  | destroy =>
    obtain ⟨-, -, rfl⟩ := step_destroy hs
    exact h
  | lockUpdate =>
    obtain ⟨-, -, rfl⟩ := step_lockUpdate hs
    exact h
  | tear =>
    obtain ⟨-, ⟨e, es, -, rfl⟩ | ⟨-, rfl⟩⟩ := step_tear hs
    · intro res
      show (O.heap.tearDown e.1).view res = Option.map Resource.view
        ((O.inst.lock.resources.filterKeys (· ≠ e.1)).find? res)
      rw [Heap.view_tearDown, OrdMap.find?_filterKeys_ne, h res]
      split_ifs <;> rfl
    · exact h

/-- **The objects mirror the resources** in every run. -/
theorem mirrors_run {id : UInt32} {beaconTime : UInt64} {es : List LifeEvent}
    (h : Run step (fun _ _ => True) (new id beaconTime) es O) : Mirrors O.heap O.inst := by
  have hnew : Mirrors (new id beaconTime).heap (new id beaconTime).inst := fun _ => rfl
  exact h.invariant (I := fun O => Mirrors O.heap O.inst) (fun _ _ _ hm _ hs => mirrors_step hm hs)
    hnew

/-- A query has heard of the member 2, and the object has it. -/
theorem mirrors_run_queried :
    ∃ O R, Run step (fun _ _ => True) (new 1 50) (queriedAndReleased.take 4) O ∧
      O.inst.lock.getResource [97] = some R ∧ R.view.2 2 = true ∧
      O.heap.view [97] = some R.view := by
  obtain ⟨O, R, hexec, hR, hmember⟩ :
      ∃ O R, Lib.exec step (fun _ _ => True) (new 1 50) (queriedAndReleased.take 4) = some O ∧
        O.inst.lock.getResource [97] = some R ∧ R.view.2 2 = true :=
    ⟨_, _, rfl, rfl, rfl⟩
  have hrun := Run.of_exec hexec
  refine ⟨O, R, hrun, hR, hmember, ?_⟩
  rw [mirrors_run hrun, hR, Option.map_some]

/-- `releaseAll` returns. -/
lemma exists_released (rest : List Name) (L : Lock) (H : Heap) :
    ∃ es O', Run step (fun _ _ => True) ⟨⟨L, .releasing rest⟩, H, .releasing⟩ es O' ∧
      O'.life = .releasing ∧ ∃ b, O'.inst.ctl = .free b := by
  induction rest generalizing L H with
  | nil => exact ⟨[.inst .run], _, .cons trivial rfl (.nil _), rfl, _, rfl⟩
  | cons res rest ih =>
    obtain ⟨es, O', hrun, hlife, hctl⟩ := ih ((L.setState res .released).1.stop res) (H.stop res)
    exact ⟨.inst .run :: .inst .run :: es, O', .cons trivial rfl (.cons trivial rfl hrun), hlife,
      hctl⟩

/-- Each turn of the loop of the destructor deletes an object. -/
lemma length_tearDown_lt {H : Heap} {res : Name} (h : res ∈ H.resources.keys) :
    (H.tearDown res).resources.entries.length < H.resources.entries.length := by
  obtain ⟨o, ho⟩ := OrdMap.mem_keys_iff.mp h
  have hkeys : (H.stop res).resources.keys = H.resources.keys := by
    rw [Heap.stop, ho]
    dsimp only
    split_ifs
    · exact OrdMap.keys_insert_of_mem h
    · rfl
  have hlen : (H.stop res).resources.entries.length = H.resources.entries.length := by
    rw [← OrdMap.length_keys, hkeys, OrdMap.length_keys]
  have hstop := Heap.find?_stop_self ho
  rw [Heap.tearDown, hstop, ← hlen]
  exact List.length_filter_lt_length_iff_exists.mpr
    ⟨_, OrdMap.mem_entries_iff.mpr hstop, by simp⟩

/-- The loop of the destructor ends. -/
lemma exists_torn (hlife : O.life = .tearing) :
    ∃ es O', Run step (fun _ _ => True) O es O' ∧ O'.life = .gone := by
  induction hn : O.heap.resources.entries.length using Nat.strong_induction_on generalizing O with
  | _ n ih =>
    cases hentries : O.heap.resources.entries with
    | nil =>
      have hstep : O.step .tear = some { O with life := .gone } := by rw [step, hlife, hentries]
      exact ⟨[.tear], _, .cons trivial hstep (.nil _), rfl⟩
    | cons e es =>
      have hstep : O.step .tear = some
          { O with inst := eraseResource O.inst e.1, heap := O.heap.tearDown e.1 } := by
        rw [step, hlife, hentries]
      have hmem : e.1 ∈ O.heap.resources.keys := by
        rw [OrdMap.keys, hentries]
        exact List.mem_cons_self
      obtain ⟨es', O', hrun, hgone⟩ :=
        ih _ (hn ▸ length_tearDown_lt hmem) (O := { O with
          inst := eraseResource O.inst e.1, heap := O.heap.tearDown e.1 }) hlife rfl
      exact ⟨.tear :: es', O', .cons trivial hstep hrun, hgone⟩

/-- **The destructor can come to its end** whenever no function is running. -/
theorem exists_gone (hlife : O.life = .alive) (hfree : ∃ b, O.inst.ctl = .free b) :
    ∃ es O', Run step (fun _ _ => True) O es O' ∧ O'.life = .gone := by
  obtain ⟨b, hb⟩ := hfree
  have hdestroy : O.step .destroy = some
      { O with inst := Inst.enter O.inst.lock .releaseAll, life := .releasing } := by
    rw [step, hlife, hb]
  obtain ⟨es₁, O₁, hrun₁, hlife₁, b₁, hb₁⟩ := exists_released O.inst.lock.names O.inst.lock O.heap
  have hlock : O₁.step .lockUpdate = some { O₁ with life := .tearing } := by
    rw [step, hlife₁, hb₁]
  obtain ⟨es₂, O₂, hrun₂, hgone⟩ := exists_torn (O := { O₁ with life := .tearing }) rfl
  exact ⟨.destroy :: (es₁ ++ .lockUpdate :: es₂), O₂,
    .cons trivial hdestroy (hrun₁.append (.cons trivial hlock hrun₂)), hgone⟩

end Owner

end DistLock
