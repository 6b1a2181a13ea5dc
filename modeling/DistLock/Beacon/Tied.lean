/-
What holds of an instance with its threads.

The threads of a resource know the state and the count of the resource (`Node.Tied`), and they take
their steps one at a time: a step of the instance concerns the threads of at most one resource
(`Node.Turn`).  So what every step of two threads keeps is kept by the steps of the instance
(`Node.Does.threads`).
-/
import DistLock.Acquire.Coherent
import DistLock.Beacon.Node

namespace DistLock

open Lib (Run)

/-- The resources are alike in what goes into a packet. -/
def Resource.Alike (R R' : Resource) : Prop :=
  R.name = R'.name ∧ R.count = R'.count ∧ R.state = R'.state

/-- The threads send the same packets. -/
def Threads.Alike (T T' : Threads) : Prop := T.id = T'.id ∧ T.res.Alike T'.res

lemma Resource.Alike.trans {R R' R'' : Resource} (h : R.Alike R') (h' : R'.Alike R'') :
    R.Alike R'' :=
  ⟨h.1.trans h'.1, h.2.1.trans h'.2.1, h.2.2.trans h'.2.2⟩

lemma Resource.Alike.symm {R R' : Resource} (h : R.Alike R') : R'.Alike R :=
  ⟨h.1.symm, h.2.1.symm, h.2.2.symm⟩

lemma Threads.Alike.of_eq {T T' : Threads} (h : T = T') : T.Alike T' := by
  subst h
  exact ⟨rfl, rfl, rfl, rfl⟩

/-- `setCount`, if the call is a `defineResource`. -/
def Threads.recount (c : Call) (T : Threads) : Threads := { T with res := Inst.recount c T.res }

namespace Threads

variable {T : Threads} {c : Call} {op : Op}

lemma Sound.recount (h : T.Sound) : (T.recount c).Sound where
  state := by rw [Threads.recount]; exact h.state.trans (by rw [Inst.recount_state])
  stored op hop := Inst.recount_state.trans (h.stored op hop)
  stopping hin := Inst.recount_state.trans (h.stopping hin)
  dropped hpc := Inst.recount_running.trans (h.dropped hpc)
  ended hr := h.ended (Inst.recount_running.symm.trans hr)
  returned hpc := ⟨Inst.recount_state.trans (h.returned hpc).1, (h.returned hpc).2⟩

lemma held_of_free (h : T.api.isFree = true) : T.api.held = none := by
  cases hapi : T.api <;> simp_all [ApiPc.isFree, ApiPc.held]

lemma Ordered.recount (h : T.Ordered) (hfree : T.api.isFree = true) : (T.recount c).Ordered where
  api m hm := by
    rw [show (T.recount c).api.held = none from held_of_free hfree] at hm
    cases hm
  beacon := h.beacon
  genuine := h.genuine
  sorted := h.sorted
  complete := h.complete

lemma Awake.recount (h : T.Awake) : (T.recount c).Awake where
  parked hb := (h.parked hb).imp_left Inst.recount_state.trans
  ended hb := Inst.recount_running.trans (h.ended hb)

/-- A thread in an operation stays in it until it returns, and the state has been stored. -/
lemma not_storing_step {T' : Threads} (hs : T.step .api = some T') :
    ∀ op, T'.api ≠ .storing op := by
  intro op hop
  cases effect_step hs with
  | notify op' => cases op' <;> cases hop
  | move hm => cases hm
  | store | build | send | clear | read | skip | drop | wake | join => cases hop

/-- Once the state has been stored, an operation of the calling thread does not change what goes
into the packets. -/
lemma alike_of_api {T' : Threads} (hst : ∀ op, T.api ≠ .storing op) (hs : T.step .api = some T') :
    T'.Alike T := by
  cases effect_step hs with
  | store op hf => exact absurd hf (hst op)
  | notify op => exact ⟨by rw [notifyBeacon_eq], by simp [Resource.Alike]⟩
  | wake => exact ⟨by rw [notifyCv_eq], by simp [Resource.Alike]⟩
  | move | build | send | clear | read | skip | drop | join => exact ⟨rfl, rfl, rfl, rfl⟩

lemma alike_of_not_api {T' : Threads} {e : Tick} (he : e.ofApi = false) (hs : T.step e = some T') :
    T'.Alike T := by
  cases effect_step hs with
  | move | transmit => exact ⟨rfl, rfl, rfl, rfl⟩
  | call | store | build | send | notify | clear | read | skip | drop | wake | join => cases he

end Threads

lemma Readiness.Sound.recount {S : Readiness} (h : S.Sound) {c : Call} :
    Sound { S with threads := S.threads.recount c } where
  threads := h.threads.recount
  assigned s hs := Inst.recount_state.trans (h.assigned s hs)
  due := h.due
  wait := h.wait

namespace Node

variable {N N' : Node} {e : NodeEvent} {sent : List DLPacket} {n : Name}

/-! ### The threads of one resource -/

/-- What a step does to the threads of the resource `n`. -/
inductive Turn (N : Node) (n : Name) (e : NodeEvent) : Readiness → Prop
  | stays : Turn N n e (N.ready n)
  | recount {c : Call} (he : e = .own (.call c)) (hop : N.op = none)
    (hc : Inst.creates c = some n) :
    Turn N n e { N.ready n with threads := (N.ready n).threads.recount c }
  | store {op : Op} {R R' : Readiness} (he : e = .store) (hop : N.op = none)
    (hR : (N.ready n).step (.tick (.call op)) = some R) (hR' : R.step (.tick .api) = some R') :
    Turn N n e R'
  | api {R : Readiness} (he : e = .api) (hop : N.op = some n)
    (hR : (N.ready n).step (.tick .api) = some R) : Turn N n e R
  | ready {e' : ReadyEvent} {R : Readiness} (he : e = .ready n e') (hp : N.permits n e' = true)
    (hR : (N.ready n).step e' = some R) : Turn N n e R

theorem Does.turn (hd : N.Does e N' sent) (n : Name) : N.Turn n e (N'.ready n) := by
  cases hd with
  | @own e I l hop ht hs =>
    show N.Turn n (.own e) (N.recount e n)
    cases e with
    | call c =>
      rw [recount]
      dsimp only
      split_ifs with hc
      · exact .recount rfl hop hc
      · exact .stays
    | _ => exact .stays
  | @store res a op R R' I l hop hn hmem ha hR hR' hr =>
    show N.Turn n .store (Function.update N.ready res R' n)
    rcases eq_or_ne n res with rfl | hne
    · rw [Function.update_self]
      exact .store rfl hop hR hR'
    · rw [Function.update_of_ne hne]
      exact .stays
  | @api res R hop hR =>
    show N.Turn n .api (Function.update N.ready res R n)
    rcases eq_or_ne n res with rfl | hne
    · rw [Function.update_self]
      exact .api rfl hop hR
    · rw [Function.update_of_ne hne]
      exact .stays
  | @ready res e R hp hR =>
    show N.Turn n (.ready res e) (Function.update N.ready res R n)
    rcases eq_or_ne n res with rfl | hne
    · rw [Function.update_self]
      exact .ready rfl hp hR
    · rw [Function.update_of_ne hne]
      exact .stays
  | deliver pkt => exact .stays
  | late h => exact .stays

/-- The steps that concern the threads of the resources in `P` meet the condition. -/
def Allows (ok : Threads → Tick → Prop) (P : Name → Prop) (N : Node) : NodeEvent → Prop
  | .api => ∀ n ∈ N.op, P n → ok (N.ready n).threads .api
  | .ready n (.tick t) => P n → ok (N.ready n).threads t
  | _ => True

instance (ok : Threads → Tick → Prop) [∀ T t, Decidable (ok T t)] (P : Name → Prop)
    [DecidablePred P] (N : Node) : (e : NodeEvent) → Decidable (N.Allows ok P e)
  | .api => inferInstanceAs (Decidable (∀ n ∈ N.op, P n → ok (N.ready n).threads .api))
  | .ready n (.tick t) => inferInstanceAs (Decidable (P n → ok (N.ready n).threads t))
  | .own _ | .store | .ready _ .notify | .ready _ .enter | .ready _ .sleep | .ready _ .spurious
  | .deliver _ | .late => isTrue trivial

/-- The wait of `waitForReady` leaves the two threads alone. -/
lemma threads_of_ready {R R' : Readiness} {e : ReadyEvent} (hs : R.step e = some R') :
    R'.threads = R.threads ∨ ∃ t, e = .tick t ∧ R.threads.step t = some R'.threads := by
  cases e with
  | tick t =>
    obtain ⟨-, T, hT, rfl⟩ := Readiness.step_tick_inv hs
    exact .inr ⟨t, rfl, hT⟩
  | notify | enter | sleep | spurious =>
    simp only [Readiness.step] at hs
    split_ifs at hs <;> exact .inl (by rw [← Option.some.inj hs])

/-- The calling thread begins an operation. -/
lemma threads_of_store {op : Op} {R R' R'' : Readiness} (hR : R.step (.tick (.call op)) = some R')
    (hR' : R'.step (.tick .api) = some R'') : R''.threads = { R.threads with
      res := { R.threads.res with state := op.state }
      assigned := R.threads.assigned ++ [op.state]
      api := .building op } := by
  obtain ⟨-, T, hT, rfl⟩ := Readiness.step_tick_inv hR
  obtain ⟨-, T', hT', rfl⟩ := Readiness.step_tick_inv hR'
  rw [Threads.step] at hT
  split at hT
  · obtain rfl := Option.some.inj hT
    obtain rfl := Option.some.inj hT'
    rfl
  · cases hT

/-- **What each step of two threads keeps, each step of the instance keeps.**  The call of an
operation and the assignment at its beginning meet any condition. -/
theorem Does.threads {ok : Threads → Tick → Prop} {P : Name → Prop} {Q : Threads → Prop}
    (hd : N.Does e N' sent) (hok : N.Allows ok P e) (hn : P n)
    (hrecount : ∀ c, N.op = none → Q (N.ready n).threads → Q ((N.ready n).threads.recount c))
    (hcall : ∀ T op, ok T (.call op)) (hstore : ∀ T op, T.api = .storing op → ok T .api)
    (hstep : ∀ T t T', Q T → ok T t → T.step t = some T' → Q T') (hQ : Q (N.ready n).threads) :
    Q (N'.ready n).threads := by
  have hturn := hd.turn n
  generalize N'.ready n = R' at hturn
  cases hturn with
  | stays => exact hQ
  | recount he hop hc => exact hrecount _ hop hQ
  | @store op _ _ he hop hR hR' =>
    obtain ⟨-, T, hT, rfl⟩ := Readiness.step_tick_inv hR
    obtain ⟨-, T', hT', rfl⟩ := Readiness.step_tick_inv hR'
    have hstoring : T.api = .storing op := by
      cases Threads.effect_step hT with
      | call => rfl
      | move hm => cases hm
    exact hstep _ _ _ (hstep _ _ _ hQ (hcall _ _) hT) (hstore _ _ hstoring) hT'
  | api he hop hR =>
    subst he
    obtain ⟨-, T, hT, rfl⟩ := Readiness.step_tick_inv hR
    exact hstep _ _ _ hQ (hok n hop hn) hT
  | ready he hp hR =>
    subst he
    rcases threads_of_ready hR with heq | ⟨t, rfl, hT⟩
    · rw [heq]
      exact hQ
    · exact hstep _ _ _ hQ (hok hn) hT

/-! ### The instance -/

/-- What a step does to the instance. -/
inductive Acts (N : Node) (e : NodeEvent) : Inst → Prop
  | stays : Acts N e N.inst
  | own {e' : Event} {I : Inst} {l : List DLPacket} (he : e = .own e') (ht : N.takes e' = true)
    (hs : N.inst.step e' = some (I, l)) : Acts N e I
  | store {res : Name} {a : Inst.Action} {op : Op} {I : Inst} {l : List DLPacket} (he : e = .store)
    (hn : N.inst.next = some (res, a)) (ha : a.op = some op) (hr : N.inst.run = some (I, l)) :
    Acts N e I
  | stop {res : Name} {I : Inst} {l : List DLPacket} (he : e = .api)
    (hn : N.inst.next = some (res, .stop)) (hr : N.inst.run = some (I, l)) : Acts N e I
  | wake {I : Inst} (hw : N.inst.onWake = some I) : Acts N e I
  | deliver {pkt : DLPacket} (he : e = .deliver pkt) : Acts N e (N.inst.actionPerformed pkt)
  | late {ctl : Ctl} (he : e = .late) (h : N.late = some ctl) : Acts N e ⟨N.inst.lock, ctl⟩

theorem Does.acts (hd : N.Does e N' sent) : N.Acts e N'.inst := by
  cases hd with
  | own hop ht hs => exact .own rfl ht hs
  | store hop hn hmem ha hR hR' hr => exact .store rfl hn ha hr
  | @api res R hop hR =>
    dsimp only
    split_ifs
    · rcases N.stopped_cases res with heq | ⟨hn, l, hr⟩
      · rw [heq]
        exact .stays
      · exact .stop rfl hn hr
    · exact .stays
  | @ready res e R hp hR =>
    dsimp only
    split_ifs
    · cases hw : N.inst.onWake with
      | none => exact .stays
      | some I => exact .wake hw
    · exact .stays
  | deliver pkt => exact .deliver rfl
  | late h => exact .late rfl h

/-- The resource as its threads know it: one that does not exist is like a new one. -/
def object (N : Node) (n : Name) : Resource := (N.inst.lock.getResource n).getD (Resource.new n)

/-- The threads of the resource belong to the instance, and they know the state and the count. -/
structure Tied (N : Node) (n : Name) : Prop where
  id : (N.ready n).threads.id = N.inst.lock.id
  res : (N.ready n).threads.res.Alike (N.object n)

lemma object_of_get {R : Resource} (h : N.inst.lock.getResource n = some R) : N.object n = R := by
  rw [object, h]
  rfl

/-- The steps of the calling thread outside of the operations do not assign a state. -/
lemma not_assigns {a : Inst.Action} (ht : N.takes .run = true) (hn : N.inst.next = some (n, a))
    (hmem : n ∈ N.inst.lock.names) : False := by
  rw [takes, hn] at ht
  split at ht
  · next h =>
    obtain ⟨rfl, -⟩ := Prod.mk.inj (Option.some.inj h)
    exact Lock.isNone_getResource.mp ht hmem
  · next h =>
    obtain ⟨rfl, -⟩ := Prod.mk.inj (Option.some.inj h)
    exact Lock.isNone_getResource.mp ht hmem
  · cases ht
  · next h => cases h

lemma woken_lock (I : Inst) : (I.onWake.getD I).lock = I.lock := by
  cases hw : I.onWake with
  | none => rfl
  | some I' => exact Inst.onWake_lock hw

/-- The beacon thread and `waitForReady` leave the calling thread where it is in its operation. -/
lemma api_of_ready {e' : ReadyEvent} {R : Readiness} (hp : N.permits n e' = true)
    (hR : (N.ready n).step e' = some R) : R.threads.api = (N.ready n).threads.api := by
  rcases threads_of_ready hR with heq | ⟨t, rfl, hT⟩
  · rw [heq]
  · simp only [permits, Bool.and_eq_true, Bool.not_eq_true'] at hp
    exact (Threads.res_of_not_api hp.1 hT).2

/-- What is seen of a resource does not change in a step that is no call and assigns no state. -/
lemma object_of_step {e' : Event} {l : List DLPacket} (hcall : e'.isCall = false)
    (hrun : e' = .run → ∀ a, N.inst.next = some (n, a) → n ∈ N.inst.lock.names → a = .stop)
    (hs : N.inst.step e' = some (N'.inst, l)) : (N'.object n).Alike (N.object n) := by
  rw [object, (Inst.frame_step hcall hs).resource, object]
  cases hR : N.inst.lock.getResource n with
  | none => exact ⟨rfl, rfl, rfl⟩
  | some R =>
    have hmem := Lock.mem_names_iff.mpr ⟨R, hR⟩
    exact ⟨Inst.change_name, Inst.change_count,
      Inst.change_state fun he a ha => hrun he a ha hmem⟩

lemma Tied.keep (h : N.Tied n) (hT : (N'.ready n).threads.Alike (N.ready n).threads)
    (hid : N'.inst.lock.id = N.inst.lock.id) (hO : (N'.object n).Alike (N.object n)) :
    N'.Tied n where
  id := hT.1.trans (h.id.trans hid.symm)
  res := hT.2.trans (h.res.trans hO.symm)

/-- The calling thread is in an operation on one resource at most. -/
structure Sound (N : Node) : Prop where
  coherent : N.inst.Coherent
  late : ∀ ctl ∈ N.late, (⟨N.inst.lock, ctl⟩ : Inst).Coherent ∧
    (⟨N.inst.lock, ctl⟩ : Inst).waitsOn = none
  ready : ∀ n, (N.ready n).Sound
  tied : ∀ n, N.Tied n
  free : ∀ n, N.op ≠ some n → (N.ready n).threads.api.isFree = true
  busy : ∀ n, N.op = some n → n ∈ N.inst.lock.names ∧
    (N.ready n).threads.api.isFree = false ∧ ∀ op, (N.ready n).threads.api ≠ .storing op

lemma recount_eq {e' : Event} (hcall : e'.isCall = false) : N.recount e' = N.ready := by
  cases e' with
  | call c => cases hcall
  | _ => rfl

/-- A step of the instance that assigns no state. -/
lemma Tied.step {t : Event} {l : List DLPacket} (h : N.Tied n) (hcall : t.isCall = false)
    (hrun : t = .run → ∀ a, N.inst.next = some (n, a) → n ∈ N.inst.lock.names → a = .stop)
    (hs : N.inst.step t = some (N'.inst, l))
    (hT : (N'.ready n).threads.Alike (N.ready n).threads) : N'.Tied n :=
  h.keep hT (Inst.step_id hs) (object_of_step hcall hrun hs)

/-- The beginning of a function. -/
lemma Tied.call {c : Call} {l : List DLPacket} (h : N.Tied n)
    (hs : N.inst.step (.call c) = some (N'.inst, l))
    (hready : N'.ready n = N.recount (.call c) n) : N'.Tied n := by
  obtain ⟨-, hI, -⟩ := Inst.step_call hs
  have hobj : N'.object n =
      if Inst.creates c = some n then Inst.recount c (N.object n) else N.object n := by
    rw [object, hI, Inst.getResource_enter, object]
    split_ifs <;> rfl
  have hid : N'.inst.lock.id = N.inst.lock.id := by rw [hI, Inst.enter_id]
  rw [recount] at hready
  dsimp only at hready
  split_ifs at hready hobj with hc
  · constructor <;> rw [hready]
    · exact h.id.trans hid.symm
    · rw [hobj]
      obtain ⟨hname, hcount, hstate⟩ := h.res
      refine ⟨by simpa using hname, ?_, by simpa using hstate⟩
      cases c with
      | defineResource res count =>
        simp only [Inst.recount]
        split_ifs
        · rfl
        · exact hcount
      | _ => exact hcount
  · refine h.keep (.of_eq (by rw [hready])) hid ?_
    rw [hobj]
    exact ⟨rfl, rfl, rfl⟩

/-- The beginning of an operation. -/
lemma Tied.store {a : Inst.Action} {op : Op} {R R' : Readiness} {l : List DLPacket} (h : N.Tied n)
    (hn : N.inst.next = some (n, a)) (ha : a.op = some op)
    (hR : (N.ready n).step (.tick (.call op)) = some R) (hR' : R.step (.tick .api) = some R')
    (hr : N.inst.run = some (N'.inst, l)) (hmem : n ∈ N.inst.lock.names)
    (hready : N'.ready n = R') : N'.Tied n := by
  obtain ⟨O, hO⟩ := Lock.mem_names_iff.mp hmem
  have hobj : N'.object n = a.apply O := by
    refine object_of_get ?_
    rw [(Inst.frame_run hr).resource, hO, Option.map_some, Inst.change_run hn]
  have happly : (a.apply O).Alike { O with state := op.state } := by
    cases a with
    | setState s => cases s <;> cases ha <;> exact ⟨rfl, rfl, rfl⟩
    | reset =>
      cases ha
      exact ⟨rfl, rfl, rfl⟩
    | stop => cases ha
  obtain ⟨hname, hcount, -⟩ := object_of_get hO ▸ h.res
  constructor <;> rw [hready, threads_of_store hR hR']
  · exact h.id.trans (Inst.step_id (e := .run) hr).symm
  · rw [hobj]
    have hstored : Resource.Alike { (N.ready n).threads.res with state := op.state }
        { O with state := op.state } := ⟨hname, hcount, rfl⟩
    exact hstored.trans happly.symm

theorem Does.tied (h : N.Sound) (hd : N.Does e N' sent) : N'.Tied n := by
  have hn := h.tied n
  cases hd with
  | @own e I l hop ht hs =>
    cases hcall : e.isCall with
    | true =>
      cases e with
      | call c => exact hn.call hs rfl
      | _ => cases hcall
    | false =>
      refine hn.step hcall ?_ hs (.of_eq (by rw [recount_eq hcall]))
      rintro rfl a ha hmem
      exact (not_assigns ht ha hmem).elim
  | @store res a op R R' I l hop hnext hmem ha hR hR' hr =>
    rcases eq_or_ne n res with rfl | hne
    · exact hn.store hnext ha hR hR' hr hmem (Function.update_self ..)
    · refine hn.step (t := .run) rfl (fun _ a' ha' _ => absurd ?_ hne) hr
        (.of_eq (congrArg Readiness.threads (Function.update_of_ne hne ..)))
      rw [hnext] at ha'
      exact (congrArg Prod.fst (Option.some.inj ha')).symm
  | @api res R hop hR =>
    -- the state has been stored before
    have hT : (Function.update N.ready res R n).threads.Alike (N.ready n).threads := by
      rcases eq_or_ne n res with rfl | hne
      · obtain ⟨-, T, hT, rfl⟩ := Readiness.step_tick_inv hR
        rw [Function.update_self]
        exact Threads.alike_of_api (h.busy n hop).2.2 hT
      · exact .of_eq (congrArg Readiness.threads (Function.update_of_ne hne ..))
    by_cases hfree : R.threads.api.isFree = true
    · simp only [if_pos hfree]
      rcases N.stopped_cases res with heq | ⟨hnext, l, hr⟩
      · rw [heq]
        exact hn.keep hT rfl ⟨rfl, rfl, rfl⟩
      · refine hn.step (t := .run) (l := l) rfl (fun _ a ha _ => ?_) hr hT
        rw [hnext] at ha
        exact (congrArg Prod.snd (Option.some.inj ha)).symm
    · simp only [if_neg hfree]
      exact hn.keep hT rfl ⟨rfl, rfl, rfl⟩
  | @ready res e R hp hR =>
    have hT : (Function.update N.ready res R n).threads.Alike (N.ready n).threads := by
      rcases eq_or_ne n res with rfl | hne
      · rw [Function.update_self]
        rcases threads_of_ready hR with heq | ⟨t, rfl, hT⟩
        · exact .of_eq heq
        · have hof : t.ofApi = false := by
            simp only [permits, Bool.and_eq_true, Bool.not_eq_true'] at hp
            exact hp.1
          exact Threads.alike_of_not_api hof hT
      · exact .of_eq (congrArg Readiness.threads (Function.update_of_ne hne ..))
    have hlock : (if N.wakes res R then N.inst.onWake.getD N.inst else N.inst).lock =
        N.inst.lock := by
      split_ifs
      · exact woken_lock N.inst
      · rfl
    refine hn.keep hT (congrArg Lock.id hlock) ?_
    simp only [object, hlock]
    exact ⟨rfl, rfl, rfl⟩
  | deliver pkt =>
    have hs : N.inst.step (.deliver pkt) = some ((N.hear pkt).inst, []) := rfl
    exact hn.step rfl (fun he => by cases he) hs (.of_eq rfl)
  | late hl => exact hn.keep (.of_eq rfl) rfl ⟨rfl, rfl, rfl⟩

/-- The instance takes a step, or its thread returns late, or nothing happens. -/
lemma Acts.cases {I : Inst} (ha : N.Acts e I) :
    I = N.inst ∨
      (∃ e' l, N.inst.step e' = some (I, l) ∧ (e'.isCall = true → e = .own e')) ∨
      ∃ ctl, N.late = some ctl ∧ I = ⟨N.inst.lock, ctl⟩ := by
  cases ha with
  | stays => exact .inl rfl
  | @own e' I l he ht hs => exact .inr (.inl ⟨e', l, hs, fun _ => he⟩)
  | store he hn ha hr => exact .inr (.inl ⟨.run, _, hr, fun h => by cases h⟩)
  | stop he hn hr => exact .inr (.inl ⟨.run, _, hr, fun h => by cases h⟩)
  | @wake I hw =>
    have hs : N.inst.step .wake = some (I, []) := by rw [Inst.step, hw]; rfl
    exact .inr (.inl ⟨.wake, [], hs, fun h => by cases h⟩)
  | @deliver pkt he => exact .inr (.inl ⟨.deliver pkt, [], rfl, fun h => by cases h⟩)
  | late he hl => exact .inr (.inr ⟨_, hl, rfl⟩)

lemma Acts.coherent {I : Inst} (h : N.Sound) (ha : N.Acts e I) : I.Coherent := by
  obtain rfl | ⟨e', l, hs, -⟩ | ⟨ctl, hl, rfl⟩ := ha.cases
  · exact h.coherent
  · exact Inst.coherent_step h.coherent hs
  · exact (h.late ctl hl).1

/-- What holds of a thread that does not wait, and is kept by packets and by the end of a wait,
holds of the thread that returns late. -/
lemma Does.keeps_late {P : Inst → Prop} (hd : N.Does e N' sent) (hP : P N.inst)
    (htimeout : ∀ I I', P I → I.onTimeout = some I' → P I')
    (hdeliver : ∀ I pkt, P I → P (I.actionPerformed pkt))
    (h : ∀ ctl ∈ N.late, P ⟨N.inst.lock, ctl⟩ ∧ (⟨N.inst.lock, ctl⟩ : Inst).waitsOn = none) :
    ∀ ctl ∈ N'.late, P ⟨N'.inst.lock, ctl⟩ ∧ (⟨N'.inst.lock, ctl⟩ : Inst).waitsOn = none := by
  cases hd with
  | own | store | api | late => exact fun ctl hctl => by cases hctl
  | @ready res e R hp hR =>
    dsimp only
    split_ifs
    · exact fun ctl hctl => by cases hctl
    · exact h
  | deliver pkt =>
    intro ctl hctl
    have hlock : (N.hear pkt).inst.lock = (N.inst.hear pkt).lock := Inst.actionPerformed_lock
    rw [hlock]
    -- either way there is a state before the packet in which the thread does not wait
    have hbefore : P ⟨N.inst.lock, ctl⟩ ∧ (⟨N.inst.lock, ctl⟩ : Inst).waitsOn = none := by
      simp only [hear] at hctl
      split_ifs at hctl
      · exact h ctl hctl
      · obtain ⟨I, hI, rfl⟩ := Option.map_eq_some_iff.mp hctl
        rw [show (⟨N.inst.lock, I.ctl⟩ : Inst) = I by rw [← Inst.onTimeout_lock hI]]
        exact ⟨htimeout _ _ hP hI, waitsOn_of_onTimeout hI⟩
    have hheard : (⟨N.inst.lock, ctl⟩ : Inst).actionPerformed pkt =
        ⟨(N.inst.hear pkt).lock, ctl⟩ := by
      rw [actionPerformed_of_busy hbefore.2, Inst.hear_of_ctl]
    rw [← hheard]
    refine ⟨hdeliver _ pkt hbefore.1, ?_⟩
    rw [hheard]
    exact hbefore.2

/-- **Every step keeps the invariant.** -/
theorem Does.sound (h : N.Sound) (hd : N.Does e N' sent) : N'.Sound where
  coherent := hd.acts.coherent h
  late := by
    refine hd.keeps_late h.coherent (fun I I' hI ht => ?_) (fun I pkt hI => ?_) h.late
    · have hs : I.step .timeout = some (I', []) := by rw [Inst.step, ht]; rfl
      exact Inst.coherent_step hI hs
    · have hs : I.step (.deliver pkt) = some (I.actionPerformed pkt, []) := rfl
      exact Inst.coherent_step hI hs
  ready n := by
    have hturn := hd.turn n
    generalize N'.ready n = R at hturn
    cases hturn with
    | stays => exact h.ready n
    | recount => exact (h.ready n).recount
    | store he hop hR hR' => exact Readiness.sound_step (Readiness.sound_step (h.ready n) hR) hR'
    | api he hop hR | ready he hp hR => exact Readiness.sound_step (h.ready n) hR
  tied n := hd.tied h
  free n hne := by
    cases hd with
    | @own e I l hop ht hs =>
      have hfree := h.free n (by simp [hop])
      cases e with
      | call c =>
        show (N.recount (.call c) n).threads.api.isFree = true
        rw [recount]
        dsimp only
        split_ifs <;> exact hfree
      | _ => exact hfree
    | @store res a op R R' I l hop hnext hmem ha hR hR' hr =>
      have hres : n ≠ res := fun heq => hne (congrArg some heq.symm)
      show (Function.update N.ready res R' n).threads.api.isFree = true
      rw [Function.update_of_ne hres]
      exact h.free n (by simp [hop])
    | @api res R hop hR =>
      show (Function.update N.ready res R n).threads.api.isFree = true
      rcases eq_or_ne n res with rfl | hres
      · rw [Function.update_self]
        by_contra hfree
        exact hne (if_neg hfree)
      · rw [Function.update_of_ne hres]
        exact h.free n (by rw [hop]; exact fun heq => hres (Option.some.inj heq).symm)
    | @ready res e R hp hR =>
      have hfree := h.free n hne
      show (Function.update N.ready res R n).threads.api.isFree = true
      rcases eq_or_ne n res with rfl | hres
      · rw [Function.update_self, api_of_ready hp hR]
        exact hfree
      · rw [Function.update_of_ne hres]
        exact hfree
    | deliver pkt => exact h.free n hne
    | late hl => exact h.free n hne
  busy n hop' := by
    cases hd with
    | own hop => exact absurd (hop'.symm.trans hop) (by simp)
    | @store res a op R R' I l hop hnext hmem ha hR hR' hr =>
      obtain rfl : res = n := Option.some.inj hop'
      dsimp only
      rw [Function.update_self, threads_of_store hR hR', (Inst.frame_run hr).names_eq]
      exact ⟨hmem, rfl, by simp⟩
    | @api res R hop hR =>
      have hfree : R.threads.api.isFree ≠ true := fun hfree => by simp [hfree] at hop'
      obtain rfl : res = n := Option.some.inj ((if_neg hfree).symm.trans hop')
      dsimp only
      rw [Function.update_self, if_neg hfree]
      obtain ⟨-, T, hT, rfl⟩ := Readiness.step_tick_inv hR
      exact ⟨(h.busy res hop).1, Bool.eq_false_iff.mpr hfree, Threads.not_storing_step hT⟩
    | @ready res e R hp hR =>
      obtain ⟨hmem, hfree, hst⟩ := h.busy n hop'
      have hapi : (Function.update N.ready res R n).threads.api = (N.ready n).threads.api := by
        rcases eq_or_ne n res with rfl | hres
        · rw [Function.update_self, api_of_ready hp hR]
        · rw [Function.update_of_ne hres]
      refine ⟨?_, by rw [hapi]; exact hfree, fun op => by rw [hapi]; exact hst op⟩
      dsimp only
      split_ifs
      · rw [woken_lock]
        exact hmem
      · exact hmem
    | deliver pkt =>
      obtain ⟨hmem, hrest⟩ := h.busy n hop'
      refine ⟨?_, hrest⟩
      show n ∈ (N.inst.actionPerformed pkt).lock.names
      rw [Inst.actionPerformed_lock, Inst.hear_names]
      exact hmem
    | late hl => exact h.busy n hop'

lemma sound_new (id : UInt32) (beaconTime : UInt64) : (new id beaconTime).Sound where
  coherent scope retry pc hctl := by cases hctl
  late ctl hctl := by cases hctl
  ready n := Readiness.sound_new
  tied n := ⟨rfl, rfl, rfl, rfl⟩
  free n _ := rfl
  busy n hop := by cases hop

end Node
end DistLock
