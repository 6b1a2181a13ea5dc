/-
How a pass of `adquire_lock(res)` is decided.

The check at the end of a pass reads a member table that is not cleared when the pass begins:
an interrupted listening skips the reset, and a release or a query leaves the table as it is.
So the pass is decided by what is heard in it and by the holders that were in the table before
and have not been heard since (`acquire_decided_iff`).
-/
import DistLock.Acquire.Interrupt
import DistLock.Acquire.Ownership
import DistLock.Members.Window

namespace DistLock

/-- The positions of a pass of `adquire_lock(res)` before its check. -/
def Pc.pending : Pc → Bool
  | starting _ | listening | announcing _ | colliding | checking (_ :: _) => true
  | _ => false

namespace Inst

/-- The resource has not been checked yet. -/
def pending (I : Inst) : Bool :=
  match I.ctl with
  | .adquire _ _ pc => pc.pending
  | _ => false

/-- The calling thread is in the listening or in the collision wait. -/
def Waits (I : Inst) : Prop :=
  ∃ scope retry, I.ctl = .adquire scope retry .listening ∨ I.ctl = .adquire scope retry .colliding

/-- One step of an instance, with a record of the events and of where they happen. -/
def passStep : Inst × List (Inst × Event) → Event → Option (Inst × List (Inst × Event)) :=
  Lib.tracedStep proceed fun I e => some (I, e)

end Inst

section record

variable (own : UInt32) (res : Name) (k : UInt32) (tr : List (Inst × Event))

/-- An `ACQUIRING` packet of another instance is delivered in one of the two waits. -/
def Collided : Prop :=
  ∃ J pkt, (J, Event.deliver pkt) ∈ tr ∧ J.Waits ∧ pkt.resource = res ∧ pkt.memberId ≠ own ∧
    State.ofByte pkt.state = .acquiring

/-- One of the two waits ends spuriously. -/
def WokenUp : Prop := ∃ J : Inst, (J, Event.wake) ∈ tr ∧ J.Waits

/-- The packets with the count `k` that are heard before the check. -/
def heardInPass : List DLPacket :=
  (heardPackets own res ((tr.filter (·.1.pending)).map Prod.snd)).filter (·.count = k)

/-- The members whose last packet in the pass says that they hold the resource. -/
def heardHolders : Set UInt32 :=
  {i | ∃ pkt, lastFrom i (heardInPass own res k tr) = some pkt ∧
    State.ofByte pkt.state = .acquired}

/-- The members that are not heard in the pass, but have been entered as holders before. -/
def staleHolders (R : Resource) : Set UInt32 :=
  {i | lastFrom i (heardInPass own res k tr) = none ∧ R.memberState i = some .acquired}

end record

section snoc

variable {own : UInt32} {res : Name} {k : UInt32} {tr : List (Inst × Event)} {J : Inst}
  {e : Event}

lemma collided_append :
    Collided own res (tr ++ [(J, e)]) ↔ Collided own res tr ∨
      ∃ pkt, e = .deliver pkt ∧ J.Waits ∧ pkt.resource = res ∧ pkt.memberId ≠ own ∧
        State.ofByte pkt.state = .acquiring := by
  constructor
  · rintro ⟨K, pkt, hmem, h⟩
    rcases List.mem_append.mp hmem with hmem | hmem
    · exact .inl ⟨K, pkt, hmem, h⟩
    · obtain ⟨rfl, rfl⟩ := Prod.mk.inj (List.mem_singleton.mp hmem)
      exact .inr ⟨pkt, rfl, h⟩
  · rintro (⟨K, pkt, hmem, h⟩ | ⟨pkt, rfl, h⟩)
    · exact ⟨K, pkt, List.mem_append_left _ hmem, h⟩
    · exact ⟨J, pkt, List.mem_append_right _ (List.mem_singleton.mpr rfl), h⟩

lemma wokenUp_append : WokenUp (tr ++ [(J, e)]) ↔ WokenUp tr ∨ e = .wake ∧ J.Waits := by
  constructor
  · rintro ⟨K, hmem, h⟩
    rcases List.mem_append.mp hmem with hmem | hmem
    · exact .inl ⟨K, hmem, h⟩
    · obtain ⟨rfl, rfl⟩ := Prod.mk.inj (List.mem_singleton.mp hmem)
      exact .inr ⟨rfl, h⟩
  · rintro (⟨K, hmem, h⟩ | ⟨rfl, h⟩)
    · exact ⟨K, List.mem_append_left _ hmem, h⟩
    · exact ⟨J, List.mem_append_right _ (List.mem_singleton.mpr rfl), h⟩

lemma heardHolders_of_nil (h : heardInPass own res k tr = []) : heardHolders own res k tr = ∅ := by
  refine Set.eq_empty_of_forall_notMem ?_
  rintro i ⟨pkt, hpkt, -⟩
  rw [h] at hpkt
  exact absurd hpkt (by simp [lastFrom])

lemma heardInPass_append :
    heardInPass own res k (tr ++ [(J, e)]) = heardInPass own res k tr ++
      if J.pending then (heardPackets own res [e]).filter (·.count = k) else [] := by
  rw [heardInPass, heardInPass, List.filter_append, List.map_append, heardPackets,
    List.filterMap_append, List.filter_append]
  congr 1
  cases h : J.pending
  · simp only [List.filter_cons, h, List.filter_nil]
    rfl
  · simp only [List.filter_cons, h, List.filter_nil, if_true]
    rfl

end snoc

namespace Inst

variable {I I' J J' : Inst} {e : Event} {sent : List DLPacket} {own : UInt32} {res : Name}
  {R R' : Resource} {tr : List (Inst × Event)} {retry : UInt32} {pc : Pc}

/-- What is known of the table before the check. -/
def Law (own : UInt32) (res : Name) (R : Resource) (tr : List (Inst × Event)) (R' : Resource) :
    Prop :=
  ∀ i, R'.memberState i = ((lastFrom i (heardInPass own res R.count tr)).map
    fun pkt => State.ofByte pkt.state).or (R.memberState i)

/-- The resource is found free: less members are known as holders than it has places. -/
def FoundFree (own : UInt32) (res : Name) (R : Resource) (tr : List (Inst × Event)) : Prop :=
  (heardHolders own res R.count tr ∪ staleHolders own res R.count tr R).ncard < R.count.toNat

/-- The pass has been disturbed in one of its waits. -/
def Disturbed (own : UInt32) (res : Name) (tr : List (Inst × Event)) : Prop :=
  Collided own res tr ∨ WokenUp tr

/-- What the position of the thread says about the pass so far. -/
def Judged (own : UInt32) (res : Name) (R : Resource) (tr : List (Inst × Event)) : Ctl → Prop
  | .adquire _ _ (.starting []) | .adquire _ _ .listening | .adquire _ _ (.announcing _)
  | .adquire _ _ .colliding | .adquire _ _ (.checking (_ :: _)) => ¬ Disturbed own res tr
  | .adquire _ _ (.marking _ _) | .adquire _ _ (.checking []) | .free (some true) =>
    ¬ Disturbed own res tr ∧ FoundFree own res R tr
  | .adquire _ _ (.resetting _) | .adquire _ _ .backoff =>
    Disturbed own res tr ∨ ¬ FoundFree own res R tr
  | _ => False

/-- The state of an instance in a pass of `adquire_lock(res)`; `R` is what the resource was
when the pass began. -/
structure Trial (own : UInt32) (res : Name) (R : Resource) (s : Inst × List (Inst × Event)) :
    Prop where
  id : s.1.lock.id = own
  names : s.1.lock.names = [res]
  acquiring : s.1.Acquiring (some res)
  table : ∃ R', s.1.lock.getResource res = some R' ∧ R'.count = R.count ∧
    R'.members.find? own = none ∧ (s.1.pending = true → Law own res R s.2 R')
  judged : Judged own res R s.2 s.1.ctl

/-- The check reads off the table whether the resource is free. -/
lemma foundFree_iff (hcount : R'.count = R.count) (hown : R'.members.find? own = none)
    (hlaw : Law own res R tr R') : FoundFree own res R tr ↔ R'.isAcquirable = true := by
  have hset : {i | ∃ m, R'.members.find? i = some m ∧ decide (m.state = .acquired) = true} =
      heardHolders own res R.count tr ∪ staleHolders own res R.count tr R := by
    ext i
    have hi := hlaw i
    have hentry : (∃ m, R'.members.find? i = some m ∧ decide (m.state = .acquired) = true) ↔
        R'.memberState i = some .acquired := by
      rw [Resource.memberState, Option.map_eq_some_iff]
      simp only [decide_eq_true_iff]
      rfl
    simp only [Set.mem_ofPred_eq, hentry, hi, heardHolders, staleHolders, Set.mem_union]
    cases lastFrom i (heardInPass own res R.count tr) with
    | none => simp
    | some pkt => simp
  have hacq := Resource.isAcquirable_iff hown
  rw [R'.members.countP_entries fun m => decide (m.state = .acquired), hset, hcount] at hacq
  exact hacq.symm

/-- Where the thread has not checked the resource yet, the record of one more step extends the
law. -/
lemma law_step (hown : I.lock.id = own) (hR' : I.lock.getResource res = some R')
    (hh : I.Hears res (·.count = R.count) e)
    (hp : I.pending = true) (hlaw : Law own res R tr R') :
    Law own res R (tr ++ [(I, e)]) (I.change e res R') := by
  intro i
  rw [memberState_change hR' hh, hlaw i, heardInPass_append, if_pos hp, lastFrom_append,
    Option.map_or, Option.or_assoc, hown]

/-- In its waits the thread is disturbed by exactly the packets that interrupt it. -/
lemma interrupts_iff {pkt : DLPacket} (hown : I.lock.id = own) (hnames : I.lock.names = [res])
    (hacq : I.Acquiring (some res)) :
    I.Interrupts pkt ↔ I.Waits ∧ pkt.resource = res ∧ pkt.memberId ≠ own ∧
      State.ofByte pkt.state = .acquiring := by
  have haddr : ∀ {K}, I.addressee pkt = some K ↔
      pkt.memberId ≠ own ∧ pkt.resource = res ∧ I.lock.getResource res = some K := by
    intro K
    rw [addressee, hown]
    split_ifs with hid
    · simp [hid]
    · constructor
      · intro hK
        have hmem : pkt.resource ∈ I.lock.names := Lock.mem_names_iff.mpr ⟨K, hK⟩
        rw [hnames, List.mem_singleton] at hmem
        exact ⟨hid, hmem, hmem ▸ hK⟩
      · rintro ⟨-, rfl, hK⟩
        exact hK
  obtain ⟨K, hK⟩ : ∃ K, I.lock.getResource res = some K :=
    Lock.mem_names_iff.mp (by rw [hnames]; exact List.mem_singleton.mpr rfl)
  have hheeds : I.heeds K = true ↔ I.Waits := by
    rw [heeds, Waits]
    cases hctl : I.ctl with
    | adquire scope retry pc =>
      cases pc with
      | listening => simp
      | colliding =>
        -- in the collision wait the resource is being acquired
        rw [Acquiring, hctl] at hacq
        obtain ⟨rfl, -, hc⟩ := hacq
        have hstate := hc res (List.mem_singleton.mpr rfl)
        rw [Lock.Has, Lock.stateOf, hK, Option.map_some] at hstate
        simp [Option.some.inj hstate]
      | _ => simp
    | _ => simp
  rw [Interrupts]
  constructor
  · rintro ⟨hs, K', hK', hh⟩
    obtain ⟨hid, hres, hget⟩ := haddr.mp hK'
    obtain rfl := Option.some.inj (hK.symm.trans hget)
    exact ⟨hheeds.mp hh, hres, hid, hs⟩
  · rintro ⟨hw, hres, hid, hs⟩
    exact ⟨hs, K, haddr.mpr ⟨hid, hres, hK⟩, hheeds.mpr hw⟩

/-- Before the check the resource is claimed, but not yet held. -/
lemma contending_of_pending (hacq : I.Acquiring (some res)) (hj : Judged own res R tr I.ctl)
    (hp : I.pending = true) (hR' : I.lock.getResource res = some R') :
    R'.state = .starting ∨ R'.state = .acquiring ∨ R'.state = .acquired := by
  have hhas : ∀ {s}, I.lock.Has s res → R'.state = s := by
    intro s h
    rw [Lock.Has, Lock.stateOf, hR', Option.map_some] at h
    exact Option.some.inj h
  have hvisited : ∀ {rest s s'}, Visited I.lock (some res) rest (I.lock.Has s) (I.lock.Has s') →
      R'.state = s ∨ R'.state = s' := by
    rintro rest s s' ⟨done, hd, hP, hQ⟩
    have hmem : res ∈ done ++ rest := hd ▸ List.mem_singleton.mpr rfl
    exact (List.mem_append.mp hmem).imp (fun h => hhas (hP res h)) fun h => hhas (hQ res h)
  have hres : res ∈ I.lock.targets (some res) := List.mem_singleton.mpr rfl
  rw [pending] at hp
  split at hp
  · next scope retry pc hctl =>
    rw [Acquiring, hctl] at hacq
    rw [hctl] at hj
    obtain ⟨rfl, -, hc⟩ := hacq
    cases pc with
    | starting rest =>
      cases rest with
      | nil => exact .inl (hhas (hc.2.all res hres))
      | cons r rest => exact hj.elim
    | listening => exact .inl (hhas (hc.2 res hres))
    | announcing rest => rcases hvisited hc with h | h <;> simp [h]
    | colliding => exact .inr (.inl (hhas (hc res hres)))
    | checking rest => rcases hvisited hc with h | h <;> simp [h]
    | _ => exact absurd hp (by simp [Pc.pending])
  · exact absurd hp (by simp)

lemma hears_of_pending (hacq : I.Acquiring (some res)) (hj : Judged own res R tr I.ctl)
    (hp : I.pending = true) (hR' : I.lock.getResource res = some R') (hcount : R'.count = R.count) :
    I.Hears res (·.count = R.count) e := by
  have hs := contending_of_pending hacq hj hp hR'
  refine ⟨fun _ hn => ?_, fun K hK => ?_, fun K hK pkt => ?_⟩
  · obtain ⟨scope, retry, rest, hctl⟩ := resetting_of_next hn
    exact absurd hp (by simp [pending, hctl, Pc.pending])
  · obtain rfl := Option.some.inj (hR'.symm.trans hK)
    rcases hs with h | h | h <;> simp [h]
  · obtain rfl := Option.some.inj (hR'.symm.trans hK)
    rw [hcount, or_iff_left]
    rcases hs with h | h | h <;> simp [h]

/-- A step of the thread itself, as long as it is in the pass. -/
lemma judged_run (h : Trial own res R (I, tr)) (hin : I.inPass = true)
    (hr : I.run = some (I', sent)) :
    Judged own res R tr I'.ctl ∧ (I'.pending = true → I.pending = true) := by
  obtain ⟨scope, retry, pc, hctl, hpc⟩ := adquire_of_inPass hin
  obtain ⟨R', hR', hcount, hown, hlaw⟩ := h.table
  have hj := h.judged
  have hacq := h.acquiring
  simp only [Acquiring, Lock.targets, hctl] at hacq
  obtain ⟨rfl, -, hc⟩ := hacq
  obtain ⟨L, ctl⟩ := I
  obtain rfl := hctl
  cases pc with
  | starting rest =>
    cases rest with
    | nil =>
      obtain ⟨rfl, -⟩ := Prod.mk.inj (Option.some.inj hr)
      exact ⟨hj, fun _ => rfl⟩
    | cons r rest => exact hj.elim
  | announcing rest =>
    cases rest with
    | nil | cons r rest =>
      obtain ⟨rfl, -⟩ := Prod.mk.inj (Option.some.inj hr)
      exact ⟨hj, fun _ => rfl⟩
  | checking rest =>
    cases rest with
    | nil =>
      obtain ⟨rfl, -⟩ := Prod.mk.inj (Option.some.inj hr)
      exact ⟨hj, by simp [pending]⟩
    | cons r rest =>
      obtain rfl : r = res := List.mem_singleton.mp (Visited.head hc)
      have hacq : L.isAcquirable r = R'.isAcquirable := by
        rw [Lock.isAcquirable, show L.getResource r = some R' from hR']
      simp only [run, adquireLock, hacq] at hr
      have hfree := foundFree_iff hcount hown (hlaw rfl)
      split_ifs at hr with hif <;> obtain ⟨rfl, -⟩ := Prod.mk.inj (Option.some.inj hr)
      · exact ⟨⟨hj, hfree.mpr hif⟩, by simp [pending, Pc.pending]⟩
      · exact ⟨.inr fun hf => hif (hfree.mp hf), by simp [pending, Pc.pending]⟩
  | marking r rest =>
    -- there is no other resource to check
    have hrest : rest = [] := by
      obtain ⟨done, hd, -, -⟩ := hc
      have hlen := congrArg List.length hd
      rw [List.length_append, List.length_cons, Lock.targets, List.length_singleton] at hlen
      exact List.length_eq_zero_iff.mp (by omega)
    subst hrest
    obtain ⟨rfl, -⟩ := Prod.mk.inj (Option.some.inj hr)
    exact ⟨hj, by simp [pending, Pc.pending]⟩
  | resetting rest =>
    cases rest with
    | nil | cons r rest =>
      obtain ⟨rfl, -⟩ := Prod.mk.inj (Option.some.inj hr)
      exact ⟨hj, by simp [pending, Pc.pending]⟩
  | listening | colliding => exact absurd hr (by simp [run, adquireLock])
  | _ => exact absurd hpc (by simp [Pc.inPass])

/-- A position outside the two waits keeps its verdict. -/
lemma Judged.congr {tr' : List (Inst × Event)} {ctl : Ctl}
    (hd : Disturbed own res tr' ↔ Disturbed own res tr)
    (hf : FoundFree own res R tr' ↔ FoundFree own res R tr) (h : Judged own res R tr ctl) :
    Judged own res R tr' ctl := by
  unfold Judged at h ⊢
  split at h <;> first | exact h.elim | simpa only [hd, hf] using h

/-- A record that adds no packet from before the check. -/
lemma foundFree_append (h : I.pending = true → heardPackets own res [e] = []) :
    FoundFree own res R (tr ++ [(I, e)]) ↔ FoundFree own res R tr := by
  have hsame : heardInPass own res R.count (tr ++ [(I, e)]) = heardInPass own res R.count tr := by
    rw [heardInPass_append]
    split_ifs with hp
    · rw [h hp, List.filter_nil, List.append_nil]
    · rw [List.append_nil]
  rw [FoundFree, FoundFree, heardHolders, heardHolders, staleHolders, staleHolders, hsame]

/-- The verdict before the check is that nothing has disturbed the pass. -/
lemma judged_of_pending (hp : I.pending = true) (hj : Judged own res R tr I.ctl) :
    ¬ Disturbed own res tr := by
  rw [pending] at hp
  split at hp
  · next scope retry pc hctl =>
    rw [hctl] at hj
    cases pc with
    | starting rest =>
      cases rest with
      | nil => exact hj
      | cons r rest => exact hj.elim
    | checking rest =>
      cases rest with
      | nil => exact absurd hp (by simp [Pc.pending])
      | cons r rest => exact hj
    | listening | announcing rest | colliding => exact hj
    | _ => exact absurd hp (by simp [Pc.pending])
  · exact absurd hp (by simp)

/-- A record of one more step: the pass is disturbed in a wait, by what ends the wait. -/
lemma disturbed_append (hown : I.lock.id = own) (hnames : I.lock.names = [res])
    (hacq : I.Acquiring (some res)) :
    Disturbed own res (tr ++ [(I, e)]) ↔ Disturbed own res tr ∨ I.Waits ∧ I.Wakes e := by
  rw [Disturbed, collided_append, wokenUp_append, Disturbed]
  have hnew : (∃ pkt, e = .deliver pkt ∧ I.Waits ∧ pkt.resource = res ∧ pkt.memberId ≠ own ∧
      State.ofByte pkt.state = .acquiring) ∨ e = .wake ∧ I.Waits ↔ I.Waits ∧ I.Wakes e := by
    cases e with
    | deliver pkt =>
      rw [Wakes, interrupts_iff hown hnames hacq]
      constructor
      · rintro (⟨p, hp, h⟩ | ⟨hp, -⟩)
        · obtain rfl := Event.deliver.inj hp
          exact ⟨h.1, h⟩
        · exact absurd hp (by simp)
      · exact fun h => .inl ⟨pkt, rfl, h.2⟩
    | wake => simp [Wakes]
    | _ => simp [Wakes]
  rw [← hnew]
  exact or_or_or_comm

lemma judged_step (h : Trial own res R (I, tr)) (he : e.isCall = false) (hin : I.inPass = true)
    (hs : I.step e = some (I', sent)) :
    Judged own res R (tr ++ [(I, e)]) I'.ctl ∧ (I'.pending = true → I.pending = true) := by
  have hdist : Disturbed own res (tr ++ [(I, e)]) ↔ Disturbed own res tr ∨ I.Waits ∧ I.Wakes e :=
    disturbed_append h.id h.names h.acquiring
  have hj := h.judged
  obtain ⟨scope, retry, pc, hctl, hpc⟩ := adquire_of_inPass hin
  have hwaits : I.Waits ↔ pc = .listening ∨ pc = .colliding := by
    rw [Waits, hctl]
    constructor
    · rintro ⟨scope', retry', hw | hw⟩
      · exact .inl (Ctl.adquire.inj hw).2.2
      · exact .inr (Ctl.adquire.inj hw).2.2
    · rintro (rfl | rfl)
      · exact ⟨scope, retry, .inl rfl⟩
      · exact ⟨scope, retry, .inr rfl⟩
  rcases adquire_cases hctl he hs with ⟨rfl, hr⟩ | ⟨-, -, hnot, hctl'⟩ | ⟨hwakes, hw⟩ | ⟨rfl, ht⟩
  · -- the thread moves, which disturbs none of its waits
    obtain ⟨hj', hp'⟩ := judged_run h hin hr
    refine ⟨Judged.congr ?_ (foundFree_append fun _ => rfl) hj', hp'⟩
    rw [hdist, or_iff_left fun hd => hd.2]
  · -- the thread stays where it is
    have hd : Disturbed own res (tr ++ [(I, e)]) ↔ Disturbed own res tr := by
      rw [hdist, or_iff_left fun hd => hnot hd.2]
    have hpend : I'.pending = I.pending := by rw [pending, pending, hctl']
    refine ⟨?_, fun hp => hpend ▸ hp⟩
    rw [hctl']
    cases hp : I.pending with
    | false => exact Judged.congr hd (foundFree_append fun hp' => absurd hp' (by simp [hp])) hj
    | true =>
      have hnd : ¬ Disturbed own res (tr ++ [(I, e)]) := fun hd' =>
        judged_of_pending hp hj (hd.mp hd')
      rw [hctl] at hj ⊢
      rw [pending, hctl] at hp
      cases pc with
      | starting rest =>
        cases rest with
        | nil => exact hnd
        | cons r rest => exact hj.elim
      | checking rest =>
        cases rest with
        | nil => exact absurd hp (by simp [Pc.pending])
        | cons r rest => exact hnd
      | listening | announcing rest | colliding => exact hnd
      | _ => exact absurd hp (by simp [Pc.pending])
  · -- one of the two waits is disturbed
    rw [hctl] at hw
    cases pc with
    | listening =>
      have hctl' : I'.ctl = .adquire scope retry .backoff := by rw [← Option.some.inj hw]
      rw [pending, hctl']
      exact ⟨.inl (hdist.mpr (.inr ⟨hwaits.mpr (.inl rfl), hwakes⟩)), by simp [Pc.pending]⟩
    | colliding =>
      have hctl' : I'.ctl = .adquire scope retry (.resetting (I'.lock.targets scope)) := by
        rw [← Option.some.inj hw]
      rw [pending, hctl']
      exact ⟨.inl (hdist.mpr (.inr ⟨hwaits.mpr (.inr rfl), hwakes⟩)), by simp [Pc.pending]⟩
    | waitForReady r rest | backingOff => exact absurd hpc (by simp [Pc.inPass])
    | _ => exact absurd hw (by simp [onWake])
  · -- a wait has come to its end
    have hd : Disturbed own res (tr ++ [(I, .timeout)]) ↔ Disturbed own res tr := by
      rw [hdist, or_iff_left fun hd => hd.2]
    rw [onTimeout, hctl] at ht
    rw [hctl] at hj
    cases pc with
    | listening =>
      obtain rfl := Option.some.inj ht
      exact ⟨fun hd' => hj (hd.mp hd'), fun _ => by rw [pending, hctl]; rfl⟩
    | colliding =>
      have hscope : scope = some res := by
        have hacq := h.acquiring
        rw [Acquiring, hctl] at hacq
        exact hacq.1
      subst hscope
      obtain rfl := Option.some.inj ht
      exact ⟨fun hd' => hj (hd.mp hd'), fun _ => by rw [pending, hctl]; rfl⟩
    | backingOff => exact absurd hpc (by simp [Pc.inPass])
    | _ => exact absurd ht (by simp)

/-- **One step of a pass.** -/
lemma trial_step {s s' : Inst × List (Inst × Event)} (h : Trial own res R s)
    (he : e.isCall = false) (hin : s.1.inPass = true) (hst : passStep s e = some s') :
    Trial own res R s' := by
  obtain ⟨I, tr⟩ := s
  obtain ⟨I', hI', rfl⟩ := Option.map_eq_some_iff.mp hst
  obtain ⟨sent, hs⟩ := proceed_eq hI'
  have hf := frame_step he hs
  have hkeep := judged_step h he hin hs
  obtain ⟨R', hR', hcount, hown, hlaw⟩ := h.table
  refine ⟨hf.id_eq.trans h.id, hf.names_eq.trans h.names, acquiring_step he h.acquiring hs,
    ⟨I.change e res R', by rw [hf.resource, hR']; rfl, change_count.trans hcount, ?_,
      fun hp => ?_⟩, hkeep.1⟩
  · rw [← h.id] at hown ⊢
    exact change_own hown
  · have hp₀ := hkeep.2 hp
    exact law_step h.id hR' (hears_of_pending h.acquiring h.judged hp₀ hR' hcount) hp₀ (hlaw hp₀)

/-- No table has an entry for the instance itself. -/
def Unowned (I : Inst) : Prop :=
  ∀ r R, I.lock.getResource r = some R → R.members.find? I.lock.id = none

lemma unowned_step (h : I.Unowned) (hs : I.step e = some (I', sent)) : I'.Unowned := by
  intro r R hR
  rw [step_id hs]
  rcases step_call_or hs with ⟨c, rfl, -, rfl, -⟩ | he
  · rw [getResource_enter] at hR
    split_ifs at hR
    · obtain rfl := Option.some.inj hR
      have hmembers : ∀ K : Resource, (recount c K).members = K.members := by
        intro K
        cases c with
        | defineResource r n => simp only [recount]; split_ifs <;> rfl
        | _ => rfl
      rw [hmembers]
      cases hR₀ : I.lock.getResource r with
      | none => rfl
      | some R₀ => exact h r R₀ hR₀
    · exact h r R hR
  · rw [(frame_step he hs).resource] at hR
    obtain ⟨R₀, hR₀, rfl⟩ := Option.map_eq_some_iff.mp hR
    exact change_own (h r R₀ hR₀)

/-- The beginning of a pass. -/
lemma trial_start {I₁ : Inst} (hc : I.Coherent) (hu : I.Unowned) (hnames : I.lock.names = [res])
    (hR : I.lock.getResource res = some R)
    (hctl : I.ctl = .adquire (some res) retry (.starting [res])) (hset : I.proceed .run = some I₁) :
    Trial I.lock.id res R (I₁, []) := by
  have hacq := hc _ _ _ hctl
  obtain ⟨sent, hs⟩ := proceed_eq hset
  have hf := frame_step rfl hs
  have hn : I.next = some (res, .setState .starting) := by rw [next, hctl]
  have hctl₁ : I₁.ctl = .adquire (some res) retry (.starting []) := by
    simp only [step, run, hctl] at hs
    obtain ⟨rfl, -⟩ := Prod.mk.inj (Option.some.inj hs)
    rfl
  refine ⟨hf.id_eq, hf.names_eq.trans hnames, acquiring_step rfl hacq hs,
    ⟨I.change .run res R, by rw [hf.resource, hR]; rfl, change_count, change_own (hu res R hR),
      fun _ i => ?_⟩, ?_⟩
  · rw [change_run hn]
    rfl
  · show Judged I.lock.id res R [] I₁.ctl
    rw [hctl₁]
    rintro (⟨J, pkt, hmem, -⟩ | ⟨J, hmem, -⟩) <;> exact List.not_mem_nil hmem

/-- A pass ends with the resource acquired if and only if it has not been disturbed and the
resource is found free. -/
lemma acquired_iff (h : Trial own res R (I, tr)) (hend : I.inPass = false) :
    I.ctl = .free (some true) ↔ ¬ Disturbed own res tr ∧ FoundFree own res R tr := by
  have hj := h.judged
  cases hctl : I.ctl with
  | free b =>
    rw [hctl] at hj
    match b with
    | some true => exact iff_of_true rfl hj
    | some false | none => exact hj.elim
  | adquire scope retry pc =>
    rw [hctl] at hj
    cases pc with
    | backoff =>
      refine iff_of_false (by simp) fun hd => ?_
      exact hj.elim hd.1 fun hf => hf hd.2
    | start rest | waitForReady r rest | loop | backingOff => exact hj.elim
    | _ => exact absurd hend (by simp [inPass, hctl, Pc.inPass])
  | _ =>
    rw [hctl] at hj
    exact hj.elim

/-- **When an attempt is decided by what is heard in it.**  Let `res` be the only resource of an
instance with any history, and let a pass of `adquire_lock(res)` begin with its `setState` and
end, after any events.  The pass ends with the resource acquired exactly when no other instance
is heard to acquire in its two waits and fewer holders are heard in it than there are places, if
and only if in this case no wait ends spuriously and the holders that were in the table when the
pass began and have not been heard in it leave a place as well. -/
theorem acquire_decided_iff {id : UInt32} {beaconTime : UInt64} {es₀ es : List Event}
    {I₀ I₁ : Inst}
    (h₀ : Lib.Run proceed (fun _ _ => True) ⟨Lock.new id beaconTime, .free none⟩ es₀ I₀)
    (hnames : I₀.lock.names = [res]) (hR : I₀.lock.getResource res = some R)
    (hctl : I₀.ctl = .adquire (some res) retry (.starting [res]))
    (hset : I₀.proceed .run = some I₁)
    (hrun : Lib.Run passStep (fun s e => e.isCall = false ∧ s.1.inPass = true) (I₁, []) es (I, tr))
    (hend : I.inPass = false) :
    (I.ctl = .free (some true) ↔
      ¬ Collided id res tr ∧ (heardHolders id res R.count tr).ncard < R.count.toNat) ↔
    (¬ Collided id res tr ∧ (heardHolders id res R.count tr).ncard < R.count.toNat →
      ¬ WokenUp tr ∧
        (heardHolders id res R.count tr ∪ staleHolders id res R.count tr R).ncard <
          R.count.toNat) := by
  have hI₀ : I₀.Coherent ∧ I₀.Unowned ∧ I₀.lock.id = id := by
    refine h₀.invariant (I := fun I => I.Coherent ∧ I.Unowned ∧ I.lock.id = id) ?_
      ⟨fun _ _ _ h => absurd h (by simp), fun r R h => absurd h (by simp), rfl⟩
    rintro I e I' ⟨hc, hu, hid⟩ - hst
    obtain ⟨sent, hs⟩ := proceed_eq hst
    exact ⟨coherent_step hc hs, unowned_step hu hs, (step_id hs).trans hid⟩
  obtain ⟨hc, hu, rfl⟩ := hI₀
  have htrial : Trial I₀.lock.id res R (I, tr) := by
    refine hrun.invariant (I := Trial I₀.lock.id res R) ?_ (trial_start hc hu hnames hR hctl hset)
    exact fun s e s' h hok hst => trial_step h hok.1 hok.2 hst
  have hfinite : Finite UInt32 :=
    Finite.of_injective UInt32.toFin fun _ _ h => UInt32.toFin_inj.mp h
  have hmono : (heardHolders I₀.lock.id res R.count tr).ncard ≤
      (heardHolders I₀.lock.id res R.count tr ∪ staleHolders I₀.lock.id res R.count tr R).ncard :=
    Set.ncard_le_ncard Set.subset_union_left (Set.toFinite _)
  rw [acquired_iff htrial hend, Disturbed, FoundFree]
  constructor
  · intro h hd
    obtain ⟨hdist, hfree⟩ := h.mpr hd
    exact ⟨fun hw => hdist (.inr hw), hfree⟩
  · intro h
    constructor
    · exact fun hd => ⟨fun hcol => hd.1 (.inl hcol), hmono.trans_lt hd.2⟩
    · intro hd
      obtain ⟨hw, hfree⟩ := h hd
      exact ⟨fun hdist => hdist.elim hd.1 hw, hfree⟩

/-- A packet about the resource `a`, which has one place. -/
def peerPacket (id : UInt32) (s : State) : DLPacket :=
  ((DLPacket.new s.toByte id).setResource [97]).setCount 1

/-- A first attempt in which a holder is heard of, and then a collision; the instance tries
again. -/
def interrupted : List Event :=
  [.call (.acquire [97]), .run, .run, .run, .deliver (peerPacket 2 .acquired),
    .deliver (peerPacket 3 .acquiring), .run, .timeout, .run]

/-- What is left of the next attempt after its first `setState`: the holder is heard to release. -/
def releasedMeanwhile : List Event :=
  [.run, .deliver (peerPacket 3 .starting), .deliver (peerPacket 2 .released), .timeout, .run,
    .run, .timeout, .run, .run, .run]

/-- The holder of the first attempt is in the table when the second one begins, and is heard to
release in it; so the second one succeeds. -/
theorem decided_released :
    ∃ I₀ I₁ I tr,
      Lib.Run proceed (fun _ _ => True) fresh interrupted I₀ ∧
      I₀.proceed .run = some I₁ ∧
      Lib.Run passStep (fun s e => e.isCall = false ∧ s.1.inPass = true) (I₁, [])
        releasedMeanwhile (I, tr) ∧
      I.ctl = .free (some true) ∧
      (I.ctl = .free (some true) ↔
        ¬ Collided 1 [97] tr ∧ (heardHolders 1 [97] 1 tr).ncard < 1) := by
  have hexec : (Lib.exec proceed (fun _ _ => True) fresh interrupted).bind (fun I₀ =>
      (I₀.proceed .run).bind fun I₁ =>
        (Lib.exec passStep (fun s e => e.isCall = false ∧ s.1.inPass = true) (I₁, [])
          releasedMeanwhile).bind fun s =>
            if I₀.lock.names = [[97]] ∧ I₀.ctl = .adquire (some [97]) 0 (.starting [[97]]) ∧
                s.1.ctl = .free (some true) ∧ ∀ x ∈ s.2, x.2 ≠ .wake then
              (I₀.lock.getResource [97]).map fun R => (R.count,
                (R.members.entries.filter fun e => e.2.state = .acquired).map Sigma.fst,
                heardInPass 1 [97] 1 s.2)
            else none) =
      some (1, [2], [peerPacket 3 .starting, peerPacket 2 .released]) := by
    decide +kernel
  obtain ⟨I₀, h₀, hexec⟩ := Option.bind_eq_some_iff.mp hexec
  obtain ⟨I₁, hset, hexec⟩ := Option.bind_eq_some_iff.mp hexec
  obtain ⟨⟨I, tr⟩, hrun, hexec⟩ := Option.bind_eq_some_iff.mp hexec
  split_ifs at hexec with hif
  obtain ⟨hnames, hctl, hacq, hwake⟩ := hif
  obtain ⟨R, hR, heq⟩ := Option.map_eq_some_iff.mp hexec
  obtain ⟨hcount, heq⟩ := Prod.mk.inj heq
  obtain ⟨hstale, hheard⟩ := Prod.mk.inj heq
  refine ⟨I₀, I₁, I, tr, .of_exec h₀, hset, .of_exec hrun, hacq, ?_⟩
  have hiff := acquire_decided_iff (.of_exec h₀) hnames hR hctl hset (.of_exec hrun)
    (by rw [Inst.inPass, hacq])
  rw [hcount] at hiff
  refine hiff.mpr fun _ => ⟨?_, ?_⟩
  · rintro ⟨J, hmem, -⟩
    exact hwake _ hmem rfl
  · have hnone : heardHolders 1 [97] 1 tr ∪ staleHolders 1 [97] 1 tr R = ∅ := by
      refine Set.eq_empty_of_forall_notMem ?_
      rintro i (⟨pkt, hpkt, hst⟩ | ⟨hlast, hst⟩)
      · -- nobody is heard to hold the resource
        rw [hheard, lastFrom] at hpkt
        have hmem := (List.mem_filter.mp (List.mem_of_getLast? hpkt)).1
        rcases List.mem_pair.mp hmem with rfl | rfl <;> exact absurd hst (by decide)
      · -- the only holder in the table has been heard since
        obtain ⟨mb, hmb, hs⟩ := Option.map_eq_some_iff.mp hst
        have hmem : i ∈ [2] := by
          rw [← hstale]
          exact List.mem_map.mpr ⟨⟨i, mb⟩, List.mem_filter.mpr
            ⟨Lib.OrdMap.mem_entries_iff.mpr hmb, by simpa using hs⟩, rfl⟩
        obtain rfl := List.mem_singleton.mp hmem
        rw [hheard] at hlast
        exact absurd hlast (by decide)
    rw [hnone, Set.ncard_empty]
    exact Nat.one_pos

/-- A holder is heard of in an attempt whose listening is interrupted, and has vanished in the
next one: nothing is heard in the whole pass, and it fails. -/
theorem decided_by_stale :
    ∃ I₀ I₁ I tr,
      Lib.Run proceed (fun _ _ => True) fresh
        [.call (.acquire [97]), .run, .run, .run, .deliver (peerPacket 2 .acquired),
          .deliver (peerPacket 3 .acquiring), .run, .timeout, .run] I₀ ∧
      I₀.lock.names = [[97]] ∧ I₀.ctl = .adquire (some [97]) 0 (.starting [[97]]) ∧
      I₀.proceed .run = some I₁ ∧
      Lib.Run passStep (fun s e => e.isCall = false ∧ s.1.inPass = true) (I₁, [])
        [.run, .timeout, .run, .run, .timeout, .run, .run, .run] (I, tr) ∧
      I.ctl = .adquire (some [97]) 1 .backoff ∧ ¬ Collided 1 [97] tr ∧
      heardHolders 1 [97] 1 tr = ∅ := by
  refine ⟨_, _, _, _, Lib.Run.of_exec rfl, rfl, rfl, rfl, Lib.Run.of_exec rfl, rfl, ?_, ?_⟩
  · rintro ⟨J, pkt, hmem, -⟩
    simp at hmem
  · exact heardHolders_of_nil rfl

end Inst
end DistLock
