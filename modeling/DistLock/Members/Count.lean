/-
The count of a resource and the counts of its members.

`defineResource` sets the count only if it is greater than one, so a resource that has been
defined with a greater count keeps it when it is defined as exclusive again
(`count_eq_latest_iff`).  `updateMember` admits a member only if its count is that of the
resource, but the table outlives a query, which admits all, and the count may change while the
table stays (`uniform_iff`).
-/
import DistLock.Acquire.Ownership
import DistLock.Members.Log

namespace DistLock

/-! ### The latest definition -/

/-- The count with which the event defines the resource, if it does. -/
def Event.defines (res : Name) : Event → Option UInt32
  | call (.defineResource r c) => if r = res then some c else none
  | _ => none

/-- The count of a resource, which is 1 unless it has been defined otherwise. -/
def Lock.countOf (L : Lock) (res : Name) : UInt32 :=
  ((L.getResource res).getD (Resource.new res)).count

/-- What `defineResource` makes of a count. -/
def redefine (n c : UInt32) : UInt32 := if 1 < c then c else n

namespace Inst

variable {I I' : Inst} {e : Event} {sent log : List DLPacket} {res r : Name} {c : UInt32}

lemma countOf_enter (L : Lock) (call : Call) :
    (enter L call).lock.countOf res =
      ((Event.call call).defines res).elim (L.countOf res) (redefine (L.countOf res)) := by
  rw [Lock.countOf, getResource_enter]
  cases call with
  | defineResource r c =>
    by_cases hr : r = res
    · subst hr
      rw [creates, if_pos rfl, Event.defines, if_pos rfl]
      simp only [Option.getD_some, Option.elim_some, recount, redefine]
      split_ifs <;> rfl
    · rw [creates, if_neg fun h => hr (Option.some.inj h), Event.defines, if_neg hr]
      rfl
  | _ => split_ifs <;> rfl

lemma countOf_step (hs : I.step e = some (I', sent)) :
    I'.lock.countOf res = (e.defines res).elim (I.lock.countOf res)
      (redefine (I.lock.countOf res)) := by
  rcases step_call_or hs with ⟨call, rfl, -, rfl, -⟩ | he
  · exact countOf_enter I.lock call
  · have hnone : e.defines res = none := by
      cases e with
      | call c => exact absurd he (by simp [Event.isCall])
      | _ => rfl
    rw [hnone, Lock.countOf, (frame_step he hs).resource, Lock.countOf, Option.elim_none]
    cases I.lock.getResource res with
    | none => rfl
    | some R => exact change_count

/-- The count is that of the last definition with a count greater than one. -/
lemma countOf_run {s s' : Inst × List DLPacket} {es : List Event}
    (hrun : Lib.Run trace (fun _ _ => True) s es s') :
    s'.1.lock.countOf res =
      (es.filterMap (Event.defines res)).foldl redefine (s.1.lock.countOf res) := by
  induction hrun with
  | nil => rfl
  | @cons s s₁ s' e es _ hst _ ih =>
    obtain ⟨⟨I₁, sent⟩, hs, rfl⟩ := Option.map_eq_some_iff.mp hst
    rw [ih, countOf_step hs]
    cases hd : e.defines res with
    | none => rw [List.filterMap_cons_none hd, Option.elim_none]
    | some c => rw [List.filterMap_cons_some hd, Option.elim_some, List.foldl_cons]

/-- Counts up to one leave it as it is. -/
lemma foldl_redefine_eq_one_iff {cs : List UInt32} :
    cs.foldl redefine 1 = 1 ↔ ∀ c ∈ cs, c ≤ 1 := by
  induction cs using List.reverseRecOn with
  | nil => simp
  | append_singleton cs c ih =>
    rw [List.foldl_append, List.foldl_cons, List.foldl_nil, redefine]
    split_ifs with hc
    · refine iff_of_false (fun h => ?_) fun h => ?_
      · exact absurd hc (h ▸ lt_irrefl _)
      · exact absurd (h c (by simp)) (not_le.mpr hc)
    · rw [ih]
      constructor
      · intro h c' hc'
        rcases List.mem_append.mp hc' with hc' | hc'
        · exact h c' hc'
        · exact List.mem_singleton.mp hc' ▸ not_lt.mp hc
      · exact fun h c' hc' => h c' (List.mem_append_left _ hc')

/-- What is announced of a resource carries its count. -/
lemma count_of_sent (hn : I.lock.Named) (hs : I.step e = some (I', sent)) {p : DLPacket}
    (hp : p ∈ sent) : p.count = I.lock.countOf p.resource := by
  obtain ⟨r, R, hR, rfl, -⟩ := mem_sent hs hp
  have hname : R.name = r := named_step hn hs r R hR
  rcases step_call_or hs with ⟨call, rfl, -, -, rfl⟩ | he
  · exact absurd hp List.not_mem_nil
  · rw [(frame_step he hs).resource] at hR
    obtain ⟨R₀, hR₀, rfl⟩ := Option.map_eq_some_iff.mp hR
    rw [Resource.beacon_resource, hname, Lock.countOf, hR₀, Resource.beacon_count, change_count,
      Option.getD_some]

lemma mem_defines {es : List Event} :
    c ∈ es.filterMap (Event.defines res) ↔ Event.call (.defineResource res c) ∈ es := by
  rw [List.mem_filterMap]
  constructor
  · rintro ⟨e, he, hd⟩
    cases e with
    | call call =>
      cases call with
      | defineResource r c' =>
        rw [Event.defines] at hd
        split_ifs at hd with hr
        obtain rfl := Option.some.inj hd
        exact hr ▸ he
      | _ => exact absurd hd (by simp [Event.defines])
    | _ => exact absurd hd (by simp [Event.defines])
  · exact fun h => ⟨_, h, if_pos rfl⟩

/-- A resource that has been defined exists. -/
lemma mem_names_of_defines {s s' : Inst × List DLPacket} {es : List Event}
    (hrun : Lib.Run trace (fun _ _ => True) s (.call (.defineResource res c) :: es) s') :
    res ∈ s'.1.lock.names := by
  cases hrun with
  | cons _ hst hrun =>
    obtain ⟨⟨I₁, sent⟩, hs, rfl⟩ := Option.map_eq_some_iff.mp hst
    refine hrun.invariant (I := fun s => res ∈ s.1.lock.names) ?_ ?_
    · rintro s e s' h - hst
      obtain ⟨⟨I', sent⟩, hs, rfl⟩ := Option.map_eq_some_iff.mp hst
      exact mem_names_step h hs
    · obtain ⟨-, rfl, -⟩ := step_call hs
      rw [Lock.mem_names_iff, getResource_enter, creates, if_pos rfl]
      exact ⟨_, rfl⟩

/-- **Which definition wins.**  In any run of an instance let `c` be the count with which the
resource has been defined last.  The resource has this count, and whatever the instance sends
about it carries this count, if and only if `c` is greater than one or the resource has never
been defined with a count greater than one. -/
theorem count_eq_latest_iff {id : UInt32} {beaconTime : UInt64} {es₁ es₂ : List Event}
    (hc : 1 ≤ c) (hlast : ∀ c', Event.call (.defineResource res c') ∉ es₂)
    (hrun : Lib.Run trace (fun _ _ => True) (⟨Lock.new id beaconTime, .free none⟩, [])
      (es₁ ++ .call (.defineResource res c) :: es₂) (I, log)) :
    (∃ R, I.lock.getResource res = some R ∧ R.count = c ∧
      ∀ e I' sent, I.step e = some (I', sent) → ∀ p ∈ sent, p.resource = res → p.count = c) ↔
    1 < c ∨ ∀ c', Event.call (.defineResource res c') ∈ es₁ → c' ≤ 1 := by
  have hnamed : I.lock.Named := by
    refine hrun.invariant (I := fun s => s.1.lock.Named) ?_ (Lock.named_new id beaconTime)
    rintro s e s' hn - hst
    obtain ⟨⟨I', sent⟩, hs, rfl⟩ := Option.map_eq_some_iff.mp hst
    exact named_step hn hs
  have hcount : I.lock.countOf res =
      redefine ((es₁.filterMap (Event.defines res)).foldl redefine 1) c := by
    have hnone : es₂.filterMap (Event.defines res) = [] :=
      List.eq_nil_iff_forall_not_mem.mpr fun c' h => hlast c' (mem_defines.mp h)
    have hnew : (Lock.new id beaconTime).countOf res = 1 := by
      rw [Lock.countOf, Lock.getResource_new]
      rfl
    have hdef : (Event.call (.defineResource res c)).defines res = some c := if_pos rfl
    rw [countOf_run hrun, List.filterMap_append, List.filterMap_cons_some hdef, hnone,
      List.foldl_append, List.foldl_cons, List.foldl_nil, hnew]
  obtain ⟨R, hR⟩ : ∃ R, I.lock.getResource res = some R := by
    obtain ⟨s₁, -, h₂⟩ := hrun.append_inv
    exact Lock.mem_names_iff.mp (mem_names_of_defines h₂)
  have hRcount : R.count = I.lock.countOf res := by rw [Lock.countOf, hR, Option.getD_some]
  calc (∃ R, I.lock.getResource res = some R ∧ R.count = c ∧ _)
      ↔ I.lock.countOf res = c := by
        constructor
        · rintro ⟨R', hR', rfl, -⟩
          obtain rfl := Option.some.inj (hR.symm.trans hR')
          exact hRcount.symm
        · intro h
          refine ⟨R, hR, hRcount.trans h, fun e I' sent hs p hp hres => ?_⟩
          rw [count_of_sent hnamed hs hp, hres, h]
    _ ↔ 1 < c ∨ ∀ c', Event.call (.defineResource res c') ∈ es₁ → c' ≤ 1 := by
        rw [hcount, redefine]
        by_cases hgt : 1 < c
        · simp [hgt]
        · obtain rfl : c = 1 := le_antisymm (not_lt.mp hgt) hc
          rw [if_neg hgt, foldl_redefine_eq_one_iff]
          simp only [mem_defines, hgt, false_or]

/-- A resource is defined as exclusive after it has been defined with two places. -/
def redefined : List Event :=
  [.call (.defineResource [97] 2), .call (.defineResource [97] 1)]

/-- The last definition has a count greater than one. -/
theorem count_eq_latest_greater :
    ∃ I log R, Lib.Run trace (fun _ _ => True) (fresh, [])
      (redefined ++ .call (.defineResource [97] 3) :: undisturbed [97]) (I, log) ∧
      I.lock.getResource [97] = some R ∧ R.count = 3 := by
  have hrun : Lib.Run trace (fun _ _ => True) (fresh, [])
      (redefined ++ .call (.defineResource [97] 3) :: undisturbed [97]) _ := Lib.Run.of_exec rfl
  have hlast : ∀ c', Event.call (.defineResource [97] c') ∉ undisturbed [97] := by
    simp [undisturbed]
  obtain ⟨R, hR, hcount, -⟩ := (count_eq_latest_iff (by decide) hlast hrun).mpr (.inl (by decide))
  exact ⟨_, _, R, hrun, hR, hcount⟩

/-- The later definition is ignored: the resource is announced with two places, and it is
acquired although another instance holds it. -/
theorem count_stale :
    ∃ I log R, Lib.Run trace (fun _ _ => True) (fresh, [])
      (redefined ++ [.call (.acquire [97]), .run, .run,
        .deliver (((DLPacket.new State.acquired.toByte 2).setResource [97]).setCount 2),
        .run, .timeout, .run, .run, .timeout, .run, .run, .run]) (I, log) ∧
      I.ctl = .free (some true) ∧ I.lock.getResource [97] = some R ∧ R.count = 2 ∧
      ∀ p ∈ log, p.count = 2 :=
  ⟨_, _, _, Lib.Run.of_exec rfl, rfl, rfl, rfl, by decide⟩

end Inst

/-! ### The counts of the members -/

/-- All members of the table have the count of the resource. -/
def Resource.Uniform (R : Resource) : Prop :=
  ∀ id m, R.members.find? id = some m → m.count = R.count

instance (R : Resource) : Decidable R.Uniform :=
  decidable_of_iff (∀ e ∈ R.members.entries, e.2.count = R.count)
    ⟨fun h id m hm => h ⟨id, m⟩ (Lib.OrdMap.mem_entries_iff.mpr hm),
      fun h e he => h e.1 e.2 (Lib.OrdMap.mem_entries_iff.mp he)⟩

/-- While a resource is claimed, its members have its count. -/
def Lock.Uniform (L : Lock) : Prop :=
  ∀ r R, L.getResource r = some R → R.state.Claimed → R.Uniform

namespace Inst

variable {I I' : Inst} {e : Event} {sent log : List DLPacket} {res r : Name} {R : Resource}
  {s : State}

/-- The step does not start a resource with a table of mixed counts, and it does not change the
count of a claimed resource that has members. -/
structure Steady (I : Inst) (e : Event) : Prop where
  starts : e = .run → ∀ r R, I.next = some (r, .setState .starting) →
    I.lock.getResource r = some R → R.Uniform
  defines : ∀ r c R, e = .call (.defineResource r c) → 1 < c → I.lock.getResource r = some R →
    R.state.Claimed → c = R.count ∨ R.members = .empty

instance (I : Inst) : (e : Event) → Decidable (I.Steady e)
  | .run =>
    decidable_of_iff (∀ x ∈ I.next, x.2 = .setState .starting →
        ∀ R ∈ I.lock.getResource x.1, R.Uniform)
      ⟨fun h => ⟨fun _ r R hn hR => h (r, .setState .starting) hn rfl R hR,
          fun r c R hc => (by cases hc)⟩,
        fun h x hx hs R hR => h.starts rfl x.1 R (hs ▸ hx) hR⟩
  | .call (.defineResource r c) =>
    decidable_of_iff (1 < c → ∀ R ∈ I.lock.getResource r, R.state.Claimed →
        c = R.count ∨ R.members = .empty)
      ⟨fun h => ⟨fun hr => (by cases hr), fun r' c' R hc hlt hR hs => by
          cases hc
          exact h hlt R hR hs⟩,
        fun h hlt R hR hs => h.defines r c R rfl hlt hR hs⟩
  | .call (.acquire _) | .call (.release _) | .call .releaseAll | .call (.query _ _)
  | .call (.setAdquireMaxRetry _) | .timeout | .wake | .elapsed _ | .beacon _ | .deliver _ =>
    isTrue ⟨fun hr => (by cases hr), fun _ _ _ hc => (by cases hc)⟩

/-- What is claimed next has been claimed before, unless it is started. -/
lemma claimed_of_next (hc : I.Coherent) (hn : I.next = some (r, .setState s)) (hs : s.Claimed)
    (hR : I.lock.getResource r = some R) : s = .starting ∨ R.state.Claimed := by
  -- what the position says about the resource, read off its state
  have hhas : ∀ {s'}, I.lock.Has s' r → s'.Claimed → R.state.Claimed := by
    intro s' h hs'
    rw [Lock.Has, Lock.stateOf, hR, Option.map_some] at h
    rwa [Option.some.inj h]
  cases hctl : I.ctl with
  | adquire scope retry pc =>
    have hacq := hc scope retry pc hctl
    rw [Acquiring, hctl] at hacq
    obtain ⟨-, -, hcoh⟩ := hacq
    cases pc with
    | start rest | starting rest =>
      cases rest with
      | nil => exact absurd hn (by simp [next, hctl])
      | cons r' rest =>
        simp only [next, hctl, Option.some.injEq, Prod.mk.injEq, Action.setState.injEq] at hn
        exact .inl hn.2.symm
    | announcing rest =>
      cases rest with
      | nil => exact absurd hn (by simp [next, hctl])
      | cons r' rest =>
        simp only [next, hctl, Option.some.injEq, Prod.mk.injEq] at hn
        obtain ⟨done, -, -, hrest⟩ := hcoh
        exact .inr (hhas (hrest r (hn.1 ▸ List.mem_cons_self)) (.inl rfl))
    | marking r' rest =>
      simp only [next, hctl, Option.some.injEq, Prod.mk.injEq] at hn
      obtain ⟨done, -, -, hrest⟩ := hcoh
      exact .inr (hhas (hrest r (hn.1 ▸ List.mem_cons_self)) (.inr (.inl rfl)))
    | resetting rest =>
      cases rest <;> exact absurd hn (by simp [next, hctl])
    | _ => exact absurd hn (by simp [next, hctl])
  | query q r' pc =>
    cases pc with
    | start =>
      simp only [next, hctl, Option.some.injEq, Prod.mk.injEq, Action.setState.injEq] at hn
      obtain ⟨-, rfl⟩ := hn
      exact absurd hs (by simp [State.Claimed])
    | _ => exact absurd hn (by simp [next, hctl])
  | releasing rest =>
    cases rest with
    | nil => exact absurd hn (by simp [next, hctl])
    | cons r' rest =>
      simp only [next, hctl, Option.some.injEq, Prod.mk.injEq, Action.setState.injEq] at hn
      obtain ⟨-, rfl⟩ := hn
      exact absurd hs (by simp [State.Claimed])
  | _ => exact absurd hn (by simp [next, hctl])

/-- A claimed resource admits only members with its count. -/
lemma uniform_heardBy {pkt : DLPacket} (hs : R.state.Claimed) (h : R.Uniform) :
    (I.heardBy pkt res R).Uniform := by
  intro id m hm
  rw [find?_heardBy] at hm
  rw [heardBy_count]
  split_ifs at hm with hrec
  · obtain rfl := Option.some.inj hm
    rcases hrec.2.2.2.2 with hcount | hq
    · exact hcount
    · rw [hq] at hs
      exact absurd hs (by simp [State.Claimed])
  · exact h id m hm

/-- The call of a function. -/
lemma uniform_enter {c : Call} (h : I.lock.Uniform) :
    (enter I.lock c).lock.Uniform ↔ I.Steady (.call c) := by
  constructor
  · intro h'
    refine ⟨by simp, ?_⟩
    rintro r n R ⟨⟩ hn hR hs
    rw [or_iff_not_imp_right]
    intro hne
    obtain ⟨id, m, hm⟩ : ∃ id m, R.members.find? id = some m := by
      by_contra hnone
      push Not at hnone
      exact hne (Lib.OrdMap.ext_find? fun id => Option.eq_none_iff_forall_ne_some.mpr (hnone id))
    -- the entry keeps the count that it has got under the old definition
    have hR' : (enter I.lock (.defineResource r n)).lock.getResource r = some (R.setCount n) := by
      rw [getResource_enter, creates, if_pos rfl, hR, recount, Option.getD_some, if_pos hn]
    calc n = m.count := (h' r _ hR' hs id m hm).symm
      _ = R.count := h r R hR hs id m hm
  · intro hsteady r R' hR' hs
    rw [getResource_enter] at hR'
    split_ifs at hR' with hcr
    · obtain rfl := Option.some.inj hR'
      rw [recount_state] at hs
      cases hR : I.lock.getResource r with
      | none =>
        rw [hR] at hs
        exact absurd hs (by simp [Resource.new, State.Claimed])
      | some R =>
        rw [hR] at hs
        have hkeep : R.Uniform := h r R hR hs
        cases c with
        | defineResource r' n =>
          obtain rfl := Option.some.inj hcr
          rw [recount, Option.getD_some]
          split_ifs with hn
          · rcases hsteady.defines r' n R rfl hn hR hs with rfl | hempty
            · exact hkeep
            · intro id m hm
              change R.members.find? id = some m at hm
              exact absurd hm (by simp [hempty])
          · exact hkeep
        | _ => exact hkeep
    · exact h r R' hR' hs

lemma uniform_step (hc : I.Coherent) (h : I.lock.Uniform) (hst : I.step e = some (I', sent)) :
    I'.lock.Uniform ↔ I.Steady e := by
  rcases step_call_or hst with ⟨c, rfl, -, rfl, -⟩ | he
  · exact uniform_enter h
  have hf := frame_step he hst
  constructor
  · intro h'
    refine ⟨?_, fun r c R he' => absurd he (by simp [he', Event.isCall])⟩
    rintro rfl r R hn hR
    have hR' : I'.lock.getResource r = some { R with state := .starting } := by
      rw [hf.resource, hR, Option.map_some, change_run hn]
      rfl
    exact fun id m hm => h' r _ hR' (.inl rfl) id m hm
  · intro hsteady r R' hR' hs
    rw [hf.resource] at hR'
    obtain ⟨R, hR, rfl⟩ := Option.map_eq_some_iff.mp hR'
    cases e with
    | call c => exact absurd he (by simp [Event.isCall])
    | deliver pkt =>
      have hs' : R.state.Claimed := by rwa [change, heardBy_state] at hs
      exact uniform_heardBy hs' (h r R hR hs')
    | run =>
      rcases I.change_run_cases r R with hch | ⟨a, hn, hch⟩ <;> rw [hch] at hs ⊢
      · exact h r R hR hs
      · cases a with
        | setState s =>
          rcases claimed_of_next hc hn hs hR with rfl | hs'
          · exact hsteady.starts rfl r R hn hR
          · exact h r R hR hs'
        | reset => exact absurd hs (by simp [Action.apply, State.Claimed])
        | stop => exact h r R hR hs
    | _ => exact h r R hR hs

/-- **When only members of the same semaphore are counted.**  In any run of an instance, the
members of a claimed resource have its count in every state that is reached if and only if no
step starts a resource whose table has members of another count, and none changes the count of
a claimed resource that has members. -/
theorem uniform_iff {id : UInt32} {beaconTime : UInt64} {es : List Event}
    (hrun : Lib.Run trace (fun _ _ => True) (⟨Lock.new id beaconTime, .free none⟩, []) es
      (I, log)) :
    (∀ es₁ s, es₁ <+: es →
      Lib.Run trace (fun _ _ => True) (⟨Lock.new id beaconTime, .free none⟩, []) es₁ s →
      s.1.lock.Uniform) ↔
    Lib.Run trace (fun s e => True ∧ s.1.Steady e) (⟨Lock.new id beaconTime, .free none⟩, []) es
      (I, log) := by
  refine hrun.forall_prefix_iff (I := fun s => s.1.Coherent) (P := fun s => s.1.lock.Uniform)
    (C := fun s e => s.1.Steady e) ?_ ?_ ?_ ?_
  · rintro s e s' hc - hst
    obtain ⟨⟨I', sent⟩, hs, rfl⟩ := Option.map_eq_some_iff.mp hst
    exact coherent_step hc hs
  · rintro s e s' hc h - hst
    obtain ⟨⟨I', sent⟩, hs, rfl⟩ := Option.map_eq_some_iff.mp hst
    exact uniform_step hc h hs
  · exact fun _ _ _ hctl => absurd hctl (by simp)
  · exact fun r R hR => absurd hR (by simp)

/-- A packet about the resource `a` with two places. -/
def twoPlaces (s : State) : DLPacket :=
  ((DLPacket.new s.toByte 2).setResource [97]).setCount 2

/-- A holder is heard of in a query and again, as one of a semaphore with two places, when the
resource has been started. -/
def startedAgain : List Event :=
  [.call (.query .isBusy [97]), .run, .run, .deliver ((twoPlaces .acquired).setCount 1), .run,
    .timeout, .run, .call (.defineResource [98] 2), .call (.acquire [97]), .run, .run,
    .deliver (twoPlaces .released)]

/-- The entry of the query stays, and the other packet is not counted. -/
theorem uniform_again :
    ∃ I log R, Lib.Run trace (fun _ _ => True) (fresh, []) startedAgain (I, log) ∧
      I.lock.Has .starting [97] ∧ I.lock.getResource [97] = some R ∧
      R.members.find? 2 = some ⟨2, 1, .acquired⟩ ∧ I.lock.Uniform := by
  have hexec : (Lib.exec trace (fun s e => True ∧ s.1.Steady e) (fresh, []) startedAgain).bind
      (fun s => if s.1.lock.stateOf [97] = some .starting then
        (s.1.lock.getResource [97]).map fun R => R.members.find? 2 else none) =
      some (some ⟨2, 1, .acquired⟩) := by
    decide +kernel
  obtain ⟨⟨I, log⟩, hrun, hrest⟩ := Option.bind_eq_some_iff.mp hexec
  split_ifs at hrest with hst
  obtain ⟨R, hR, hmb⟩ := Option.map_eq_some_iff.mp hrest
  have hsteady := Lib.Run.of_exec hrun
  have hall : Lib.Run trace (fun _ _ => True) (fresh, []) startedAgain (I, log) :=
    hsteady.mono fun _ _ _ => trivial
  exact ⟨I, log, R, hall, hst, hR, hmb, (uniform_iff hall).mpr hsteady _ _ List.prefix_rfl hall⟩

/-- A holder of a place among two is heard of in a query, and then the resource is acquired as
exclusive: the resource counts as complete. -/
theorem uniform_mixed :
    ∃ I log R, Lib.Run trace (fun _ _ => True) (fresh, [])
      [.call (.query .isBusy [97]), .run, .run, .deliver (twoPlaces .acquired), .run, .timeout,
        .run, .call (.acquire [97]), .run, .run] (I, log) ∧
      I.lock.getResource [97] = some R ∧ R.state.Claimed ∧ R.count = 1 ∧
      R.members.find? 2 = some ⟨2, 2, .acquired⟩ ∧ R.isAcquirable = false :=
  ⟨_, _, _, Lib.Run.of_exec rfl, rfl, by decide, rfl, rfl, by decide⟩

end Inst
end DistLock
