/-
Mutual exclusion under any use of the public functions.

The instances of a group may define resources on the way, create them by acquiring or querying
them, query a resource that they hold, and acquire one resource while they hold others.  The
only restriction is on `r` itself: whoever creates `r` gives it the count `k`.
-/
import DistLock.System.Exclusion

namespace DistLock

open DLPacket (FitsWire)

/-- The call gives `r` the count `k` if it creates or counts it, it releases an existing
resource, and its name fits onto the wire. -/
def Call.Proper (r : Name) (k : UInt32) (L : Lock) : Call → Prop
  | defineResource res count =>
    FitsWire res ∧ (res = r → if count > 1 then count = k else r ∈ L.names ∨ k = 1)
  | acquire res => res = [] ∨ FitsWire res ∧ (res = r → r ∈ L.names ∨ k = 1)
  | query _ res => FitsWire res ∧ (res = r → r ∈ L.names ∨ k = 1)
  | release res => res ∈ L.names
  | releaseAll | setAdquireMaxRetry _ => True

instance (r : Name) (k : UInt32) (L : Lock) : DecidablePred (Call.Proper r k L)
  | .defineResource res count => inferInstanceAs
    (Decidable (FitsWire res ∧ (res = r → if count > 1 then count = k else r ∈ L.names ∨ k = 1)))
  | .acquire res =>
    inferInstanceAs (Decidable (res = [] ∨ FitsWire res ∧ (res = r → r ∈ L.names ∨ k = 1)))
  | .query _ res => inferInstanceAs (Decidable (FitsWire res ∧ (res = r → r ∈ L.names ∨ k = 1)))
  | .release res => inferInstanceAs (Decidable (res ∈ L.names))
  | .releaseAll | .setAdquireMaxRetry _ => isTrue trivial

/-- Everything that the instance could broadcast fits onto the wire. -/
def Lock.Fits (L : Lock) : Prop := ∀ n ∈ L.names, FitsWire n

instance (L : Lock) : Decidable L.Fits := inferInstanceAs (Decidable (∀ n ∈ L.names, FitsWire n))

namespace Inst

variable {I I' : Inst} {L : Lock} {c : Call} {e : Event} {sent : List DLPacket} {r n : Name}
  {k : UInt32}

/-! ### The entry of a function -/

@[simp] lemma recount_members {R : Resource} : (recount c R).members = R.members := by
  cases c with
  | defineResource res count => simp only [recount]; split_ifs <;> rfl
  | _ => rfl

lemma mem_names_enter : n ∈ (enter L c).lock.names ↔ creates c = some n ∨ n ∈ L.names := by
  rw [Lock.mem_names_iff, Lock.mem_names_iff, getResource_enter]
  split_ifs with hc
  · simp [hc]
  · simp [hc]

/-- A call creates a resource with a name that fits onto the wire. -/
lemma fits_of_creates (hp : c.Proper r k L) (hc : creates c = some n) : FitsWire n := by
  cases c with
  | defineResource res count =>
    obtain rfl := Option.some.inj hc
    exact hp.1
  | acquire res =>
    cases res with
    | nil => cases hc
    | cons b bs =>
      obtain rfl := Option.some.inj hc
      exact (hp.resolve_left (by simp)).1
  | query q res =>
    obtain rfl := Option.some.inj hc
    exact hp.1
  | _ => cases hc

lemma fits_enter (hL : L.Fits) (hp : c.Proper r k L) : (enter L c).lock.Fits := by
  intro n hn
  rcases mem_names_enter.mp hn with hc | hn
  · exact fits_of_creates hp hc
  · exact hL n hn

/-- The count of `r` after a proper call. -/
lemma count_enter (hL : ∀ R, L.getResource r = some R → R.count = k) (hp : c.Proper r k L)
    (hc : creates c = some r) :
    (recount c ((L.getResource r).getD (Resource.new r))).count = k := by
  -- the count of a resource that is not counted anew
  have hold : r ∈ L.names ∨ k = 1 → ((L.getResource r).getD (Resource.new r)).count = k := by
    intro h
    cases hR : L.getResource r with
    | some R => exact hL R hR
    | none =>
      have hr : r ∉ L.names := by
        rw [Lock.mem_names_iff, hR]
        simp
      exact (h.resolve_left hr).symm
  cases c with
  | defineResource res count =>
    obtain rfl := Option.some.inj hc
    have hcount := hp.2 rfl
    rw [recount]
    split_ifs at hcount ⊢
    · exact hcount
    · exact hold hcount
  | acquire res =>
    cases res with
    | nil => cases hc
    | cons b bs =>
      obtain rfl := Option.some.inj hc
      exact hold ((hp.resolve_left (by simp)).2 rfl)
  | query q res =>
    obtain rfl := Option.some.inj hc
    exact hold (hp.2 rfl)
  | _ => cases hc

/-- The function that is entered works on existing resources. -/
lemma busy_of_fits (hL : L.Fits) (hp : c.Proper r k L) : (enter L c).Busy FitsWire := by
  have hfit : ∀ {n}, n ∈ (enter L c).lock.names → FitsWire n ∧ n ∈ (enter L c).lock.names :=
    fun {n} hn => ⟨fits_enter hL hp n hn, hn⟩
  rw [Busy]
  cases c with
  | defineResource res count => trivial
  | acquire res =>
    cases res with
    | nil =>
      rw [enter] at hfit ⊢
      split_ifs
      · trivial
      · exact fun r hr => ⟨hL r hr, hr⟩
    | cons b bs =>
      intro n hn
      rw [List.mem_singleton.mp hn]
      exact hfit (mem_names_enter.mpr (.inl rfl))
  | release res =>
    intro n hn
    rw [List.mem_singleton.mp hn]
    exact ⟨hL res hp, hp⟩
  | releaseAll => exact fun r hr => ⟨hL r hr, hr⟩
  | query q res => exact hfit (mem_names_enter.mpr (.inl rfl))
  | setAdquireMaxRetry n => trivial

/-- **A proper call keeps the invariant of an instance.** -/
lemma sound_enter (h : I.Sound FitsWire r k) (hL : I.lock.Fits) (hp : c.Proper r k I.lock)
    (hs : I.step (.call c) = some (I', sent)) : I'.Sound FitsWire r k := by
  have hnamed := named_step h.named hs
  obtain ⟨-, rfl, -⟩ := step_call hs
  -- what is said about a resource holds of a new one, too
  have hres : ∀ {P : Resource → Prop} (n : Name), P (Resource.new n) →
      (∀ R, I.lock.getResource n = some R → P R) → P ((I.lock.getResource n).getD (.new n)) := by
    intro P n hnew hold
    cases hR : I.lock.getResource n with
    | none => exact hnew
    | some R => exact hold R hR
  constructor
  · exact hnamed
  · exact coherent_enter I.lock c
  · exact busy_of_fits hL hp
  · intro n R hR hn
    rw [getResource_enter] at hR
    split_ifs at hR
    · obtain rfl := Option.some.inj hR
      rw [recount_state]
      exact hres (P := fun R => R.state = .idle) n rfl fun R hR => h.idle n R hR hn
    · exact h.idle n R hR hn
  · intro R hR
    rw [getResource_enter] at hR
    split_ifs at hR with hc
    · obtain rfl := Option.some.inj hR
      exact count_enter h.count hp hc
    · exact h.count R hR
  · intro R hR
    rw [enter_id]
    rw [getResource_enter] at hR
    split_ifs at hR
    · obtain rfl := Option.some.inj hR
      rw [recount_members]
      exact hres (P := fun R => R.members.find? I.lock.id = none) r Lib.OrdMap.find?_empty h.own
    · exact h.own R hR

/-- Only the entry of a function creates a resource. -/
lemma fits_step (hL : I.lock.Fits) (hc : ∀ c, e = .call c → c.Proper r k I.lock)
    (hs : I.step e = some (I', sent)) : I'.lock.Fits := by
  rcases step_call_or hs with ⟨c, rfl, -, rfl, -⟩ | hcall
  · exact fits_enter hL (hc c rfl)
  · rw [Lock.Fits, (frame_step hcall hs).names_eq]
    exact hL

end Inst

namespace Sys

variable {ι : Type*} [DecidableEq ι]

/-- The calls of the group are proper. -/
def Proper (r : Name) (k : UInt32) (S : Sys ι) : Move ι → Prop
  | .act i (.call c) => c.Proper r k (S.inst i).lock
  | _ => True

instance (r : Name) (k : UInt32) (S : Sys ι) : (m : Move ι) → Decidable (S.Proper r k m)
  | .act i (.call c) => inferInstanceAs (Decidable (c.Proper r k (S.inst i).lock))
  | .act _ .run | .act _ .timeout | .act _ .wake | .act _ (.elapsed _) | .act _ (.beacon _)
  | .act _ (.deliver _) | .deliver _ _ => isTrue trivial

section

variable {r : Name} {k : UInt32} {S S' S₀ : Sys ι} {i j : ι} {e : Event} {I' : Inst} {c : Call}
  {sent : List DLPacket} {m : Move ι} {ms : List (Move ι)}

/-- A proper call keeps the invariant of the group: no window is open at the beginning of a
function. -/
lemma sound_call (hS : S.Sound FitsWire r k) (hL : (S.inst i).lock.Fits)
    (hp : c.Proper r k (S.inst i).lock) (hs : (S.inst i).step (.call c) = some (I', sent)) :
    (S.afterAct i I' sent).Sound FitsWire r k := by
  obtain ⟨-, hI', rfl⟩ := Inst.step_call hs
  refine sound_quiet hS (Inst.sound_enter (hS.inst i) hL hp hs) (Inst.step_id hs) ?_
  rw [hI']
  exact Inst.stage_enter (S.inst i).lock c

/-- A step of one instance with proper calls only. -/
lemma sound_proper (hS : S.Sound FitsWire r k) (hL : (S.inst i).lock.Fits)
    (hd : ∀ p, e ≠ .deliver p) (hp : ∀ c, e = .call c → c.Proper r k (S.inst i).lock)
    (hs : (S.inst i).step e = some (I', sent)) :
    (S.afterAct i I' sent).Sound FitsWire r k := by
  by_cases hcall : ∃ c, e = .call c
  · obtain ⟨c, rfl⟩ := hcall
    exact sound_call hS hL (hp c rfl) hs
  · exact sound_act (fun _ h => h) hS hd (fun c h => absurd ⟨c, h⟩ hcall) hs (List.Subset.refl _)

lemma fits_proper (hL : ∀ i, (S.inst i).lock.Fits)
    (hp : ∀ c, e = .call c → c.Proper r k (S.inst i).lock)
    (hs : (S.inst i).step e = some (I', sent)) (j : ι) :
    ((S.afterAct i I' sent).inst j).lock.Fits :=
  (Function.forall_update_iff S.inst fun _ I => I.lock.Fits).mpr
    ⟨Inst.fits_step (hL i) hp hs, fun j _ => hL j⟩ j

/-- The instance `l` takes a step of its own, or a packet is delivered to it, or it is left
alone. -/
lemma step_inst (hs : S.step m = some S') (l : ι) :
    (S'.inst l = S.inst l ∧ ∀ e, m ≠ .act l e) ∨
      ∃ e sent, (S.inst l).step e = some (S'.inst l, sent) ∧
        ((m = .act l e ∧ ∀ p, e ≠ .deliver p) ∨
          ∃ j d rest p, m = .deliver j l ∧ S.chan j l = d :: rest ∧
            DLPacket.ofPayload d.payload = some p ∧ e = .deliver p) := by
  cases m with
  | deliver j i =>
    obtain ⟨d, rest, hd, rfl⟩ := step_deliver_inv hs
    cases hp : DLPacket.ofPayload d.payload with
    | none =>
      rw [afterDeliver, hp]
      exact .inl ⟨rfl, fun _ h => by cases h⟩
    | some p =>
      rw [afterDeliver_eq hp]
      dsimp only
      rcases eq_or_ne l i with rfl | hl
      · rw [Function.update_self]
        exact .inr ⟨.deliver p, [], rfl, .inr ⟨j, d, rest, p, rfl, hd, hp, rfl⟩⟩
      · rw [Function.update_of_ne hl]
        exact .inl ⟨rfl, fun _ h => by cases h⟩
  | act j e =>
    obtain ⟨hd, I', sent, hI, rfl⟩ := step_act_inv hs
    rcases eq_or_ne l j with rfl | hl
    · rw [inst_afterAct_self]
      exact .inr ⟨e, sent, hI, .inl ⟨rfl, hd⟩⟩
    · rw [inst_afterAct_of_ne hl]
      refine .inl ⟨rfl, fun e' h => hl ?_⟩
      cases h
      rfl

/-- Every datagram was on its way before, or it has just been broadcast. -/
lemma mem_chan_step {d : Datagram} (hs : S.step m = some S') (hd : d ∈ S'.chan j i) :
    d ∈ S.chan j i ∨ ∃ e sent p, m = .act j e ∧ (S.inst j).step e = some (S'.inst j, sent) ∧
      p ∈ sent ∧ d.payload = p.build := by
  cases m with
  | deliver j' i' =>
    obtain ⟨d', rest, hd', rfl⟩ := step_deliver_inv hs
    have hchan : (S.afterDeliver j' i' d' rest).chan j i =
        if j = j' ∧ i = i' then rest else S.chan j i := by
      rw [afterDeliver]
      split <;> rfl
    rw [hchan] at hd
    split_ifs at hd with hji
    · rw [hji.1, hji.2, hd']
      exact .inl (List.mem_cons_of_mem d' hd)
    · exact .inl hd
  | act j' e =>
    obtain ⟨-, I', sent, hI, rfl⟩ := step_act_inv hs
    change d ∈ (if j = j' then S.chan j i ++ sent.map _ else S.chan j i) at hd
    split_ifs at hd with hj
    · subst hj
      rcases List.mem_append.mp hd with hold | hnew
      · exact .inl hold
      · obtain ⟨p, hp, rfl⟩ := List.mem_map.mp hnew
        exact .inr ⟨e, sent, p, rfl, by rw [inst_afterAct_self, hI], hp, rfl⟩
    · exact .inl hd

/-- **Every step with proper calls keeps the invariant**, whatever the timers do. -/
theorem sound_step_proper (hS : S.Sound FitsWire r k) (hL : ∀ i, (S.inst i).lock.Fits)
    (hc : S.Proper r k m) (hs : S.step m = some S') :
    S'.Sound FitsWire r k ∧ ∀ i, (S'.inst i).lock.Fits := by
  cases m with
  | deliver j i =>
    have hnames := names_step (A := FitsWire) hs (fun _ _ h => by cases h)
    refine ⟨?_, fun l n hn => hL l n ((hnames l n).mp hn)⟩
    obtain ⟨d, rest, hd, rfl⟩ := step_deliver_inv hs
    exact sound_deliver hS hd
  | act i e =>
    obtain ⟨hd, I', sent, hI, rfl⟩ := step_act_inv hs
    have hproper : ∀ c, e = .call c → c.Proper r k (S.inst i).lock := by
      rintro c rfl
      exact hc
    exact ⟨sound_proper hS (hL i) hd hproper hI, fits_proper hL hproper hI⟩

/-- The instance `i` acquires `a`, and nobody else does anything. -/
def acquires (i : ι) : List (Move ι) :=
  [.act i (.call (.acquire [97])), .act i .run, .act i .run, .act i .run, .deliver i i,
    .act i .timeout, .act i .run, .act i .run, .deliver i i, .act i .timeout, .act i .run,
    .act i .run, .act i .run]

/-- Two new instances. -/
def twoNew : Sys Bool := fresh (fun i => if i then 2 else 1) 50 (fun _ => 1) fun _ => []

end

end Sys

namespace Group

section

variable {ι : Type*} [DecidableEq ι] {r : Name} {k : UInt32} {S₀ : Sys ι} {G : Group ι}
  {ms : List (GroupMove ι)}

omit [DecidableEq ι] in
lemma lawful_proper :
    Lawful FitsWire r k (fun (_ : ι) L => L.Fits) fun _ L c => c.Proper r k L where
  names i L L' hL h := by
    rw [Lock.Fits, h]
    exact hL
  enter i I c hI hL hc hfree := by
    obtain ⟨b, hb⟩ := hfree
    have hs : I.step (.call c) = some (Inst.enter I.lock c, []) := by rw [Inst.step, hb]
    exact ⟨Inst.sound_enter hI hL hc hs, Inst.fits_enter hL hc⟩

/-- The first one of two new instances defines `b`, with the count 2, and asks who holds `a`; then
both create `a`, for which they contend. -/
def asksFirst : List (GroupMove Bool) :=
  calls false [.call (.defineResource [98] 2), .call (.query .isBusy [97])] ++ sets false ++
    arrives 1 false false ++ arrives 1 false true ++ calls false [.run, .timeout, .run] ++ contends

end

end Group
end DistLock
