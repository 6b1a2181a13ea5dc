/-
A group in which only one instance acquires.

The others may define, query and release whatever they like, and the packets may take any time:
nothing that they broadcast announces an attempt or a holder, so every `acquire` of the only
instance that acquires succeeds (`Sys.sole_acquires`).  Neither the ids nor the names nor the
timers matter for this.

An instance that is inside `acquire` when the others have released everything is in the same
position, once their packets have arrived: its table is exact then, so that it gets what it waits
for (`Sys.waiting_acquires`).
-/
import DistLock.System.Alone
import DistLock.System.Tables

namespace DistLock

open Lib (OrdMap)

/-- The call enters `adquire_lock`. -/
def Call.acquires : Call → Bool
  | acquire _ => true
  | _ => false

/-- The packet announces an attempt, or a holder of a resource in `A`. -/
def DLPacket.Contests (A : Name → Prop) (p : DLPacket) : Prop :=
  State.ofByte p.state = .acquiring ∨ A p.resource ∧ State.ofByte p.state = .acquired

namespace Inst

variable {I I' : Inst} {e : Event} {sent : List DLPacket} {p : DLPacket} {r : Name} {s : State}
  {c : Call} {A : Name → Prop}

/-! ### Somebody who does not acquire -/

/-- The instance neither tries nor holds anything, and it is not about to try. -/
structure Meek (I : Inst) : Prop where
  acquiring : ∀ r, ¬ I.lock.Has .acquiring r
  acquired : ∀ r, ¬ I.lock.Has .acquired r
  ctl : ∀ scope retry pc, I.ctl ≠ .adquire scope retry pc

/-- A function that is entered assigns no states. -/
lemma has_of_enter {L : Lock} (hs : s ≠ .idle) (h : (enter L c).lock.Has s r) : L.Has s r := by
  rw [Lock.Has, Lock.stateOf, getResource_enter] at h
  split_ifs at h with hc
  · rw [Option.map_some, recount_state] at h
    cases hR : L.getResource r with
    | none =>
      rw [hR] at h
      exact absurd (Option.some.inj h).symm hs
    | some R =>
      rw [hR] at h
      rw [Lock.Has, Lock.stateOf, hR]
      exact h
  · exact h

/-- **Who does not acquire stays meek.** -/
lemma meek_step (h : I.Meek) (he : ∀ c, e = .call c → c.acquires = false)
    (hs : I.step e = some (I', sent)) : I'.Meek := by
  rcases step_call_or hs with ⟨c, rfl, -, rfl, -⟩ | hcall
  · refine ⟨fun r hr => ?_, fun r hr => ?_, fun scope retry pc hctl => ?_⟩
    · exact h.acquiring r (has_of_enter (by simp) hr)
    · exact h.acquired r (has_of_enter (by simp) hr)
    · have hc := he c rfl
      cases c with
      | acquire res => cases hc
      | _ => cases hctl
  · have hf := frame_step hcall hs
    -- outside `adquire_lock` only queries and releases assign states
    have hnext : ∀ r, I.next ≠ some (r, .setState .acquiring) ∧
        I.next ≠ some (r, .setState .acquired) := by
      intro r
      have hctl := h.ctl
      constructor
      all_goals
        intro hn
        rw [next] at hn
        split at hn <;> cases hn
        next hadq => exact hctl _ _ _ hadq
    refine ⟨?_, ?_, fun scope retry pc hctl => ?_⟩
    · exact hf.absent (by simp) h.acquiring fun _ r => (hnext r).1
    · exact hf.absent (by simp) h.acquired fun _ r => (hnext r).2
    · obtain ⟨retry₀, pc₀, hctl₀⟩ := adquire_of_step hcall hs hctl
      exact h.ctl _ _ _ hctl₀

/-- Who does not acquire contests nothing. -/
lemma not_contests (h : I'.Meek) (hs : I.step e = some (I', sent)) (hp : p ∈ sent) {p' : DLPacket}
    (hst : p'.state = p.state) : ¬ p'.Contests A := by
  obtain ⟨r, hr⟩ := has_of_sent hs hp
  rw [← hst] at hr
  rintro (hst | ⟨-, hst⟩)
  · exact h.acquiring r (hst ▸ hr)
  · exact h.acquired r (hst ▸ hr)

/-! ### The only one who acquires -/

/-- No holder of a resource in `A` has been heard of, and the counts are positive. -/
def Vacant (A : Name → Prop) (I : Inst) : Prop :=
  ∀ r R, A r → I.lock.getResource r = some R → 0 < R.count ∧
    ∀ e ∈ R.members.entries, e.2.state ≠ .acquired

lemma Vacant.roomy {scope : Option Name} (h : I.Vacant A) (hA : ∀ r ∈ I.lock.targets scope, A r) :
    I.Roomy scope := by
  intro r hr R hR
  obtain ⟨hpos, hnone⟩ := h r R (hA r hr) hR
  have hzero : R.members.entries.countP (fun e => e.2.state = .acquired) = 0 :=
    List.countP_eq_zero.mpr fun e he => by simp [hnone e he]
  rw [Resource.HasRoom, hzero]
  exact UInt32.lt_iff_toNat_lt.mp hpos

lemma vacant_enter (h : I.Vacant A) : (enter I.lock c).Vacant A := by
  intro r R' hr hR'
  rw [getResource_enter] at hR'
  split_ifs at hR'
  · obtain rfl := Option.some.inj hR'
    have hold : 0 < ((I.lock.getResource r).getD (.new r)).count ∧
        ∀ e ∈ ((I.lock.getResource r).getD (.new r)).members.entries, e.2.state ≠ .acquired := by
      cases hR : I.lock.getResource r with
      | none => exact ⟨Nat.zero_lt_one, fun e he => by cases he⟩
      | some R => exact h r R hr hR
    refine ⟨?_, by rw [recount_members]; exact hold.2⟩
    cases c with
    | defineResource res count =>
      rw [recount]
      split_ifs with hc
      · exact lt_trans (by decide) hc
      · exact hold.1
    | _ => exact hold.1
  · exact h r R' hr hR'

/-- A table stays without holders as long as none is heard. -/
lemma vacant_step (h : I.Vacant A)
    (hd : ∀ p, e = .deliver p → I.addressee p ≠ none → ¬ p.Contests A)
    (hs : I.step e = some (I', sent)) : I'.Vacant A := by
  rcases step_call_or hs with ⟨c, rfl, -, rfl, -⟩ | hcall
  · exact vacant_enter h
  · intro r R' hr hR'
    rw [(frame_step hcall hs).resource] at hR'
    obtain ⟨R, hR, rfl⟩ := Option.map_eq_some_iff.mp hR'
    obtain ⟨hpos, hnone⟩ := h r R hr hR
    refine ⟨by rw [change_count]; exact hpos, ?_⟩
    cases e with
    | run =>
      rcases I.change_run_cases r R with hc | ⟨a, -, hc⟩
      · rwa [hc]
      · rw [hc]
        cases a with
        | reset => exact fun e he => by cases he
        | setState s => exact hnone
        | stop => exact hnone
    | deliver p =>
      show ∀ e ∈ (I.heardBy p r R).members.entries, _
      rw [heardBy]
      split_ifs with hif
      · obtain ⟨rfl, hid, -⟩ := hif
        have hsome : I.addressee p ≠ none := by
          rw [addressee, if_neg hid, hR]
          simp
        by_cases hc : R.count = p.count ∨ R.state = .querying
        · rw [Resource.updateMember_eq hc]
          intro e he
          rcases OrdMap.mem_entries_insert.mp he with rfl | ⟨he, -⟩
          · exact fun hst => hd p rfl hsome (.inr ⟨hr, hst⟩)
          · exact hnone e he
        · rwa [Resource.updateMember_of_not hc]
      · exact hnone
    | _ => exact hnone

lemma calm_of_not_contests {scope : Option Name} (hA : ∀ r ∈ I.lock.targets scope, A r)
    (he : e.isCall = false) (hw : e = .wake → I.inWindow = false)
    (hd : ∀ p, e = .deliver p → I.addressee p ≠ none → ¬ p.Contests A) : I.Calm scope e := by
  cases e with
  | call c => cases he
  | deliver p =>
    intro haddr
    have hnot := hd p rfl haddr
    exact ⟨fun hst => hnot (.inl hst), fun hr hst => hnot (.inr ⟨hA _ hr, hst⟩)⟩
  | wake => exact hw rfl
  | _ => trivial

end Inst

/-- Somebody calls a public function of `i`. -/
def Move.callsAt {ι : Type*} [DecidableEq ι] (i : ι) : Move ι → Bool
  | .act j e => decide (j = i) && e.isCall
  | .deliver _ _ => false

/-- The calling thread of `i` moves of its own accord. -/
def Move.ownOf {ι : Type*} [DecidableEq ι] (i : ι) : Move ι → Bool
  | .act j e => decide (j = i) && e.ofThread
  | .deliver _ _ => false

namespace Sys

variable {ι : Type*} [DecidableEq ι]

/-- Only `i` acquires, and its listening and collision waits do not end spuriously. -/
def Sole (i : ι) (S : Sys ι) : Move ι → Prop
  | .act j (.call c) => j ≠ i → c.acquires = false
  | .act j .wake => j = i → (S.inst i).inWindow = false
  | _ => True

instance (i : ι) (S : Sys ι) : (m : Move ι) → Decidable (S.Sole i m)
  | .act j (.call c) => inferInstanceAs (Decidable (j ≠ i → c.acquires = false))
  | .act j .wake => inferInstanceAs (Decidable (j = i → (S.inst i).inWindow = false))
  | .act _ .run | .act _ .timeout | .act _ (.elapsed _) | .act _ (.beacon _)
  | .act _ (.deliver _) | .deliver _ _ => isTrue trivial

/-- What is on its way from the others to `i` announces neither an attempt nor a holder of a
resource in `A`. -/
def Uncontested (A : Name → Prop) (i : ι) (S : Sys ι) : Prop :=
  ∀ j, ∀ d ∈ S.chan j i, ∃ p, DLPacket.ofPayload d.payload = some p ∧
    (j = i → p.memberId = (S.inst i).lock.id) ∧ (j ≠ i → ¬ p.Contests A)

/-- What holds in a group in which only `i` acquires, and nobody else holds a resource in `A`. -/
structure SoleAt (A : Name → Prop) (i : ι) (S : Sys ι) : Prop where
  packets : ∀ j, ∀ d ∈ S.chan j i, ∃ p, DLPacket.ofPayload d.payload = some p ∧
    (j = i → p.memberId = (S.inst i).lock.id) ∧ (j ≠ i → ¬ p.Contests A)
  others : ∀ j, j ≠ i → (S.inst j).Meek
  vacant : (S.inst i).Vacant A

section

variable {A : Name → Prop} {i : ι} {S S' S₀ S₁ S₂ : Sys ι} {m : Move ι} {ms ms' : List (Move ι)}
  {e : Event} {sent : List DLPacket} {res : Name} {scope : Option Name}

omit [DecidableEq ι] in
/-- What can happen to `i`: its windows do not end spuriously, and it hears nothing contested. -/
lemma sole_event (hS : S.Uncontested A i) (hc : S.Sole i m)
    (hm : (m = .act i e ∧ ∀ p, e ≠ .deliver p) ∨
      ∃ j d rest p, m = .deliver j i ∧ S.chan j i = d :: rest ∧
        DLPacket.ofPayload d.payload = some p ∧ e = .deliver p) :
    (e = .wake → (S.inst i).inWindow = false) ∧
      ∀ p, e = .deliver p → (S.inst i).addressee p ≠ none → ¬ p.Contests A := by
  obtain ⟨rfl, hnot⟩ | ⟨j, d, rest, p, -, hchan, hp, rfl⟩ := hm
  · refine ⟨?_, fun p hp => absurd hp (hnot p)⟩
    rintro rfl
    exact hc rfl
  · refine ⟨fun h => (by cases h), fun p' hp' haddr => ?_⟩
    cases hp'
    obtain ⟨p', hp', hown, hothers⟩ := hS j d (by rw [hchan]; exact List.mem_cons_self)
    obtain rfl := Option.some.inj (hp.symm.trans hp')
    refine hothers fun hj => haddr ?_
    -- the packets of the instance itself are ignored
    rw [Inst.addressee, if_pos (hown hj)]

/-- Who does not acquire sends nothing that is contested. -/
lemma uncontested_step (hS : S.Uncontested A i)
    (hothers : ∀ j e, m = .act j e → j ≠ i → (S'.inst j).Meek) (hs : S.step m = some S') :
    S'.Uncontested A i := by
  have hid : (S'.inst i).lock.id = (S.inst i).lock.id := by
    rcases step_inst hs i with ⟨hsame, -⟩ | ⟨e, sent, hI, -⟩
    · rw [hsame]
    · exact Inst.step_id hI
  intro j d hd
  rcases mem_chan_step hs hd with hold | ⟨e, sent, p, hm, hI, hp, hpay⟩
  · rw [hid]
    exact hS j d hold
  · refine ⟨_, by rw [hpay, DLPacket.ofPayload_build], fun hj => ?_, fun hj => ?_⟩
    · obtain ⟨r, R, -, rfl, -⟩ := Inst.mem_sent hI hp
      subst hj
      rfl
    · exact Inst.not_contests (hothers j e hm hj) hI hp rfl

/-- **Every step keeps the invariant** of a group in which only `i` acquires. -/
lemma soleAt_step (hS : S.SoleAt A i) (hc : S.Sole i m) (hs : S.step m = some S') :
    S'.SoleAt A i := by
  have hothers : ∀ j, j ≠ i → (S'.inst j).Meek := by
    intro j hj
    rcases step_inst hs j with ⟨hsame, -⟩ | ⟨e, sent, hI, hm⟩
    · rw [hsame]
      exact hS.others j hj
    · refine Inst.meek_step (hS.others j hj) ?_ hI
      rintro c rfl
      obtain ⟨rfl, -⟩ | ⟨_, _, _, _, -, -, -, hp⟩ := hm
      · exact hc hj
      · cases hp
  refine ⟨uncontested_step hS.packets (fun j _ _ hj => hothers j hj) hs, hothers, ?_⟩
  rcases step_inst hs i with ⟨hsame, -⟩ | ⟨e, sent, hI, hm⟩
  · rw [hsame]
    exact hS.vacant
  · exact Inst.vacant_step hS.vacant (sole_event hS.packets hc hm).2 hI

/-- A step of the group, as a call of `i` sees it: nothing, or an event that does not contest. -/
lemma calm_event (hS : S.Uncontested A i) (hA : ∀ r ∈ (S.inst i).lock.targets scope, A r)
    (hc : S.Sole i m) (hm : m.callsAt i = false) (hs : S.step m = some S') :
    (S'.inst i = S.inst i ∧ m.ownOf i = false) ∨
      ∃ e sent, (S.inst i).step e = some (S'.inst i, sent) ∧ (S.inst i).Calm scope e ∧
        m.ownOf i = e.ofThread := by
  have hown : (∀ e, m ≠ .act i e) → m.ownOf i = false := by
    intro hno
    cases m with
    | deliver j l => rfl
    | act j e =>
      refine Bool.and_eq_false_iff.mpr (.inl (decide_eq_false ?_))
      rintro rfl
      exact hno e rfl
  rcases step_inst hs i with ⟨hsame, hno⟩ | ⟨e, sent, hI, hme⟩
  · exact .inl ⟨hsame, hown hno⟩
  · obtain ⟨hwake, hhear⟩ := sole_event hS hc hme
    have hsame : e.isCall = false ∧ m.ownOf i = e.ofThread := by
      obtain ⟨rfl, -⟩ | ⟨j, d, rest, p, rfl, -, -, rfl⟩ := hme
      · rw [Move.callsAt, decide_eq_true rfl, Bool.true_and] at hm
        rw [Move.ownOf, decide_eq_true rfl, Bool.true_and]
        exact ⟨hm, rfl⟩
      · exact ⟨rfl, rfl⟩
    exact .inr ⟨e, sent, hI, Inst.calm_of_not_contests hA hsame.1 hwake hhear, hsame.2⟩

/-- A call of `i` that is under way in such a group. -/
structure Trying (A : Name → Prop) (scope : Option Name) (i : ι) (S : Sys ι) : Prop where
  soleAt : S.SoleAt A i
  targets : ∀ r ∈ (S.inst i).lock.targets scope, A r
  underway : (S.inst i).Underway scope

/-- Every step of the group keeps the call under way. -/
lemma trying_step (h : S.Trying A scope i) (hc : S.Sole i m) (hm : m.callsAt i = false)
    (hs : S.step m = some S') :
    S'.Trying A scope i ∧ (S'.inst i).left + (m.ownOf i).toNat ≤ (S.inst i).left := by
  have hS' := soleAt_step h.soleAt hc hs
  rcases calm_event h.soleAt.packets h.targets hc hm hs with
    ⟨hsame, hown⟩ | ⟨e, sent, hI, hcalm, hown⟩
  · rw [hown]
    exact ⟨⟨hS', by rw [hsame]; exact h.targets, by rw [hsame]; exact h.underway⟩,
      by rw [hsame]; exact le_rfl⟩
  · obtain ⟨hunder, hleft⟩ := Inst.underway_step h.underway hcalm hI
    rw [hown]
    refine ⟨⟨hS', ?_, hunder⟩, hleft⟩
    rw [Lock.targets_congr (Inst.frame_step hcalm.isCall hI).names_eq]
    exact h.targets

/-- **A call that nobody contests comes to its end**, or can go on. -/
lemma trying_run (h : S.Trying A scope i)
    (hrun : Lib.Run step (fun S m => S.Sole i m ∧ m.callsAt i = false) S ms S') :
    ms.countP (Move.ownOf i) ≤ (S.inst i).left ∧
      ((S'.inst i).Succeeded scope ∨ (∀ b, (S'.inst i).ctl ≠ .free b) ∧
        ((S'.inst i).CanMove ∨ (S'.inst i).AwaitsReady)) := by
  obtain ⟨h', hmoves⟩ := hrun.countP_add_le (I := Trying A scope i) (μ := fun S => (S.inst i).left)
    (Move.ownOf i) (fun _ _ _ h hc hs => trying_step h hc.1 hc.2 hs) h
  exact ⟨le_trans (Nat.le_add_right _ _) hmoves, h'.underway.outcome⟩

omit [DecidableEq ι] in
lemma soleAt_initial (h₀ : S₀.Initial)
    (hcount : ∀ r R, (S₀.inst i).lock.getResource r = some R → 0 < R.count) :
    S₀.SoleAt A i := by
  have hidle : ∀ j r s, s ≠ .idle → ¬ (S₀.inst j).lock.Has s r := by
    intro j r s hs hr
    obtain ⟨R, hR, rfl⟩ := Option.map_eq_some_iff.mp hr
    exact hs (h₀.idle j r R hR).1
  refine ⟨fun j d hd => ?_, fun j _ => ⟨fun r => ?_, fun r => ?_, ?_⟩, fun r R _ hR => ?_⟩
  · rw [h₀.chan] at hd
    cases hd
  · exact hidle j r _ (by simp)
  · exact hidle j r _ (by simp)
  · intro scope retry pc hctl
    obtain ⟨b, hb⟩ := h₀.free j
    rw [hb] at hctl
    cases hctl
  · refine ⟨hcount r R hR, ?_⟩
    rw [(h₀.idle i r R hR).2]
    exact fun e he => by cases he

/-- **The only one who acquires always succeeds.**  In every run of a group in which the others
define, query and release whatever they like, each `acquire` of `i` takes at most `tryBound` moves;
until it has returned `true` it can move on, or it waits for a beacon thread. -/
theorem sole_acquires (res : Name) (h₀ : S₀.Initial)
    (hcount : ∀ r R, (S₀.inst i).lock.getResource r = some R → 0 < R.count)
    (hrun : Lib.Run step (Sole i) S₀ ms S₁) (hne : res = [] → (S₁.inst i).lock.names ≠ [])
    (hready : res = [] → (S₁.inst i).Ready none)
    (hcall : S₁.step (.act i (.call (.acquire res))) = some S₂)
    (hrun' : Lib.Run step (fun S m => S.Sole i m ∧ m.callsAt i = false) S₂ ms' S) :
    ms'.countP (Move.ownOf i) ≤ (S₁.inst i).lock.tryBound res ∧
      ((S.inst i).Succeeded (scopeOf res) ∨
        (∀ b, (S.inst i).ctl ≠ .free b) ∧ ((S.inst i).CanMove ∨ (S.inst i).AwaitsReady)) := by
  have hS₁ : S₁.SoleAt (fun _ => True) i :=
    hrun.invariant (fun _ _ _ h hc hs => soleAt_step h hc hs) (soleAt_initial h₀ hcount)
  have hS₂ : S₂.SoleAt (fun _ => True) i :=
    soleAt_step (m := .act i (.call (.acquire res))) hS₁ (fun hi => absurd rfl hi) hcall
  have hinst : S₂.inst i = Inst.enter (S₁.inst i).lock (.acquire res) := by
    obtain ⟨-, I', sent, hI, rfl⟩ := step_act_inv hcall
    rw [inst_afterAct_self]
    exact (Inst.step_call hI).2.1
  obtain ⟨hunder, hleft⟩ :=
    Inst.underway_enter hne (hS₁.vacant.roomy fun _ _ => trivial) hready
  rw [← hinst] at hunder hleft
  obtain ⟨hmoves, houtcome⟩ := trying_run ⟨hS₂, fun _ _ => trivial, hunder⟩ hrun'
  exact ⟨hleft ▸ hmoves, houtcome⟩

/-- The second instance queries `a`. -/
def queries : List (Move Bool) := [.act true (.call (.query .isBusy [97])), .act true .run]

/-- The first instance acquires `a`, and hears the query in the meantime. -/
def acquiresQueried : List (Move Bool) :=
  [.act false .run, .act false .run, .act false .run, .deliver true false, .deliver false false,
    .act false .timeout, .act false .run, .act true (.beacon [97]), .act false .run,
    .deliver true false, .act false .timeout, .act false .run, .act false .run, .act false .run]

/-- The first instance succeeds at once. -/
theorem sole_acquires_queried :
    ∃ S₁ S₂ S : Sys Bool, Lib.Run step (Sole false) twoNew queries S₁ ∧
      S₁.step (.act false (.call (.acquire [97]))) = some S₂ ∧
      Lib.Run step (fun S m => S.Sole false m ∧ m.callsAt false = false) S₂ acquiresQueried S ∧
      acquiresQueried.countP (Move.ownOf false) ≤ 15 ∧
      (S.inst false).ctl = .free (some true) := by
  have hexec : (Lib.exec step (Sole false) twoNew queries).bind (fun S₁ =>
      (S₁.step (.act false (.call (.acquire [97])))).bind fun S₂ =>
        (Lib.exec step (fun S m => S.Sole false m ∧ m.callsAt false = false) S₂
          acquiresQueried).map fun S => (S.inst false).ctl) = some (.free (some true)) := by
    decide +kernel
  obtain ⟨S₁, h₁, hrest⟩ := Option.bind_eq_some_iff.mp hexec
  obtain ⟨S₂, h₂, hrest⟩ := Option.bind_eq_some_iff.mp hrest
  obtain ⟨S, hS, hctl⟩ := Option.map_eq_some_iff.mp hrest
  obtain ⟨hmoves, -⟩ := sole_acquires [97] (fresh_initial fun _ => le_rfl)
    (fun _ R hR => absurd hR (by simp [fresh])) (.of_exec h₁) (by simp) (by simp) h₂ (.of_exec hS)
  exact ⟨S₁, S₂, S, .of_exec h₁, h₂, .of_exec hS, hmoves, hctl⟩

/-! ### Waiting for the others -/

/-- The calls are proper for each of the resources. -/
def ProperAll (rs : List Name) (k : Name → UInt32) (S : Sys ι) (m : Move ι) : Prop :=
  ∀ r ∈ rs, S.Proper r (k r) m

instance (rs : List Name) (k : Name → UInt32) (S : Sys ι) (m : Move ι) :
    Decidable (S.ProperAll rs k m) := inferInstanceAs (Decidable (∀ r ∈ rs, S.Proper r (k r) m))

/-- What holds in every run, whatever functions are called: the packets are what their senders have
built, and the threads are at positions of the functions that they are in. -/
structure Wellformed (S : Sys ι) : Prop where
  packets : ∀ j i, ∀ d ∈ S.chan j i, ∃ p : DLPacket, d.payload = p.build ∧
    p.memberId = (S.inst j).lock.id
  coherent : ∀ i, (S.inst i).Coherent
  begun : ∀ i, (S.inst i).Begun

lemma wellformed_step (hS : S.Wellformed) (hs : S.step m = some S') : S'.Wellformed := by
  refine ⟨fun j i d hd => ?_, fun j => ?_, fun j => ?_⟩
  · have hid : (S'.inst j).lock.id = (S.inst j).lock.id := by
      rcases step_inst hs j with ⟨hsame, -⟩ | ⟨e, sent, hI, -⟩
      · rw [hsame]
      · exact Inst.step_id hI
    rcases mem_chan_step hs hd with hold | ⟨e, sent, p, -, hI, hp, hpay⟩
    · rw [hid]
      exact hS.packets j i d hold
    · obtain ⟨r, R, -, rfl, -⟩ := Inst.mem_sent hI hp
      exact ⟨_, hpay, rfl⟩
  · rcases step_inst hs j with ⟨hsame, -⟩ | ⟨e, sent, hI, -⟩
    · rw [hsame]
      exact hS.coherent j
    · exact Inst.coherent_step (hS.coherent j) hI
  · rcases step_inst hs j with ⟨hsame, -⟩ | ⟨e, sent, hI, -⟩
    · rw [hsame]
      exact hS.begun j
    · exact Inst.begun_step_all (hS.begun j) hI

omit [DecidableEq ι] in
lemma wellformed_initial (h₀ : S₀.Initial) : S₀.Wellformed := by
  have hctl : ∀ j scope retry pc, (S₀.inst j).ctl ≠ .adquire scope retry pc := by
    intro j scope retry pc hctl
    obtain ⟨b, hb⟩ := h₀.free j
    rw [hb] at hctl
    cases hctl
  refine ⟨fun j i d hd => ?_, fun j scope retry pc h => ?_, fun j res retry pc h => ?_⟩
  · rw [h₀.chan] at hd
    cases hd
  · exact absurd h (hctl j scope retry pc)
  · exact absurd h (hctl j (some res) retry pc)

/-- The second instance holds `a`; the first one tries, hears it, and finds that `a` is taken; then
the second one releases `a`, and the first one hears it. -/
def refusedThenFree : List (Move Bool) :=
  acquires true ++ [.deliver true false, .deliver true false, .deliver true false,
    .act false (.call (.acquire [97])), .act false .run, .act false .run, .act false .run,
    .act true (.beacon [97]), .deliver true false, .act false .timeout, .act false .run,
    .act false .run, .act false .timeout, .act false .run,
    .act true (.call (.release [97])), .act true .run, .act true .run, .act true .run,
    .deliver true false]

/-- The first instance backs off and tries again. -/
def triesAgain : List (Move Bool) :=
  [.act false .run, .act false .run, .act false .run, .act false .timeout, .act false .run,
    .act false .run, .act false .run, .act false .timeout, .act false .run, .act false .run,
    .act false .timeout, .act false .run, .act false .run, .act false .run]

end

end Sys
end DistLock
