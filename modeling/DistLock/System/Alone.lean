/-
An `acquire` that nobody contests.

The listening is only interrupted by `ACQUIRING` packets, and the check only fails when too many
holders have been heard of.  Without both, `adquire_lock` succeeds in the next pass that it begins,
whatever else is delivered in the meantime: a call takes at most `Lock.tryBound` moves
(`Inst.acquire_alone`).  If the tables show holders that are not there any more, one pass fails
before, and its reset clears the tables (`Inst.acquire_stale`).
-/
import DistLock.Acquire.Bounded
import DistLock.System.Sys

namespace DistLock

open Lib (OrdMap)

/-- The condition of the retry loop has to be tested again before the resources can be acquired. -/
def Pc.ahead : Pc → Bool
  | start _ | waitForReady _ _ | loop | resetting _ | backoff | backingOff => true
  | _ => false

/-- The counter of the retries when the condition is tested next. -/
def Pc.nextRetry (retry : UInt32) : Pc → UInt32
  | resetting _ => retry + 1
  | _ => retry

/-- How many moves are left at most, with `N` resources, if the next pass that begins succeeds. -/
def Pc.left (N : ℕ) (pc : Pc) : ℕ := pc.toGo N + (if pc.ahead then 5 * N + 9 else 0) + 1

/-- What is left of a loop is no longer than the loop. -/
lemma Visited.length_le {L : Lock} {scope : Option Name} {rest : List Name} {P Q : Name → Prop}
    (h : Visited L scope rest P Q) : rest.length ≤ (L.targets scope).length := by
  obtain ⟨done, hd, -⟩ := h
  rw [hd, List.length_append]
  exact Nat.le_add_left _ _

/-- The events that move the calling thread inside `adquire_lock` of its own accord. -/
def Event.ofThread : Event → Bool
  | .run | .timeout | .wake => true
  | _ => false

/-- The resources over which `adquire_lock` loops when it is called for `res`. -/
def scopeOf : Name → Option Name
  | [] => none
  | b :: bs => some (b :: bs)

/-! ### Room for one more holder -/

namespace Resource

variable {R : Resource} {id : UInt32} {s : State} {c : UInt32}

/-- Fewer holders have been heard of than the count allows. -/
def HasRoom (R : Resource) : Prop :=
  R.members.entries.countP (fun e => e.2.state = .acquired) < R.count.toNat

instance (R : Resource) : Decidable R.HasRoom := inferInstanceAs (Decidable (_ < _))

/-- The counter cannot be larger than what it counts. -/
lemma HasRoom.isAcquirable (h : R.HasRoom) : R.isAcquirable = true := by
  rw [Resource.isAcquirable, decide_eq_true_iff, UInt32.lt_iff_toNat_lt, toNat_numMembers]
  exact lt_of_le_of_lt (Nat.mod_le _ _) h

/-- A member that does not hold the resource takes no room. -/
lemma HasRoom.updateMember (h : R.HasRoom) (hs : s ≠ .acquired) :
    (R.updateMember id s c).HasRoom := by
  by_cases hc : R.count = c ∨ R.state = .querying
  · rw [updateMember_eq hc]
    have hle := OrdMap.countP_insert_le (p := fun m : Member => decide (m.state = .acquired))
      (m := R.members) (k := id)
      (v := { (R.getMember id).getD (Member.new id) with count := c, state := s })
      (decide_eq_false hs)
    exact lt_of_le_of_lt hle h
  · rwa [updateMember_of_not hc]

end Resource

namespace Inst

variable {I I' : Inst} {e : Event} {sent : List DLPacket} {scope : Option Name} {retry : UInt32}
  {pc : Pc}

/-- The resources of the scope have room for one more holder. -/
def Roomy (scope : Option Name) (I : Inst) : Prop :=
  ∀ r ∈ I.lock.targets scope, ∀ R, I.lock.getResource r = some R → R.HasRoom

/-- Nobody contests the resources of the scope: the packets that arrive neither announce an
attempt nor a holder of one of them.  The listening and the collision wait do not end spuriously,
and the caller waits for the result. -/
def Calm (scope : Option Name) (I : Inst) : Event → Prop
  | .call _ => False
  | .wake => I.inWindow = false
  | .deliver pkt => I.addressee pkt ≠ none → State.ofByte pkt.state ≠ .acquiring ∧
      (pkt.resource ∈ I.lock.targets scope → State.ofByte pkt.state ≠ .acquired)
  | _ => True

instance (scope : Option Name) (I : Inst) : (e : Event) → Decidable (I.Calm scope e)
  | .call _ => isFalse id
  | .wake => inferInstanceAs (Decidable (_ = _))
  | .deliver pkt => inferInstanceAs (Decidable (I.addressee pkt ≠ none →
      State.ofByte pkt.state ≠ .acquiring ∧
        (pkt.resource ∈ I.lock.targets scope → State.ofByte pkt.state ≠ .acquired)))
  | .run | .timeout | .elapsed _ | .beacon _ => isTrue trivial

/-- The function may begin another pass unless one is under way, or it has succeeded. -/
def Hopeful (I : Inst) : Prop :=
  match I.ctl with
  | .adquire _ retry pc => pc.ahead = true → I.lock.mayTry (pc.nextRetry retry)
  | .free b => b = some true
  | _ => False

/-- How many moves are left of the call at most. -/
def left (I : Inst) : ℕ :=
  match I.ctl with
  | .adquire scope _ pc => pc.left (I.lock.targets scope).length
  | _ => 0

lemma left_of_free {b : Option Bool} (h : I.ctl = .free b) : I.left = 0 := by
  rw [left, h]

lemma Calm.isCall (h : I.Calm scope e) : e.isCall = false := by
  cases e with
  | call c => exact h.elim
  | _ => rfl

/-- No window is ended before its timeout. -/
lemma Calm.inWindow (h : I.Calm scope e) (hw : I.Wakes e) : I.inWindow = false := by
  cases e with
  | wake => exact h
  | deliver pkt =>
    obtain ⟨hacq, R, hR, -⟩ := hw
    have hsome : I.addressee pkt ≠ none := by
      rw [Option.mem_def.mp hR]
      simp
    exact absurd hacq (h hsome).1
  | _ => exact hw.elim

/-- Every event leaves room. -/
lemma roomy_step (hroom : I.Roomy scope) (hc : I.Calm scope e)
    (hs : I.step e = some (I', sent)) : I'.Roomy scope := by
  have hf := frame_step hc.isCall hs
  intro r hr R' hR'
  rw [Lock.targets_congr hf.names_eq] at hr
  rw [hf.resource] at hR'
  obtain ⟨R, hR, rfl⟩ := Option.map_eq_some_iff.mp hR'
  have hold : R.HasRoom := hroom r hr R hR
  cases e with
  | run =>
    rcases I.change_run_cases r R with h | ⟨a, -, h⟩
    · rwa [h]
    · rw [h]
      cases a with
      | reset => exact lt_of_le_of_lt (Nat.zero_le _) hold
      | setState s => exact hold
      | stop => exact hold
  | deliver pkt =>
    show (I.heardBy pkt r R).HasRoom
    rw [heardBy]
    split_ifs with hif
    · obtain ⟨rfl, hid, -⟩ := hif
      have hsome : I.addressee pkt ≠ none := by
        rw [addressee, if_neg hid, hR]
        simp
      exact hold.updateMember ((hc hsome).2 hr)
    · exact hold
  | _ => exact hold

/-- **No pass fails**, and the moves of the thread count down. -/
lemma hopeful_step (hacq : I.Acquiring scope) (hroom : I.Roomy scope) (h : I.Hopeful)
    (hc : I.Calm scope e) (hs : I.step e = some (I', sent)) :
    I'.Hopeful ∧ I'.left + e.ofThread.toNat ≤ I.left := by
  have hf := frame_step hc.isCall hs
  have hown : e.ofThread = true → I.movesThread e = true := by
    cases e <;> simp [Event.ofThread, movesThread, Wakes]
  cases hctl : I.ctl with
  | free b =>
    obtain ⟨hctl', hstay⟩ := free_step hctl hc.isCall hs
    have hnot : e.ofThread = false := by
      rw [Bool.eq_false_iff]
      intro ho
      rw [hown ho] at hstay
      cases hstay
    rw [Hopeful, hctl] at h
    rw [Hopeful, hctl', left, hctl', hnot]
    exact ⟨h, Nat.zero_le _⟩
  | adquire scope' retry pc =>
    rw [Hopeful, hctl] at h
    rw [Acquiring, hctl] at hacq
    obtain ⟨rfl, hsub, hcoh⟩ := hacq
    have hmay : ∀ {n}, I.lock.mayTry n → I'.lock.mayTry n := by
      intro n hn
      rwa [Lock.mayTry, hf.retryMax_eq]
    have hone : e.ofThread.toNat ≤ 1 := Bool.toNat_le _
    -- the thread has moved on to `pc'`
    have hgo : ∀ retry' pc', I'.ctl = .adquire scope' retry' pc' →
        (pc'.ahead = true → I.lock.mayTry (pc'.nextRetry retry')) →
        pc'.left (I.lock.targets scope').length < pc.left (I.lock.targets scope').length →
        I'.Hopeful ∧ I'.left + e.ofThread.toNat ≤ I.left := by
      intro retry' pc' hctl' htry hlt
      rw [Hopeful, hctl', left, hctl', left, hctl]
      dsimp only
      rw [Lock.targets_congr hf.names_eq]
      exact ⟨fun ha => hmay (htry ha), by omega⟩
    have hin : ∀ {pc' : Pc} {n : UInt32}, pc'.ahead = false → pc'.ahead = true →
        I.lock.mayTry (pc'.nextRetry n) := by
      intro pc' n hfalse htrue
      rw [hfalse] at htrue
      cases htrue
    rcases adquire_cases hctl hc.isCall hs with
      ⟨rfl, hr⟩ | ⟨hrun, htime, hwake, hsame⟩ | ⟨hwakes, hw⟩ | ⟨rfl, ht⟩
    · rw [run, hctl] at hr
      have hctl' := fun {J : Inst × List DLPacket} (hJ : some J = some (I', sent)) =>
        (congrArg (fun s => s.1.ctl) (Option.some.inj hJ)).symm
      cases pc with
      | start rest =>
        cases rest with
        | nil => exact hgo _ _ (hctl' hr) h (by simp [Pc.left, Pc.toGo, Pc.ahead])
        | cons r rest =>
          exact hgo _ _ (hctl' hr) h (by simp [Pc.left, Pc.toGo, Pc.ahead]; omega)
      | starting rest | announcing rest =>
        cases rest with
        | nil => exact hgo _ _ (hctl' hr) (hin rfl) (by simp [Pc.left, Pc.toGo, Pc.ahead])
        | cons r rest => exact hgo _ _ (hctl' hr) (hin rfl) (by simp [Pc.left, Pc.toGo, Pc.ahead])
      | resetting rest =>
        cases rest with
        | nil => exact hgo _ _ (hctl' hr) h (by simp [Pc.left, Pc.toGo, Pc.ahead])
        | cons r rest => exact hgo _ _ (hctl' hr) h (by simp [Pc.left, Pc.toGo, Pc.ahead])
      | backoff => exact hgo _ _ (hctl' hr) h (by simp [Pc.left, Pc.toGo, Pc.ahead])
      | loop =>
        have htry : I.lock.mayTry retry := h rfl
        simp only [adquireLock, if_pos htry] at hr
        exact hgo _ _ (hctl' hr) (hin rfl) (by simp [Pc.left, Pc.toGo, Pc.ahead]; omega)
      | checking rest =>
        cases rest with
        | nil =>
          obtain ⟨rfl, -⟩ := Prod.mk.inj (Option.some.inj hr)
          refine ⟨rfl, ?_⟩
          rw [left, left, hctl]
          simp [Pc.left, Event.ofThread]
        | cons r rest =>
          -- the check does not fail, because there is room
          have hmem : r ∈ I.lock.targets scope' := Visited.head hcoh
          obtain ⟨R, hR⟩ := Lock.mem_names_iff.mp (hsub r hmem)
          have hyes : I.lock.isAcquirable r = true := by
            rw [Lock.isAcquirable, hR]
            exact (hroom r hmem R hR).isAcquirable
          simp only [adquireLock, hyes, if_true] at hr
          exact hgo _ _ (hctl' hr) (hin rfl) (by simp [Pc.left, Pc.toGo, Pc.ahead]; omega)
      | marking r rest => exact hgo _ _ (hctl' hr) (hin rfl) (by simp [Pc.left, Pc.toGo, Pc.ahead])
      | waitForReady r rest | listening | colliding | backingOff =>
        exact absurd hr (by simp [adquireLock])
    · have hnot : e.ofThread = false := by
        cases e with
        | run => exact absurd rfl hrun
        | timeout => exact absurd rfl htime
        | wake => exact absurd trivial hwake
        | _ => rfl
      rw [Hopeful, hsame, hctl, left, hsame, hctl, left, hctl, hnot]
      dsimp only
      rw [Lock.targets_congr hf.names_eq]
      exact ⟨fun ha => hmay (h ha), le_rfl⟩
    · have hwin := hc.inWindow hwakes
      rw [Inst.inWindow, hctl] at hwin
      rw [hctl] at hw
      have hctl' := fun {J : Inst} (hJ : some J = some I') =>
        (congrArg Inst.ctl (Option.some.inj hJ)).symm
      cases pc with
      | waitForReady r rest => exact hgo _ _ (hctl' hw) h (by simp [Pc.left, Pc.toGo, Pc.ahead])
      | backingOff => exact hgo _ _ (hctl' hw) h (by simp [Pc.left, Pc.toGo, Pc.ahead])
      | listening | colliding => cases hwin
      | _ => cases hw
    · rw [onTimeout, hctl] at ht
      have hctl' := fun {J : Inst} (hJ : some J = some I') =>
        (congrArg Inst.ctl (Option.some.inj hJ)).symm
      cases pc with
      | listening | colliding =>
        refine hgo _ _ (hctl' ht) (hin rfl) ?_
        simp [Pc.left, Pc.toGo, Pc.ahead]
        omega
      | backingOff => exact hgo _ _ (hctl' ht) h (by simp [Pc.left, Pc.toGo, Pc.ahead])
      | _ => cases ht
  | _ =>
    rw [Hopeful, hctl] at h
    exact h.elim

/-- What holds of a call that nobody contests, until it has returned. -/
structure Underway (scope : Option Name) (I : Inst) : Prop where
  acquiring : I.Acquiring scope
  roomy : I.Roomy scope
  hopeful : I.Hopeful
  ready : scope = none → I.Ready none
  begun : I.Begun

/-- **Every event keeps the call under way**, and the moves of the thread count down. -/
lemma underway_step (h : I.Underway scope) (hc : I.Calm scope e)
    (hs : I.step e = some (I', sent)) :
    I'.Underway scope ∧ I'.left + e.ofThread.toNat ≤ I.left := by
  obtain ⟨hhopeful, hleft⟩ := hopeful_step h.acquiring h.roomy h.hopeful hc hs
  refine ⟨⟨?_, roomy_step h.roomy hc hs, hhopeful, fun hscope => ?_, ?_⟩, hleft⟩
  · exact acquiring_step hc.isCall h.acquiring hs
  · exact ready_step (hscope ▸ h.acquiring) (h.ready hscope) hc.isCall hs
  · exact begun_step h.begun hc.isCall hs

/-- The bound on the moves at any position. -/
lemma left_le (h : I.Acquiring scope) : I.left ≤ 7 * (I.lock.targets scope).length + 13 := by
  cases hctl : I.ctl with
  | adquire scope' retry pc =>
    rw [Acquiring, hctl] at h
    obtain ⟨rfl, -, hc⟩ := h
    rw [left, hctl]
    dsimp only
    cases pc with
    | start rest | starting rest =>
      have := hc.2.length_le
      simp [Pc.left, Pc.toGo, Pc.ahead]
      omega
    | waitForReady r rest =>
      have := hc.2.2.length_le
      simp [Pc.left, Pc.toGo, Pc.ahead]
      omega
    | announcing rest | checking rest | resetting rest =>
      have := hc.length_le
      simp [Pc.left, Pc.toGo, Pc.ahead]
      omega
    | marking r rest =>
      have := hc.length_le
      rw [List.length_cons] at this
      simp [Pc.left, Pc.toGo, Pc.ahead]
      omega
    | loop | listening | colliding | backoff | backingOff =>
      simp [Pc.left, Pc.toGo, Pc.ahead]
      omega
  | _ =>
    rw [left, hctl]
    exact Nat.zero_le _

/-- `adquire_lock(res)` never stands before its loop, in any run. -/
lemma begun_step_all (h : I.Begun) (hs : I.step e = some (I', sent)) : I'.Begun := by
  rcases step_call_or hs with ⟨c, rfl, -, rfl, -⟩ | hcall
  · intro res retry pc hctl
    cases c with
    | acquire res =>
      cases res with
      | nil =>
        rw [enter] at hctl
        split_ifs at hctl
        cases hctl
      | cons b bs =>
        obtain ⟨-, -, rfl⟩ := Ctl.adquire.inj hctl
        rfl
    | _ => cases hctl
  · exact begun_step h hcall hs

/-- The call has succeeded. -/
def Succeeded (scope : Option Name) (I : Inst) : Prop :=
  I.ctl = .free (some true) ∧ ∀ r ∈ I.lock.targets scope, I.lock.Has .acquired r

/-- The call has succeeded, or its thread can go on. -/
lemma Underway.outcome (h : I.Underway scope) :
    I.Succeeded scope ∨ (∀ b, I.ctl ≠ .free b) ∧ (I.CanMove ∨ I.AwaitsReady) := by
  obtain ⟨hacq, -, hhopeful, hready, hbegun⟩ := h
  by_cases hfree : ∃ b, I.ctl = .free b
  · obtain ⟨b, hctl⟩ := hfree
    rw [Hopeful, hctl] at hhopeful
    obtain rfl : b = some true := hhopeful
    rw [Acquiring, hctl] at hacq
    exact .inl ⟨hctl, hacq⟩
  · have hnot : ∀ b, I.ctl ≠ .free b := fun b hctl => hfree ⟨b, hctl⟩
    exact .inr ⟨hnot, canMove_of_acquiring hacq hready hbegun hnot⟩

end Inst

/-! ### A call -/

/-- How many moves a call of `acquire` takes at most when nobody contests it. -/
def Lock.tryBound (L : Lock) : Name → ℕ
  | [] => 7 * L.names.length + 11
  | _ :: _ => 15

namespace Inst

variable {I₀ I₁ : Inst} {L : Lock} {res : Name} {es : List Event} {s : Inst × List DLPacket}

/-- The resource that is created has room. -/
lemma roomy_enter (h : Roomy (scopeOf res) ⟨L, .free none⟩) :
    (enter L (.acquire res)).Roomy (scopeOf res) := by
  cases res with
  | nil =>
    have hlock : (enter L (.acquire [])).lock = L := by
      rw [enter]
      split_ifs <;> rfl
    intro r hr R hR
    rw [hlock] at hr hR
    exact h r hr R hR
  | cons b bs =>
    intro r hr R hR
    rw [getResource_enter] at hR
    split_ifs at hR
    · obtain rfl := Option.some.inj hR
      cases hold : L.getResource r with
      | none => exact Nat.zero_lt_one
      | some R => exact h r hr R hold
    · exact h r hr R hR

/-- What holds when the function has been called. -/
lemma underway_enter (hne : res = [] → L.names ≠ []) (hroom : Roomy (scopeOf res) ⟨L, .free none⟩)
    (hready : res = [] → Ready none ⟨L, .free none⟩) :
    (enter L (.acquire res)).Underway (scopeOf res) ∧
      (enter L (.acquire res)).left = L.tryBound res := by
  cases res with
  | nil =>
    obtain ⟨heq, hacq⟩ := acquiring_enter (hne rfl)
    have hroomy := roomy_enter hroom
    rw [heq] at hacq hroomy ⊢
    refine ⟨⟨hacq, hroomy, fun _ => L.mayTry_zero, fun _ => hready rfl, fun _ _ _ hctl => ?_⟩, ?_⟩
    · cases hctl
    · simp only [left, Pc.left, Pc.toGo, Pc.ahead, if_true, Lock.tryBound, Lock.targets]
      omega
  | cons b bs =>
    refine ⟨⟨coherent_enter L _ _ _ _ rfl, roomy_enter hroom, fun _ => Lock.mayTry_zero _,
      fun h => (by cases h), fun _ _ _ hctl => ?_⟩, rfl⟩
    obtain ⟨-, -, rfl⟩ := Ctl.adquire.inj hctl
    rfl

/-- **An `acquire` that nobody contests succeeds.**  As long as no attempt and no holder of the
resources is heard, whatever else arrives, the function takes at most `tryBound` moves, and until
it has returned `true` with everything acquired it can always move on, or it waits in
`waitForReady` for a beacon thread. -/
theorem acquire_alone (res : Name) (hne : res = [] → I₀.lock.names ≠ [])
    (hroom : I₀.Roomy (scopeOf res)) (hready : res = [] → I₀.Ready none)
    (hcall : I₀.step (.call (.acquire res)) = some (I₁, []))
    (hrun : Lib.Run trace (fun s e => s.1.Calm (scopeOf res) e) (I₁, []) es s) :
    es.countP Event.ofThread ≤ I₀.lock.tryBound res ∧
      (s.1.Succeeded (scopeOf res) ∨
        (∀ b, s.1.ctl ≠ .free b) ∧ (s.1.CanMove ∨ s.1.AwaitsReady)) := by
  obtain ⟨-, rfl, -⟩ := step_call hcall
  obtain ⟨h₁, hleft₁⟩ := underway_enter hne hroom hready
  have hstep : ∀ s e s', s.1.Underway (scopeOf res) → s.1.Calm (scopeOf res) e →
      trace s e = some s' →
        s'.1.Underway (scopeOf res) ∧ s'.1.left + e.ofThread.toNat ≤ s.1.left := by
    intro s e s' h hc hst
    obtain ⟨⟨I', sent⟩, hs, rfl⟩ := Option.map_eq_some_iff.mp hst
    exact underway_step h hc hs
  obtain ⟨hinv, hcount⟩ := hrun.countP_add_le (I := fun s => s.1.Underway (scopeOf res))
    (μ := fun s => s.1.left) Event.ofThread hstep h₁
  rw [hleft₁] at hcount
  exact ⟨le_trans (Nat.le_add_right _ _) hcount, hinv.outcome⟩

/-- An attempt during which somebody queries the resource. -/
def queriedAttempt : List Event :=
  [.run, .run, .run,
    .deliver (((DLPacket.new State.querying.toByte 2).setResource [97]).setCount 1),
    .timeout, .run, .run, .timeout, .run, .run, .run]

/-- The query does not disturb it. -/
theorem acquire_alone_queried :
    ∃ I₁ s, oneTry.step (.call (.acquire [97])) = some (I₁, []) ∧
      Lib.Run trace (fun s e => s.1.Calm (some [97]) e) (I₁, []) queriedAttempt s ∧
      queriedAttempt.countP Event.ofThread ≤ 15 ∧ s.1.ctl = .free (some true) := by
  have hcall : oneTry.step (.call (.acquire [97])) =
      some (enter oneTry.lock (.acquire [97]), []) := rfl
  have hexec : (Lib.exec trace (fun s e => s.1.Calm (some [97]) e)
      (enter oneTry.lock (.acquire [97]), []) queriedAttempt).map (fun s => s.1.ctl) =
        some (.free (some true)) := by decide
  obtain ⟨s, hs, hctl⟩ := Option.map_eq_some_iff.mp hexec
  have hroom : oneTry.Roomy (some [97]) := by
    intro r hr R hR
    rw [List.mem_singleton.mp hr] at hR
    obtain rfl : (⟨[97], true, .idle, 1, .empty⟩ : Resource) = R := Option.some.inj hR
    decide
  obtain ⟨hcount, -⟩ := acquire_alone [97] (by simp) hroom (by simp) hcall (.of_exec hs)
  exact ⟨_, s, hcall, .of_exec hs, hcount, hctl⟩

/-! ### Members that have fallen silent -/

end Inst

/-- A second pass may begin unless no more than one has been asked for. -/
lemma Lock.mayTry_one {L : Lock} (h : L.retryMax ≠ 1) : L.mayTry (0 + 1) := by
  rw [Lock.mayTry, UInt32.lt_iff_toNat_lt]
  have h0 : L.retryMax = 0 ↔ L.retryMax.toNat = 0 := UInt32.toNat_inj.symm
  have h1 : L.retryMax = 1 ↔ L.retryMax.toNat = 1 := UInt32.toNat_inj.symm
  rw [ne_eq, h1] at h
  rw [h0]
  show _ ∨ 1 < L.retryMax.toNat
  omega

namespace Inst

variable {I₀ I₁ : Inst} {L : Lock} {res : Name} {es : List Event} {s : Inst × List DLPacket}

/-- How many moves lead at most to the end of the call, if one pass may fail. -/
def first (I : Inst) : ℕ :=
  match I.ctl with
  | .adquire scope _ pc => pc.toGo (I.lock.targets scope).length +
      (if pc.inPass then 0 else 5 * (I.lock.targets scope).length + 9) +
      (5 * (I.lock.targets scope).length + 10)
  | _ => 0

/-- What holds of a call that nobody contests, whatever its tables contain, if the function may
begin another pass after the next one that fails. -/
structure First (scope : Option Name) (I : Inst) : Prop where
  acquiring : I.Acquiring scope
  ctl : ∃ retry pc, I.ctl = .adquire scope retry pc ∧ I.lock.mayTry retry ∧
    I.lock.mayTry (retry + 1)
  counts : ∀ r ∈ I.lock.targets scope, ∀ R, I.lock.getResource r = some R → 0 < R.count
  ready : scope = none → I.Ready none
  begun : I.Begun

variable {I I' : Inst} {e : Event} {sent : List DLPacket} {scope : Option Name} {retry : UInt32}
  {pc : Pc}

/-- A call that may try again only returns when it has succeeded. -/
lemma true_of_free (hctl : I.ctl = .adquire scope retry pc) (htry : I.lock.mayTry retry)
    (he : e.isCall = false) (hs : I.step e = some (I', sent)) {b : Option Bool}
    (hctl' : I'.ctl = .free b) : b = some true := by
  rcases adquire_cases hctl he hs with ⟨rfl, hr⟩ | ⟨-, -, -, hsame⟩ | ⟨-, hw⟩ | ⟨rfl, ht⟩
  · rw [run, hctl] at hr
    cases pc with
    | start rest | starting rest | announcing rest | resetting rest =>
      cases rest with
      | nil | cons r rest =>
        obtain ⟨rfl, -⟩ := Prod.mk.inj (Option.some.inj hr)
        cases hctl'
    | loop =>
      simp only [adquireLock, if_pos htry] at hr
      obtain ⟨rfl, -⟩ := Prod.mk.inj (Option.some.inj hr)
      cases hctl'
    | checking rest =>
      cases rest with
      | nil =>
        obtain ⟨rfl, -⟩ := Prod.mk.inj (Option.some.inj hr)
        cases hctl'
        rfl
      | cons r rest =>
        simp only [adquireLock] at hr
        split_ifs at hr <;> obtain ⟨rfl, -⟩ := Prod.mk.inj (Option.some.inj hr) <;> cases hctl'
    | marking r rest | backoff =>
      obtain ⟨rfl, -⟩ := Prod.mk.inj (Option.some.inj hr)
      cases hctl'
    | waitForReady r rest | listening | colliding | backingOff =>
      exact absurd hr (by simp [adquireLock])
  · rw [hsame, hctl] at hctl'
    cases hctl'
  · rw [hctl] at hw
    cases pc with
    | waitForReady r rest | listening | colliding | backingOff =>
      rw [← Option.some.inj hw] at hctl'
      cases hctl'
    | _ => cases hw
  · rw [onTimeout, hctl] at ht
    cases pc with
    | listening | colliding | backingOff =>
      rw [← Option.some.inj ht] at hctl'
      cases hctl'
    | _ => cases ht

/-- The resources that have been reset have room. -/
lemma roomy_of_clear (hclear : ∀ r ∈ I.lock.targets scope, I.lock.Clear r)
    (hcounts : ∀ r ∈ I.lock.targets scope, ∀ R, I.lock.getResource r = some R → 0 < R.count) :
    I.Roomy scope := by
  intro r hr R hR
  obtain ⟨R', hR', -, hempty⟩ := hclear r hr
  obtain rfl := Option.some.inj (hR.symm.trans hR')
  rw [Resource.HasRoom, hempty]
  exact UInt32.lt_iff_toNat_lt.mp (hcounts r hr R hR)

/-- The call is under way without an obstacle, or it has succeeded. -/
def Settled (scope : Option Name) (I : Inst) : Prop :=
  I.Underway scope ∨ I.Succeeded scope

/-- Between the calls the thread does not move. -/
lemma ofThread_of_free {b : Option Bool} (hctl : I.ctl = .free b) (he : e.isCall = false)
    (hs : I.step e = some (I', sent)) : e.ofThread = false := by
  obtain ⟨-, hstay⟩ := free_step hctl he hs
  cases e with
  | run | timeout => cases hstay
  | wake => exact absurd hstay (by simp [movesThread, Wakes])
  | _ => rfl

/-- What has been acquired stays so. -/
lemma succeeded_step (h : I.Succeeded scope) (he : e.isCall = false)
    (hs : I.step e = some (I', sent)) : I'.Succeeded scope := by
  obtain ⟨hctl, hheld⟩ := h
  obtain ⟨hctl', -⟩ := free_step hctl he hs
  have hacq : I.Acquiring scope := by
    rw [Acquiring, hctl]
    exact hheld
  have hacq' := acquiring_step he hacq hs
  rw [Acquiring, hctl'] at hacq'
  exact ⟨hctl', hacq'⟩

lemma settled_step (h : I.Settled scope) (hc : I.Calm scope e)
    (hs : I.step e = some (I', sent)) :
    I'.Settled scope ∧ I'.left + e.ofThread.toNat ≤ I.left := by
  rcases h with h | h
  · obtain ⟨h', hleft⟩ := underway_step h hc hs
    exact ⟨.inl h', hleft⟩
  · have h' := succeeded_step h hc.isCall hs
    refine ⟨.inr h', ?_⟩
    rw [left_of_free h'.1, ofThread_of_free h.1 hc.isCall hs]
    exact Nat.zero_le _

/-- The call has succeeded, or its thread can go on. -/
lemma Settled.outcome (h : I.Settled scope) :
    I.Succeeded scope ∨ (∀ b, I.ctl ≠ .free b) ∧ (I.CanMove ∨ I.AwaitsReady) := by
  rcases h with h | h
  · exact h.outcome
  · exact .inl h

/-- **A pass that fails clears the tables**, so that the next one succeeds. -/
lemma first_step (h : I.First scope) (hc : I.Calm scope e) (hs : I.step e = some (I', sent)) :
    (I'.Settled scope ∧ I'.left + e.ofThread.toNat ≤ I.first) ∨
      (I'.First scope ∧ I'.first + e.ofThread.toNat ≤ I.first) := by
  have he := hc.isCall
  have hf := frame_step he hs
  have hnames : ∀ scope, I'.lock.targets scope = I.lock.targets scope :=
    Lock.targets_congr hf.names_eq
  have hacq' := acquiring_step he h.acquiring hs
  have hready' : scope = none → I'.Ready none := fun hscope =>
    ready_step (hscope ▸ h.acquiring) (h.ready hscope) he hs
  have hbegun' := begun_step h.begun he hs
  have hcounts' : ∀ r ∈ I'.lock.targets scope, ∀ R, I'.lock.getResource r = some R →
      0 < R.count := by
    intro r hr R' hR'
    rw [hnames] at hr
    rw [hf.resource] at hR'
    obtain ⟨R, hR, rfl⟩ := Option.map_eq_some_iff.mp hR'
    rw [change_count]
    exact h.counts r hr R hR
  have hmay : ∀ {n}, I.lock.mayTry n → I'.lock.mayTry n := by
    intro n hn
    rwa [Lock.mayTry, hf.retryMax_eq]
  have hone : e.ofThread.toNat ≤ 1 := Bool.toNat_le _
  obtain ⟨retry, pc, hctl, htry, hnext⟩ := h.ctl
  have hmove := moves_step hctl he hs
  have hfirst : I.first = pc.toGo (I.lock.targets scope).length +
      (if pc.inPass then 0 else 5 * (I.lock.targets scope).length + 9) +
      (5 * (I.lock.targets scope).length + 10) := by rw [first, hctl]
  rw [hfirst]
  -- the counter has not been incremented
  have hsame : ∀ pc', I'.ctl = .adquire scope retry pc' →
      pc'.toGo (I.lock.targets scope).length +
          (if pc'.inPass then 0 else 5 * (I.lock.targets scope).length + 9) + e.ofThread.toNat ≤
        pc.toGo (I.lock.targets scope).length +
          (if pc.inPass then 0 else 5 * (I.lock.targets scope).length + 9) →
      I'.First scope ∧ I'.first + e.ofThread.toNat ≤ pc.toGo (I.lock.targets scope).length +
        (if pc.inPass then 0 else 5 * (I.lock.targets scope).length + 9) +
        (5 * (I.lock.targets scope).length + 10) := by
    intro pc' hctl' hle
    refine ⟨⟨hacq', ⟨retry, pc', hctl', hmay htry, hmay hnext⟩, hcounts', hready', hbegun'⟩, ?_⟩
    rw [first, hctl']
    dsimp only
    rw [hnames]
    omega
  cases hctl' : I'.ctl with
  | free b =>
    obtain rfl := true_of_free hctl htry he hs hctl'
    rw [Acquiring, hctl'] at hacq'
    refine .inl ⟨.inr ⟨hctl', hacq'⟩, ?_⟩
    rw [left, hctl']
    dsimp only
    omega
  | adquire scope' retry' pc' =>
    rw [hctl'] at hmove
    cases hmove with
    | stays hstay =>
      have hnot : e.ofThread = false := by
        cases e with
        | run | timeout => cases hstay
        | wake => exact absurd hstay (by simp [movesThread, Wakes])
        | _ => rfl
      refine .inr (hsame pc hctl' ?_)
      rw [hnot]
      exact le_rfl
    | begins hpc _ _ =>
      subst hpc
      refine .inr (hsame _ hctl' ?_)
      simp [Pc.toGo, Pc.inPass]
      omega
    | givesUp hpc =>
      -- all resources have been reset, so nothing is left in their tables
      subst hpc
      have hacq := h.acquiring
      rw [Acquiring, hctl] at hacq
      obtain ⟨-, hsub, hcoh⟩ := hacq
      have hlock : I'.lock = I.lock := by
        rcases adquire_cases hctl he hs with ⟨-, hr⟩ | ⟨-, -, -, hstay⟩ | ⟨-, hw⟩ | ⟨-, ht⟩
        · rw [run, hctl] at hr
          obtain ⟨rfl, -⟩ := Prod.mk.inj (Option.some.inj hr)
          rfl
        · rw [hstay, hctl] at hctl'
          have hpc : Pc.resetting [] = .backoff := (Ctl.adquire.inj hctl').2.2
          cases hpc
        · rw [hctl] at hw
          cases hw
        · rw [onTimeout, hctl] at ht
          cases ht
      have hclear : ∀ r ∈ I'.lock.targets scope, I'.lock.Clear r := by
        rw [hlock]
        exact Visited.all hcoh
      refine .inl ⟨.inl ⟨hacq', roomy_of_clear hclear hcounts', ?_, hready', hbegun'⟩, ?_⟩
      · rw [Hopeful, hctl']
        exact fun _ => hmay hnext
      · rw [left, hctl']
        dsimp only
        rw [hnames]
        simp [Pc.left, Pc.toGo, Pc.ahead, Pc.inPass]
        omega
    | isCut hpc hw =>
      have hwin := hc.inWindow hw
      rw [Inst.inWindow, hctl, hpc] at hwin
      cases hwin
    | proceeds _ _ hpass _ hlt =>
      refine .inr (hsame pc' hctl' ?_)
      rw [hpass]
      omega
  | _ => rw [hctl'] at hmove; cases hmove

/-- Before a pass has failed the thread can go on. -/
lemma First.canMove (h : I.First scope) :
    (∀ b, I.ctl ≠ .free b) ∧ (I.CanMove ∨ I.AwaitsReady) := by
  obtain ⟨retry, pc, hctl, -⟩ := h.ctl
  have hnot : ∀ b, I.ctl ≠ .free b := by
    intro b hfree
    rw [hctl] at hfree
    cases hfree
  exact ⟨hnot, canMove_of_acquiring h.acquiring h.ready h.begun hnot⟩

/-- The bound on the moves at any position. -/
lemma First.bound (h : I.First scope) : I.first ≤ 12 * (I.lock.targets scope).length + 21 := by
  obtain ⟨retry, pc, hctl, -⟩ := h.ctl
  have hacq := h.acquiring
  rw [Acquiring, hctl] at hacq
  obtain ⟨-, -, hc⟩ := hacq
  rw [first, hctl]
  dsimp only
  cases pc with
  | start rest | starting rest =>
    have := hc.2.length_le
    simp only [Pc.toGo, Pc.inPass, if_true, Bool.false_eq_true, if_false]
    omega
  | waitForReady r rest =>
    have := hc.2.2.length_le
    simp only [Pc.toGo, Pc.inPass, Bool.false_eq_true, if_false]
    omega
  | announcing rest | checking rest | resetting rest =>
    have := hc.length_le
    simp only [Pc.toGo, Pc.inPass, if_true]
    omega
  | marking r rest =>
    have := hc.length_le
    rw [List.length_cons] at this
    simp only [Pc.toGo, Pc.inPass, if_true]
    omega
  | loop | listening | colliding | backoff | backingOff =>
    simp only [Pc.toGo, Pc.inPass, if_true, Bool.false_eq_true, if_false]
    omega

/-- What holds when the function has been called. -/
lemma first_enter (hne : res = [] → L.names ≠ [])
    (hcounts : ∀ r ∈ L.targets (scopeOf res), ∀ R, L.getResource r = some R → 0 < R.count)
    (hretry : L.retryMax ≠ 1) (hready : res = [] → Ready none ⟨L, .free none⟩) :
    (enter L (.acquire res)).First (scopeOf res) ∧
      (enter L (.acquire res)).first =
        L.tryBound res + (5 * (L.targets (scopeOf res)).length + 9) := by
  cases res with
  | nil =>
    obtain ⟨heq, hacq⟩ := acquiring_enter (hne rfl)
    rw [heq] at hacq ⊢
    refine ⟨⟨hacq, ⟨0, _, rfl, L.mayTry_zero, Lock.mayTry_one hretry⟩, hcounts,
      fun _ => hready rfl, fun _ _ _ hctl => ?_⟩, ?_⟩
    · cases hctl
    · simp only [first, Pc.toGo, Pc.inPass, Lock.tryBound, Lock.targets, scopeOf]
      simp
      omega
  | cons b bs =>
    have hmax : (L.createResource (b :: bs)).retryMax ≠ 1 :=
      ne_of_eq_of_ne Lock.createResource_retryMax hretry
    refine ⟨⟨coherent_enter L _ _ _ _ rfl, ⟨0, _, rfl, Lock.mayTry_zero _, Lock.mayTry_one hmax⟩,
      fun r hr R hR => ?_, fun h => (by cases h), fun _ _ _ hctl => ?_⟩, rfl⟩
    · rw [getResource_enter] at hR
      split_ifs at hR
      · obtain rfl := Option.some.inj hR
        cases hold : L.getResource r with
        | none => exact UInt32.lt_iff_toNat_lt.mpr Nat.zero_lt_one
        | some R => exact hcounts r hr R hold
      · exact hcounts r hr R hR
    · obtain ⟨-, -, rfl⟩ := Ctl.adquire.inj hctl
      rfl

/-- **Holders that have fallen silent cost one pass.**  Whatever the tables say when `acquire` is
called, for example because other holders have crashed: if no attempt and no holder is heard from
then on, at most one pass fails, and the function succeeds with the next one. -/
theorem acquire_stale (res : Name) (hne : res = [] → I₀.lock.names ≠ [])
    (hcounts : ∀ r ∈ I₀.lock.targets (scopeOf res), ∀ R,
      I₀.lock.getResource r = some R → 0 < R.count)
    (hretry : I₀.lock.retryMax ≠ 1) (hready : res = [] → I₀.Ready none)
    (hcall : I₀.step (.call (.acquire res)) = some (I₁, []))
    (hrun : Lib.Run trace (fun s e => s.1.Calm (scopeOf res) e) (I₁, []) es s) :
    es.countP Event.ofThread ≤
        I₀.lock.tryBound res + (5 * (I₀.lock.targets (scopeOf res)).length + 9) ∧
      (s.1.Succeeded (scopeOf res) ∨
        (∀ b, s.1.ctl ≠ .free b) ∧ (s.1.CanMove ∨ s.1.AwaitsReady)) := by
  obtain ⟨-, rfl, -⟩ := step_call hcall
  obtain ⟨h₁, hbound⟩ := first_enter hne hcounts hretry hready
  obtain ⟨hend, hcount⟩ := hrun.countP_le_of_phases (I := fun s => s.1.Settled (scopeOf res))
    (J := fun s => s.1.First (scopeOf res)) (μ := fun s => s.1.left) (ν := fun s => s.1.first)
    Event.ofThread
    (fun s e s' h hc hst => by
      obtain ⟨⟨I', sent⟩, hs, rfl⟩ := Option.map_eq_some_iff.mp hst
      exact settled_step h hc hs)
    (fun s e s' h hc hst => by
      obtain ⟨⟨I', sent⟩, hs, rfl⟩ := Option.map_eq_some_iff.mp hst
      exact first_step h hc hs) h₁
  rw [hbound] at hcount
  refine ⟨hcount, ?_⟩
  rcases hend with hsettled | hfirst
  · exact hsettled.outcome
  · exact .inr hfirst.canMove

/-- An instance that has heard of a holder of `a`, of which there may be one. -/
def haunted : Inst :=
  ⟨((Lock.new 1 50).defineResource [97] 1).modify [97] fun R => R.updateMember 2 .acquired 1,
    .free none⟩

/-- An attempt whose first pass fails. -/
def secondAttempt : List Event :=
  [.run, .run, .run, .timeout, .run, .run, .timeout, .run, .run, .run, .run, .timeout,
    .run, .run, .run, .timeout, .run, .run, .timeout, .run, .run, .run]

/-- The holder has crashed, and the second pass succeeds. -/
theorem acquire_stale_haunted :
    ∃ I₁ s, haunted.step (.call (.acquire [97])) = some (I₁, []) ∧
      Lib.Run trace (fun s e => s.1.Calm (some [97]) e) (I₁, []) secondAttempt s ∧
      secondAttempt.countP Event.ofThread ≤ 29 ∧ s.1.ctl = .free (some true) := by
  have hcall : haunted.step (.call (.acquire [97])) =
      some (enter haunted.lock (.acquire [97]), []) := rfl
  have hexec : (Lib.exec trace (fun s e => s.1.Calm (some [97]) e)
      (enter haunted.lock (.acquire [97]), []) secondAttempt).map (fun s => s.1.ctl) =
        some (.free (some true)) := by decide
  obtain ⟨s, hs, hctl⟩ := Option.map_eq_some_iff.mp hexec
  obtain ⟨hcount, -⟩ := acquire_stale [97] (by simp) (by decide) (by decide) (by simp) hcall
    (.of_exec hs)
  exact ⟨_, s, hcall, .of_exec hs, hcount, hctl⟩

end Inst
end DistLock
