/-
How long `adquire_lock` tries.

A pass that fails its check, or is disturbed in the collision wait, increments the retry
counter.  A pass whose listening is interrupted does not, so the bound on the retries bounds
the passes only together with the interrupted ones (`passes_bounded`).  Without interruptions
the function returns: a potential decreases with every move of the calling thread.
-/
import DistLock.Acquire.Coherent
import DistLock.Acquire.Interrupt

namespace DistLock

/-- A call of `acquire` at work, with a count of the passes of the retry loop that it has begun,
of the listenings that have been interrupted, and of the moves of the calling thread. -/
structure Bout where
  inst : Inst
  passes : ℕ
  interrupted : ℕ
  moves : ℕ

namespace Inst

/-- The thread begins a pass of the retry loop. -/
def startsPass (I : Inst) : Event → Bool
  | .run =>
    match I.ctl with
    | .adquire _ retry .loop => I.lock.mayTry retry
    | _ => false
  | _ => false

/-- The listening of `adquire_lock` is interrupted. -/
def cutsListening (I : Inst) (e : Event) : Bool :=
  match I.ctl with
  | .adquire _ _ .listening => I.Wakes e
  | _ => false

/-- The event moves the calling thread. -/
def movesThread (I : Inst) (e : Event) : Bool := e = .run ∨ e = .timeout ∨ I.Wakes e

end Inst

/-- One step of the call. -/
def Bout.step (s : Bout) (e : Event) : Option Bout :=
  (s.inst.step e).map fun s' =>
    { inst := s'.1
      passes := s.passes + (s.inst.startsPass e).toNat
      interrupted := s.interrupted + (s.inst.cutsListening e).toNat
      moves := s.moves + (s.inst.movesThread e).toNat }

/-! ### The potential -/

/-- How many moves at most lead from a position to the head of the retry loop or to the end of
the function, with `N` resources and without interruptions. -/
def Pc.toGo (N : ℕ) : Pc → ℕ
  | start rest => 2 * rest.length + 1
  | waitForReady _ rest => 2 * rest.length + 2
  | loop => 0
  | starting rest => rest.length + 4 * N + 8
  | listening => 4 * N + 7
  | announcing rest => rest.length + 3 * N + 6
  | colliding => 3 * N + 5
  | checking rest => 2 * rest.length + N + 4
  | marking _ rest => 2 * rest.length + N + 5
  | resetting rest => rest.length + 3
  | backoff => 2
  | backingOff => 1

/-- The positions from the head of the retry loop on. -/
def Pc.begun : Pc → Bool
  | start _ | waitForReady _ _ => false
  | _ => true

/-- The passes that may still begin. -/
def Pc.passesLeft (n retry : ℕ) (pc : Pc) : ℕ := n - retry - pc.inPass.toNat

/-- How many moves at most are left of the call. -/
def Inst.potential (n N : ℕ) (I : Inst) : ℕ :=
  match I.ctl with
  | .adquire _ retry pc => pc.passesLeft n retry.toNat * (5 * N + 9) + pc.toGo N + 1
  | _ => 0

namespace Inst

variable {I I' : Inst} {e : Event} {sent : List DLPacket} {scope : Option Name}
  {retry : UInt32} {pc : Pc}

/-- How an event moves the calling thread inside `adquire_lock`. -/
inductive Moves (I : Inst) (e : Event) (scope : Option Name) (retry : UInt32) (pc : Pc) :
    Ctl → Prop
  /-- It stays where it is. -/
  | stays (h : I.movesThread e = false) : Moves I e scope retry pc (.adquire scope retry pc)
  /-- The function returns, from the head of the loop or with the resources acquired. -/
  | returns (b : Bool) (h : pc = .loop ∧ ¬ I.lock.mayTry retry ∨ pc.inPass = true) :
    Moves I e scope retry pc (.free (some b))
  /-- A pass begins. -/
  | begins (hpc : pc = .loop) (he : e = .run) (h : I.lock.mayTry retry) :
    Moves I e scope retry pc (.adquire scope retry (.starting (I.lock.targets scope)))
  /-- A pass is given up and counted. -/
  | givesUp (h : pc = .resetting []) :
    Moves I e scope retry pc (.adquire scope (retry + 1) .backoff)
  /-- The listening is interrupted, and the pass is not counted. -/
  | isCut (h : pc = .listening) (hw : I.Wakes e) :
    Moves I e scope retry pc (.adquire scope retry .backoff)
  /-- It comes closer to the end of a loop or of a wait. -/
  | proceeds (pc' : Pc) (h : ¬ (pc = .listening ∧ I.Wakes e)) (hpass : pc'.inPass = pc.inPass)
      (hbegun : pc.begun = true → pc'.begun = true)
      (hlt : pc'.toGo (I.lock.targets scope).length < pc.toGo (I.lock.targets scope).length) :
    Moves I e scope retry pc (.adquire scope retry pc')

lemma moves_step (hctl : I.ctl = .adquire scope retry pc) (he : e.isCall = false)
    (hs : I.step e = some (I', sent)) : Moves I e scope retry pc I'.ctl := by
  rcases adquire_cases hctl he hs with ⟨rfl, hr⟩ | ⟨h₁, h₂, h₃, hctl'⟩ | ⟨hwakes, hw⟩ | ⟨rfl, ht⟩
  · rw [run, hctl] at hr
    have hnot : ¬ (pc = .listening ∧ I.Wakes .run) := fun h => h.2
    cases pc with
    | start rest | starting rest | announcing rest =>
      cases rest with
      | nil | cons r rest =>
        obtain ⟨rfl, -⟩ := Prod.mk.inj (Option.some.inj hr)
        exact .proceeds _ hnot rfl (by simp [Pc.begun]) (by
          simp only [Pc.toGo, List.length_cons, List.length_nil]
          omega)
    -- the condition of the retry loop decides between another pass and the return
    | loop =>
      simp only [adquireLock] at hr
      split_ifs at hr with hmay <;> obtain ⟨rfl, -⟩ := Prod.mk.inj (Option.some.inj hr)
      · exact .begins rfl rfl hmay
      · exact .returns false (.inl ⟨rfl, hmay⟩)
    | checking rest =>
      cases rest with
      | nil =>
        obtain ⟨rfl, -⟩ := Prod.mk.inj (Option.some.inj hr)
        exact .returns true (.inr rfl)
      | cons r rest =>
        simp only [adquireLock] at hr
        split_ifs at hr <;> obtain ⟨rfl, -⟩ := Prod.mk.inj (Option.some.inj hr) <;>
          exact .proceeds _ hnot rfl (by simp [Pc.begun]) (by
            simp only [Pc.toGo, List.length_cons]
            omega)
    | marking r rest | backoff =>
      obtain ⟨rfl, -⟩ := Prod.mk.inj (Option.some.inj hr)
      exact .proceeds _ hnot rfl (by simp [Pc.begun]) (by simp only [Pc.toGo]; omega)
    | resetting rest =>
      cases rest with
      | nil =>
        obtain ⟨rfl, -⟩ := Prod.mk.inj (Option.some.inj hr)
        exact .givesUp rfl
      | cons r rest =>
        obtain ⟨rfl, -⟩ := Prod.mk.inj (Option.some.inj hr)
        exact .proceeds _ hnot rfl (by simp [Pc.begun]) (by
          simp only [Pc.toGo, List.length_cons]
          omega)
    | waitForReady r rest | listening | colliding | backingOff =>
      exact absurd hr (by simp [adquireLock])
  · -- nothing that concerns the calling thread
    rw [hctl', hctl]
    exact .stays (by simp [movesThread, h₁, h₂, h₃])
  · have hnames : I'.lock.targets scope = I.lock.targets scope :=
      Lock.targets_congr (frame_step he hs).names_eq scope
    rw [hctl] at hw
    cases pc with
    | listening =>
      rw [← congrArg Inst.ctl (Option.some.inj hw)]
      exact .isCut rfl hwakes
    -- the loop of the resets is no longer than that of the check
    | colliding =>
      rw [← congrArg Inst.ctl (Option.some.inj hw)]
      refine .proceeds _ (by simp) rfl (fun h => h) ?_
      show (I'.lock.targets scope).length + 3 < _
      rw [hnames, Pc.toGo]
      omega
    | waitForReady r rest | backingOff =>
      rw [← congrArg Inst.ctl (Option.some.inj hw)]
      exact .proceeds _ (by simp) rfl (by simp [Pc.begun]) (by simp only [Pc.toGo]; omega)
    | _ => exact absurd hw (by simp [onWake])
  · have hnot : ¬ (pc = .listening ∧ I.Wakes .timeout) := fun h => h.2
    rw [onTimeout, hctl] at ht
    cases pc with
    | listening | colliding | backingOff =>
      obtain rfl := Option.some.inj ht
      exact .proceeds _ hnot rfl (by simp [Pc.begun]) (by simp only [Pc.toGo]; omega)
    | _ => exact absurd ht (by simp)

lemma startsPass_of_ne (hctl : I.ctl = .adquire scope retry pc) (hpc : pc ≠ .loop) :
    I.startsPass e = false := by
  unfold startsPass
  rw [hctl]
  cases e with
  | run => cases pc <;> first | exact absurd rfl hpc | rfl
  | _ => rfl

lemma cutsListening_iff (hctl : I.ctl = .adquire scope retry pc) :
    I.cutsListening e = true ↔ pc = .listening ∧ I.Wakes e := by
  rw [cutsListening, hctl]
  cases pc <;> simp

lemma cutsListening_of_not (hctl : I.ctl = .adquire scope retry pc)
    (h : ¬ (pc = .listening ∧ I.Wakes e)) : I.cutsListening e = false :=
  Bool.eq_false_iff.mpr fun hc => h ((cutsListening_iff hctl).mp hc)

/-- After the function has returned nothing moves. -/
lemma free_step {b : Option Bool} (hctl : I.ctl = .free b) (he : e.isCall = false)
    (hs : I.step e = some (I', sent)) : I'.ctl = .free b ∧ I.movesThread e = false := by
  rcases step_cases he hs with ⟨-, hr⟩ | ⟨hne, hr⟩
  · exact absurd hr (by simp [run, hctl])
  · have hctl' : I'.ctl = .free b := by
      rcases hr with hr | hr | hr | ⟨n, hr⟩
      · rw [hr, hctl]
      all_goals exact absurd hr (by simp [onWake, onTimeout, onElapsed, hctl])
    refine ⟨hctl', ?_⟩
    cases e with
    | timeout => exact absurd hs (by simp [step, onTimeout, hctl])
    | wake => exact absurd hs (by simp [step, onWake, hctl])
    | deliver pkt => simp [movesThread, Wakes, Interrupts, heeds, hctl]
    | run => exact absurd rfl hne
    | _ => simp [movesThread, Wakes]

end Inst

/-! ### The counts -/

namespace Bout

variable {n N fuel : ℕ} {s s' : Bout} {e : Event}

/-- The passes are those that have been counted, those whose listening has been interrupted, and
the one that is under way. -/
def Tallied (n N : ℕ) (s : Bout) : Prop :=
  match s.inst.ctl with
  | .adquire scope retry pc => (s.inst.lock.targets scope).length = N ∧
      retry.toNat + pc.inPass.toNat ≤ n ∧
      s.passes = retry.toNat + s.interrupted + pc.inPass.toNat
  | .free _ => s.passes ≤ n + s.interrupted
  | _ => False

/-- What holds of a call of `acquire` at work: `n` is the bound on the retries, `N` the number of
resources. -/
structure Bounded (n N fuel : ℕ) (s : Bout) : Prop where
  retryMax : s.inst.lock.retryMax.toNat = n
  tallied : s.Tallied n N
  moves : s.interrupted = 0 → s.moves + s.inst.potential n N ≤ fuel

lemma mayTry_iff {L : Lock} (retry : UInt32) (hn : 0 < n) (h : L.retryMax.toNat = n) :
    L.mayTry retry ↔ retry.toNat < n := by
  rw [Lock.mayTry, UInt32.lt_iff_toNat_lt, h, or_iff_right]
  rintro h₀
  rw [h₀, UInt32.toNat_zero] at h
  omega

lemma bounded_step (hn : 0 < n) (h : s.Bounded n N fuel) (he : e.isCall = false)
    (hst : s.step e = some s') : s'.Bounded n N fuel := by
  obtain ⟨⟨I', sent⟩, hs, rfl⟩ := Option.map_eq_some_iff.mp hst
  obtain ⟨I, p, i, m⟩ := s
  obtain ⟨hmax, htal, hmoves⟩ := h
  change I.lock.retryMax.toNat = n at hmax
  change i = 0 → m + I.potential n N ≤ fuel at hmoves
  have hf := Inst.frame_step he hs
  have hnames : ∀ scope, I'.lock.targets scope = I.lock.targets scope :=
    Lock.targets_congr hf.names_eq
  have hone : (I.movesThread e).toNat ≤ 1 := Bool.toNat_le _
  suffices h : Tallied n N ⟨I', p + (I.startsPass e).toNat, i + (I.cutsListening e).toNat,
      m + (I.movesThread e).toNat⟩ ∧
    (i + (I.cutsListening e).toNat = 0 → m + (I.movesThread e).toNat + I'.potential n N ≤ fuel)
    from ⟨by rw [hf.retryMax_eq, hmax], h.1, h.2⟩
  cases hctl : I.ctl with
  | free b =>
    obtain ⟨hctl', hstay⟩ := Inst.free_step hctl he hs
    have hstart : I.startsPass e = false := by
      unfold Inst.startsPass
      rw [hctl]
      cases e <;> rfl
    rw [Tallied, hctl] at htal
    rw [Inst.potential, hctl] at hmoves
    simp only [Tallied, Inst.potential, hctl', hstay, hstart, Inst.cutsListening, hctl,
      Bool.toNat_false, Nat.add_zero]
    exact ⟨htal, hmoves⟩
  | adquire scope retry pc =>
    rw [Tallied, hctl] at htal
    simp only [Inst.potential, hctl, Pc.passesLeft] at hmoves
    simp only [Tallied, Inst.potential, Pc.passesLeft]
    obtain ⟨hN, hle, hp⟩ := htal
    change (I.lock.targets scope).length = N at hN
    change p = retry.toNat + i + pc.inPass.toNat at hp
    have hmay := mayTry_iff retry hn hmax
    have hmove := Inst.moves_step hctl he hs
    cases hctl' : I'.ctl with
    | free b =>
      have hstart : I.startsPass e = false := by
        rw [hctl'] at hmove
        cases hmove with
        | returns b h =>
          rcases h with ⟨rfl, hnot⟩ | hpass
          · unfold Inst.startsPass
            rw [hctl]
            cases e <;> simp [hnot]
          · refine Inst.startsPass_of_ne hctl ?_
            rintro rfl
            exact absurd hpass (by simp [Pc.inPass])
      simp only [hstart, Bool.toNat_false, Nat.add_zero]
      exact ⟨by omega, fun hi => by have := hmoves (by omega); omega⟩
    | adquire scope' retry' pc' =>
      rw [hctl'] at hmove
      dsimp only
      cases hmove with
      | stays h =>
        have hrun : e ≠ .run := by
          rintro rfl
          exact absurd h (by simp [Inst.movesThread])
        have hstart : I.startsPass e = false := by
          unfold Inst.startsPass
          cases e <;> first | exact absurd rfl hrun | rfl
        have hcut : I.cutsListening e = false :=
          Inst.cutsListening_of_not hctl fun hc => absurd h (by simp [Inst.movesThread, hc.2])
        simp only [h, hstart, hcut, Bool.toNat_false, Nat.add_zero, hnames]
        exact ⟨⟨hN, hle, hp⟩, hmoves⟩
      | begins hpc he hm =>
        subst hpc he
        have hstart : I.startsPass .run = true := by simp [Inst.startsPass, hctl, hm]
        have hcut : I.cutsListening .run = false := Inst.cutsListening_of_not hctl (by simp)
        have hlt := hmay.mp hm
        simp only [Pc.inPass, Bool.toNat_false, Nat.add_zero, Nat.sub_zero, Pc.toGo] at hp hmoves
        simp only [hstart, hcut, Bool.toNat_false, Bool.toNat_true, Nat.add_zero, hnames, hN,
          Pc.inPass, Pc.toGo]
        refine ⟨⟨trivial, hlt, by omega⟩, fun hi => ?_⟩
        -- one pass less may begin
        have hleft : n - retry.toNat = n - retry.toNat - 1 + 1 := by omega
        have := hmoves hi
        rw [hleft, Nat.add_mul, Nat.one_mul] at this
        omega
      | givesUp hpc =>
        subst hpc
        have hstart : I.startsPass e = false := Inst.startsPass_of_ne hctl (by simp)
        have hcut : I.cutsListening e = false := Inst.cutsListening_of_not hctl (by simp)
        simp only [Pc.inPass, Bool.toNat_true, Pc.toGo, List.length_nil] at hp hmoves hle
        have hmax := I.lock.retryMax.toNat_lt
        have hnext : (retry + 1).toNat = retry.toNat + 1 :=
          BitVec.toNat_add_of_lt (show retry.toNat + 1 < 2 ^ 32 by omega)
        simp only [hstart, hcut, Bool.toNat_false, Nat.add_zero, Nat.sub_zero, hnames, hN,
          Pc.inPass, Pc.toGo, hnext]
        refine ⟨⟨trivial, hle, by omega⟩, fun hi => ?_⟩
        have := hmoves hi
        rw [Nat.sub_sub] at this
        omega
      | isCut hpc hw =>
        subst hpc
        have hstart : I.startsPass e = false := Inst.startsPass_of_ne hctl (by simp)
        have hcut : I.cutsListening e = true := (Inst.cutsListening_iff hctl).mpr ⟨rfl, hw⟩
        simp only [Pc.inPass, Bool.toNat_true] at hp hle
        simp only [hstart, hcut, Bool.toNat_false, Bool.toNat_true, Nat.add_zero, hnames, hN,
          Pc.inPass]
        exact ⟨⟨trivial, by omega, by omega⟩, fun hi => absurd hi (by omega)⟩
      | proceeds _ hnot hpass _ hlt =>
        have hstart : I.startsPass e = false := by
          refine Inst.startsPass_of_ne hctl ?_
          rintro rfl
          exact absurd hlt (by simp [Pc.toGo])
        have hcut : I.cutsListening e = false := Inst.cutsListening_of_not hctl hnot
        rw [hN] at hlt
        simp only [hstart, hcut, Bool.toNat_false, Nat.add_zero, hnames, hN, hpass]
        refine ⟨⟨trivial, hle, hp⟩, fun hi => ?_⟩
        have := hmoves hi
        omega
    | _ => rw [hctl'] at hmove; cases hmove
  | _ => rw [Tallied, hctl] at htal; exact htal.elim

end Bout

/-- How many moves a call of `acquire` takes at most when no listening is interrupted. -/
def Lock.moveBound (L : Lock) : Name → ℕ
  | [] => L.retryMax.toNat * (5 * L.names.length + 9) + 2 * L.names.length + 2
  | _ :: _ => L.retryMax.toNat * 14 + 1

namespace Inst

variable {I I' : Inst} {e : Event} {sent : List DLPacket} {res : Name}

/-- The calling thread can take a step, or its wait has a timeout. -/
def CanMove (I : Inst) : Prop := I.run ≠ none ∨ I.onTimeout ≠ none

/-- The calling thread waits in `waitForReady` for the beacon thread of a resource that has not been
released.  Whether the notification comes is up to that thread (`DistLock.Beacon.Ready`). -/
def AwaitsReady (I : Inst) : Prop :=
  ∃ scope retry r rest R, I.ctl = .adquire scope retry (.waitForReady r rest) ∧
    I.lock.getResource r = some R ∧ R.running = true

/-- The beacon threads of the resources that are acquired run. -/
def Ready (scope : Option Name) (I : Inst) : Prop :=
  ∀ r R, r ∈ I.lock.targets scope → I.lock.getResource r = some R → R.running = true

/-- Inside `adquire_lock` no beacon thread is stopped. -/
lemma ready_step {scope : Option Name} (hacq : I.Acquiring scope) (h : I.Ready scope)
    (he : e.isCall = false) (hs : I.step e = some (I', sent)) : I'.Ready scope := by
  have hf := frame_step he hs
  intro r R hr hR
  rw [Lock.targets_congr hf.names_eq] at hr
  rw [hf.resource] at hR
  obtain ⟨R₀, hR₀, rfl⟩ := Option.map_eq_some_iff.mp hR
  rw [change_running fun _ hn => (mem_targets_of_next hacq hn).2 rfl]
  exact h r R₀ hr hR₀

/-- `adquire_lock(res)` has no loop that waits for the beacon threads. -/
def Begun (I : Inst) : Prop :=
  ∀ res retry pc, I.ctl = .adquire (some res) retry pc → pc.begun = true

lemma begun_step (h : I.Begun) (he : e.isCall = false) (hs : I.step e = some (I', sent)) :
    I'.Begun := by
  intro res retry pc hctl'
  obtain ⟨retry₀, pc₀, hctl⟩ := adquire_of_step he hs hctl'
  have hmove := moves_step hctl he hs
  rw [hctl'] at hmove
  cases hmove with
  | proceeds _ _ _ hbegun _ => exact hbegun (h res _ pc₀ hctl)
  | stays _ => exact h res _ pc hctl
  | _ => rfl

/-- Only `waitForReady` waits without a timeout. -/
lemma canMove_or_waits {scope : Option Name} (hacq : I.Acquiring scope)
    (hfree : ∀ b, I.ctl ≠ .free b) :
    I.CanMove ∨ ∃ r ∈ I.lock.names, I.waitsOn = some (.startedCv r) := by
  cases hctl : I.ctl with
  | adquire scope' retry pc =>
    rw [Acquiring, hctl] at hacq
    obtain ⟨rfl, hsub, hc⟩ := hacq
    cases pc with
    | start rest | starting rest | announcing rest | resetting rest =>
      exact .inl (.inl (by cases rest <;> simp [run, hctl, adquireLock]))
    | checking rest =>
      refine .inl (.inl ?_)
      cases rest with
      | nil => simp [run, hctl, adquireLock]
      | cons r rest =>
        rw [run, hctl]
        simp only [adquireLock]
        split_ifs <;> simp
    | loop =>
      refine .inl (.inl ?_)
      rw [run, hctl]
      simp only [adquireLock]
      split_ifs <;> simp
    | marking r rest | backoff => exact .inl (.inl (by simp [run, hctl, adquireLock]))
    | listening | colliding | backingOff => exact .inl (.inr (by simp [onTimeout, hctl]))
    | waitForReady r rest =>
      exact .inr ⟨r, hsub r hc.1, waitsOn_startedCv.mpr ⟨scope', retry, rest, hctl⟩⟩
  | free b => exact absurd hctl (hfree b)
  | _ => rw [Acquiring, hctl] at hacq; exact hacq.elim

lemma canMove_of_acquiring {scope : Option Name} (hacq : I.Acquiring scope)
    (hready : scope = none → I.Ready none) (hbegun : I.Begun) (hfree : ∀ b, I.ctl ≠ .free b) :
    I.CanMove ∨ I.AwaitsReady := by
  refine (canMove_or_waits hacq hfree).imp_right ?_
  rintro ⟨r, hr, hw⟩
  obtain ⟨scope', retry, rest, hctl⟩ := waitsOn_startedCv.mp hw
  rw [Acquiring, hctl] at hacq
  obtain ⟨rfl, -, hc⟩ := hacq
  cases scope' with
  | some res => exact absurd (hbegun res retry _ hctl) (by simp [Pc.begun])
  | none =>
    obtain ⟨R, hR⟩ := Lock.mem_names_iff.mp hr
    exact ⟨none, retry, r, rest, R, hctl, hR, hready rfl r R hc.1 hR⟩

end Inst

lemma Inst.enter_acquire_nil {L : Lock} (h : L.names = []) :
    Inst.enter L (.acquire []) = ⟨L, .free (some false)⟩ := by
  have hlen : L.resources.entries.length = 0 := by
    have := congrArg List.length h
    simpa [Lock.names, Lib.OrdMap.keys, List.keys] using this
  rw [Inst.enter, if_pos hlen]

/-- What holds when the function has been called. -/
lemma Bout.bounded_enter (L : Lock) (res : Name) :
    ∃ N, Bounded L.retryMax.toNat N (L.moveBound res)
      ⟨Inst.enter L (.acquire res), 0, 0, 0⟩ := by
  cases res with
  | nil =>
    refine ⟨L.names.length, ?_⟩
    by_cases hne : L.names = []
    · rw [Inst.enter_acquire_nil hne]
      exact ⟨rfl, Nat.zero_le _, fun _ => Nat.zero_le _⟩
    · rw [(Inst.acquiring_enter hne).1]
      refine ⟨rfl, ⟨rfl, Nat.zero_le _, rfl⟩, fun _ => ?_⟩
      simp only [Inst.potential, Pc.passesLeft, Pc.inPass, Bool.toNat_false, Nat.sub_zero, Pc.toGo,
        Lock.moveBound, UInt32.toNat_zero]
      omega
  | cons b bs =>
    have hmax : (L.createResource (b :: bs)).retryMax = L.retryMax := by
      unfold Lock.createResource
      split <;> rfl
    refine ⟨1, ?_, ⟨rfl, Nat.zero_le _, rfl⟩, fun _ => ?_⟩
    · show (L.createResource (b :: bs)).retryMax.toNat = _
      rw [hmax]
    · simp only [Inst.potential, Inst.enter, Pc.passesLeft, Pc.inPass, Bool.toNat_false,
        Nat.sub_zero, Pc.toGo, Lock.moveBound, UInt32.toNat_zero]
      omega

/-- What holds of the resources when the function has been called. -/
lemma Inst.acquiring_of_enter (L : Lock) (res : Name) :
    ∃ scope, (scope = none → res = []) ∧ (Inst.enter L (.acquire res)).Acquiring scope ∧
      (Inst.enter L (.acquire res)).Begun := by
  cases res with
  | nil =>
    refine ⟨none, fun _ => rfl, ?_⟩
    by_cases hne : L.names = []
    · rw [Inst.enter_acquire_nil hne]
      refine ⟨fun r hr => ?_, fun _ _ _ hctl => absurd hctl (by simp)⟩
      rw [show L.targets none = [] from hne] at hr
      exact absurd hr List.not_mem_nil
    · obtain ⟨heq, hacq⟩ := Inst.acquiring_enter hne
      refine ⟨hacq, fun _ _ _ hctl => ?_⟩
      rw [heq] at hctl
      exact absurd hctl (by simp)
  | cons b bs =>
    refine ⟨some (b :: bs), by simp, Inst.coherent_enter L _ _ _ _ rfl, fun _ _ _ hctl => ?_⟩
    obtain ⟨-, -, rfl⟩ := Ctl.adquire.inj hctl
    rfl

/-- **How long `acquire` tries.** -/
theorem passes_bounded {I₀ I₁ : Inst} {res : Name} {es : List Event} {s : Bout}
    (hn : 0 < I₀.lock.retryMax) (hcall : I₀.step (.call (.acquire res)) = some (I₁, []))
    (hrun : Lib.Run Bout.step (fun _ e => e.isCall = false) ⟨I₁, 0, 0, 0⟩ es s) :
    s.passes ≤ I₀.lock.retryMax.toNat + s.interrupted ∧
    (∀ scope retry, s.inst.ctl = .adquire scope retry .loop →
      s.passes = I₀.lock.retryMax.toNat →
      (s.inst.run = some (⟨s.inst.lock, .free (some false)⟩, []) ↔ s.interrupted = 0)) ∧
    (s.interrupted = 0 →
      s.passes ≤ I₀.lock.retryMax.toNat ∧ s.moves ≤ I₀.lock.moveBound res) := by
  obtain ⟨-, rfl, -⟩ := Inst.step_call hcall
  obtain ⟨N, hstart⟩ := Bout.bounded_enter I₀.lock res
  have hpos : 0 < I₀.lock.retryMax.toNat := UInt32.lt_iff_toNat_lt.mp hn
  have hb : s.Bounded I₀.lock.retryMax.toNat N (I₀.lock.moveBound res) :=
    hrun.invariant (fun _ _ _ h he hst => Bout.bounded_step hpos h he hst) hstart
  have hpasses : s.passes ≤ I₀.lock.retryMax.toNat + s.interrupted := by
    have htal := hb.tallied
    rw [Bout.Tallied] at htal
    split at htal
    · omega
    · exact htal
    · exact htal.elim
  refine ⟨hpasses, fun scope retry hctl hp => ?_, fun hi => ⟨by omega, ?_⟩⟩
  · have htal := hb.tallied
    simp only [Bout.Tallied, hctl, Pc.inPass, Bool.toNat_false] at htal
    have hmay := Bout.mayTry_iff retry hpos hb.retryMax
    have hrun : s.inst.run = some (⟨s.inst.lock, .free (some false)⟩, []) ↔
        ¬ s.inst.lock.mayTry retry := by
      rw [Inst.run, hctl]
      simp only [Inst.adquireLock]
      split_ifs with h <;> simp [h]
    rw [hrun, hmay]
    omega
  · have := hb.moves hi
    omega

/-- An instance with the resource `a` that may try once. -/
def oneTry : Inst := ⟨{ (Lock.new 1 50).defineResource [97] 1 with retryMax := 1 }, .free none⟩

/-- A listening of `adquire_lock` that is interrupted by another instance, and the backoff. -/
def cutAttempt (starts : List Event) : List Event :=
  starts ++ [.deliver (((DLPacket.new State.acquiring.toByte 2).setResource [97]).setCount 1),
    .run, .timeout, .run]

/-- Both functions begin a second pass although only one is allowed. -/
theorem passes_exceeded :
    (∃ I₁ s, oneTry.step (.call (.acquire [97])) = some (I₁, []) ∧
      Lib.Run Bout.step (fun _ e => e.isCall = false) ⟨I₁, 0, 0, 0⟩
        (cutAttempt [.run, .run, .run]) s ∧
      s.inst.lock.retryMax = 1 ∧ s.passes = 2 ∧
      s.inst.ctl = .adquire (some [97]) 0 (.starting [[97]])) ∧
    ∃ I₁ s, oneTry.step (.call (.acquire [])) = some (I₁, []) ∧
      Lib.Run Bout.step (fun _ e => e.isCall = false) ⟨I₁, 0, 0, 0⟩
        (cutAttempt [.run, .wake, .run, .run, .run, .run]) s ∧
      s.inst.lock.retryMax = 1 ∧ s.passes = 2 ∧ s.inst.ctl = .adquire none 0 (.starting [[97]]) :=
  ⟨⟨_, _, rfl, Lib.Run.of_exec rfl, rfl, rfl, rfl⟩, ⟨_, _, rfl, Lib.Run.of_exec rfl, rfl, rfl, rfl⟩⟩

end DistLock
