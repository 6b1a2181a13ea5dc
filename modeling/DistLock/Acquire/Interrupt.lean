/-
What interrupts the waits of `adquire_lock`.

Its listening is interrupted by an `ACQUIRING` packet about any resource of the instance, its
collision wait by one about a resource that is being acquired or is held, and both may end
spuriously.  No other packet moves the calling thread (`adquire_cases`).
-/
import DistLock.Model.Spec

namespace DistLock

/-- The positions of a pass of the retry loop. -/
def Pc.inPass : Pc → Bool
  | starting _ | listening | announcing _ | colliding | checking _ | marking _ _
  | resetting _ => true
  | _ => false

namespace Inst

variable {I I' : Inst} {e : Event} {sent : List DLPacket} {pkt : DLPacket} {c : CondVar}
  {scope : Option Name} {retry : UInt32} {pc : Pc}

/-- The calling thread is in a pass of the retry loop. -/
def inPass (I : Inst) : Bool :=
  match I.ctl with
  | .adquire _ _ pc => pc.inPass
  | _ => false

/-- The calling thread waits for `ACQUIRING` packets about the resource. -/
def heeds (I : Inst) (R : Resource) : Bool :=
  match I.ctl with
  | .adquire _ _ .listening => true
  | .adquire _ _ .colliding => R.state = .acquiring ∨ R.state = .acquired
  | _ => false

/-- The delivery of the packet interrupts the wait of the calling thread. -/
def Interrupts (I : Inst) (pkt : DLPacket) : Prop :=
  State.ofByte pkt.state = .acquiring ∧ ∃ R ∈ I.addressee pkt, I.heeds R = true

instance (I : Inst) (pkt : DLPacket) : Decidable (I.Interrupts pkt) :=
  inferInstanceAs (Decidable (_ ∧ _))

/-- The event ends the wait of the calling thread before its timeout. -/
def Wakes (I : Inst) : Event → Prop
  | .wake => True
  | .deliver pkt => I.Interrupts pkt
  | _ => False

instance (I : Inst) : (e : Event) → Decidable (I.Wakes e)
  | .wake => isTrue trivial
  | .deliver pkt => inferInstanceAs (Decidable (I.Interrupts pkt))
  | .call _ | .run | .timeout | .elapsed _ | .beacon _ => isFalse id

lemma adquire_of_inPass (h : I.inPass = true) :
    ∃ scope retry pc, I.ctl = .adquire scope retry pc ∧ pc.inPass = true := by
  rw [inPass] at h
  split at h
  · next scope retry pc hctl => exact ⟨scope, retry, pc, hctl, h⟩
  · exact absurd h (by simp)

/-- The calling thread is in the wait of `waitForReady`. -/
lemma waitsOn_startedCv {r : Name} : I.waitsOn = some (.startedCv r) ↔
    ∃ scope retry rest, I.ctl = .adquire scope retry (.waitForReady r rest) := by
  constructor
  · intro h
    rw [waitsOn] at h
    split at h <;> simp only [Option.some.injEq, CondVar.startedCv.injEq, reduceCtorEq] at h
    next scope retry r' rest hctl => exact ⟨scope, retry, rest, h ▸ hctl⟩
  · rintro ⟨scope, retry, rest, hctl⟩
    rw [waitsOn, hctl]

lemma notify_of_ne (h : I.waitsOn ≠ some c) : I.notify c = I := if_neg h

lemma notify_of_eq (h : I.waitsOn = some c) (hw : I.onWake = some I') : I.notify c = I' := by
  rw [notify, if_pos h, hw]
  rfl

/-- A packet that reaches no resource changes nothing. -/
lemma actionPerformed_of_none (h : I.addressee pkt = none) :
    I.actionPerformed pkt = I ∧ I.hear pkt = I := by
  rw [actionPerformed, hear, h]
  exact ⟨rfl, rfl⟩

/-- The effect of a packet while the thread is inside `adquire_lock`. -/
lemma actionPerformed_adquire (pkt : DLPacket) (hctl : I.ctl = .adquire scope retry pc) :
    (¬ I.Interrupts pkt ∧ I.actionPerformed pkt = I.hear pkt) ∨
      (I.Interrupts pkt ∧ (I.hear pkt).onWake = some (I.actionPerformed pkt)) := by
  cases hR : I.addressee pkt with
  | none =>
    obtain ⟨h₁, h₂⟩ := actionPerformed_of_none hR
    exact .inl ⟨fun ⟨_, R, hR', _⟩ => absurd (hR.symm.trans hR') (by simp), h₁.trans h₂.symm⟩
  | some R =>
    have hh : I.hear pkt = I.record R pkt := by rw [hear, hR]
    have hctl' : (I.hear pkt).ctl = .adquire scope retry pc := hear_ctl.trans hctl
    set J := I.hear pkt with hJ
    -- nobody inside `adquire_lock` waits for `any_cv`
    have hany : J.notify .anyCv = J := by
      refine notify_of_ne ?_
      cases pc <;> simp [waitsOn, hctl']
    have hact : I.actionPerformed pkt =
        if State.ofByte pkt.state = .acquiring then
          if R.state = .acquiring ∨ R.state = .acquired then (J.notify .listenCv).notify .cv
          else J.notify .listenCv
        else J := by
      rw [actionPerformed, hR]
      dsimp only
      rw [← hh, hany]
    have hint : I.Interrupts pkt ↔ State.ofByte pkt.state = .acquiring ∧
        (pc = .listening ∨ pc = .colliding ∧ (R.state = .acquiring ∨ R.state = .acquired)) := by
      rw [Interrupts]
      refine and_congr_right fun _ => ?_
      simp only [hR, Option.mem_def, Option.some.injEq, exists_eq_left', heeds, hctl]
      cases pc <;> simp
    rw [hact, hint]
    by_cases hpkt : State.ofByte pkt.state = .acquiring
    · rw [if_pos hpkt]
      cases pc with
      | listening =>
        have hw : J.onWake = some { J with ctl := .adquire scope retry .backoff } := by
          rw [onWake, hctl']
        rw [notify_of_eq (c := .listenCv) (by rw [waitsOn, hctl']) hw]
        refine .inr ⟨⟨hpkt, .inl rfl⟩, hw.trans (congrArg some ?_)⟩
        split_ifs <;> rfl
      | colliding =>
        rw [notify_of_ne (c := .listenCv) (by simp [waitsOn, hctl'])]
        split_ifs with hs
        · have hw : J.onWake =
              some { J with ctl := .adquire scope retry (.resetting (J.lock.targets scope)) } := by
            rw [onWake, hctl']
          rw [notify_of_eq (c := .cv) (by rw [waitsOn, hctl']) hw]
          exact .inr ⟨⟨hpkt, .inr ⟨rfl, hs⟩⟩, hw⟩
        · exact .inl ⟨by simp [hs], rfl⟩
      | _ =>
        rw [notify_of_ne (c := .listenCv) (by simp [waitsOn, hctl']),
          notify_of_ne (c := .cv) (by simp [waitsOn, hctl'])]
        exact .inl ⟨by simp, by split_ifs <;> rfl⟩
    · rw [if_neg hpkt]
      exact .inl ⟨fun h => hpkt h.1, rfl⟩

/-- **How the calling thread moves inside `adquire_lock`.** -/
lemma adquire_cases (hctl : I.ctl = .adquire scope retry pc) (he : e.isCall = false)
    (hs : I.step e = some (I', sent)) :
    (e = .run ∧ I.run = some (I', sent)) ∨
      (e ≠ .run ∧ e ≠ .timeout ∧ ¬ I.Wakes e ∧ I'.ctl = I.ctl) ∨
      (I.Wakes e ∧ (⟨I'.lock, I.ctl⟩ : Inst).onWake = some I') ∨
      (e = .timeout ∧ I.onTimeout = some I') := by
  cases e with
  | call c => exact absurd he (by simp [Event.isCall])
  | run => exact .inl ⟨rfl, hs⟩
  | timeout => exact .inr (.inr (.inr ⟨rfl, (step_timeout hs).1⟩))
  | wake =>
    obtain ⟨h₁, -⟩ := step_wake hs
    have hsame : (⟨I'.lock, I.ctl⟩ : Inst) = I := by rw [onWake_lock h₁]
    exact .inr (.inr (.inl ⟨trivial, by rw [hsame, h₁]⟩))
  | elapsed n =>
    obtain ⟨q, res, b, -, hq, -⟩ := onElapsed_cases (step_elapsed hs).1
    exact absurd (hctl.symm.trans hq) (by simp)
  | beacon res =>
    obtain ⟨rfl, -⟩ := step_beacon hs
    exact .inr (.inl ⟨by simp, by simp, fun h => h, rfl⟩)
  | deliver pkt =>
    obtain ⟨rfl, -⟩ := step_deliver hs
    rcases actionPerformed_adquire pkt hctl with ⟨hnot, heq⟩ | ⟨hint, hw⟩
    · exact .inr (.inl ⟨by simp, by simp, hnot, by rw [heq, hear_ctl]⟩)
    · have hJ : (⟨(I.actionPerformed pkt).lock, I.ctl⟩ : Inst) = I.hear pkt := by
        rw [actionPerformed_lock, show I.ctl = (I.hear pkt).ctl from hear_ctl.symm]
      exact .inr (.inr (.inl ⟨hint, by rw [hJ, hw]⟩))

end Inst
end DistLock
