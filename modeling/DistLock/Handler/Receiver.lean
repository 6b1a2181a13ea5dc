/-
The thread of the `CommHandler` (`CommHandler.cc`, `UDPSocket.cc`, `Thread.cc`), and the thread that
constructs the handler and stops it.

`run` receives one datagram after the other, decodes it, and hands it to the listeners, until
`stop` has cleared `running`.  Meanwhile the other thread waits in the constructor for the first
`notify`, and later goes through `stop`.  Every step of either thread is one step here.  The
listeners are there from the beginning; the source registers them when the constructor has
returned, and what is dispatched before reaches nobody.

Whatever `recvmsg` returns, the datagrams are handed to the listeners once and in their order
(`received_in_order`), each object is deleted once (`freed_once`), and neither the constructor nor
`stop` waits for ever (`wait_returns`, `stop_returns`).  Which of several listeners get a packet is
the subject of `DistLock.Handler.Dispatch`.
-/
import DistLock.Lib.Ledger
import DistLock.Lib.Run
import DistLock.Wire.Datagram

namespace DistLock

open Lib (Ledger Run history)

/-- What `recvmsg` returns: the bytes of a datagram, which may be none, or an error, and then
whether `errno` is `ETIMEDOUT`. -/
inductive Recvmsg
  | bytes (bs : List UInt8)
  | error (etimedout : Bool)
  deriving DecidableEq

/-- `BUFSIZE`, the size of `recv_buf`; a longer datagram is cut. -/
def bufSize : ℕ := 1024

/-- `count_max` in `UDPSocket::receive`. -/
def countMax : ℕ := 30

/-- Where the thread of the handler is in `run`, with its local variables. -/
inductive RunPc
  | entering
  | head
  | notifying
  | receiving (count : ℕ)
  | returned (payload : List UInt8)
  | decoded (pkt : DLPacket)
  | waking (pkt : DLPacket)
  | raising (pkt : DLPacket)
  | dispatching (pkt : DLPacket)
  | deletingPacket
  | deletingDatagram
  | ended
  | undefined
  deriving DecidableEq

/-- Where the other thread is: in the constructor, between the constructor and `stop`, or in
`stop`. -/
inductive OwnerPc
  | starting
  | waiting
  | free
  | detaching
  | notifying
  | closing
  | joining
  | stopped
  deriving DecidableEq

/-- `stop` has cleared `running`. -/
def OwnerPc.Stopping : OwnerPc → Prop
  | starting | waiting | free => False
  | _ => True

/-- The variables that hold objects. -/
inductive RunVar
  | pkt
  | dlPkt
  | event
  deriving DecidableEq

/-- What happens to an object. -/
inductive ObjectEvent
  | new
  | delete
  deriving DecidableEq

/-- The variables that hold an object at each position. -/
def RunPc.holds : RunPc → RunVar → Bool
  | returned _, .pkt | undefined, .pkt | deletingDatagram, .pkt => true
  | decoded _, .pkt | waking _, .pkt | raising _, .pkt | deletingPacket, .pkt => true
  | decoded _, .dlPkt | waking _, .dlPkt | raising _, .dlPkt | deletingPacket, .dlPkt => true
  | dispatching _, _ => true
  | _, _ => false

/-- The packet that is still to be handed to the listeners. -/
def RunPc.pending : RunPc → List (Option DLPacket)
  | returned payload => [DLPacket.decode (UDPDatagram payload)]
  | decoded pkt | waking pkt | raising pkt | dispatching pkt => [some pkt]
  | undefined => [none]
  | _ => []

/-- The positions at which a packet may have been dropped, because `stop` has begun. -/
def RunPc.Leaving : RunPc → Prop
  | deletingPacket | deletingDatagram | head | ended => True
  | _ => False

lemma RunPc.Leaving.pending {pc : RunPc} (h : pc.Leaving) : pc.pending = [] := by
  cases pc with
  | deletingPacket | deletingDatagram | head | ended => rfl
  | _ => exact h.elim

/-- How many steps are left to the end of `run` once `running` is cleared. -/
def RunPc.toEnd : RunPc → ℕ
  | entering | ended | undefined => 0
  | head => 1
  | deletingDatagram => 2
  | deletingPacket => 3
  | dispatching _ | decoded _ => 4
  | raising _ | returned _ => 5
  | waking _ => 6
  | receiving count => 6 + (29 - count)
  | notifying => 36

/-- How many steps are left to the next `notify` while `running` is set. -/
def RunPc.toNotify : RunPc → ℕ
  | ended | undefined => 0
  | notifying => 1
  | head => 2
  | entering | deletingDatagram => 3
  | deletingPacket => 4
  | dispatching _ => 5
  | raising _ => 6
  | waking _ => 7
  | decoded _ => 8
  | returned _ => 9
  | receiving count => 10 + (29 - count)

/-- How many steps of `stop` are left. -/
def OwnerPc.toEnd : OwnerPc → ℕ
  | starting | waiting | free | stopped => 0
  | detaching => 4
  | notifying => 3
  | closing => 2
  | joining => 1

/-- An object that has been deleted exactly once. -/
def DeletedOnce (hist : List ObjectEvent) : Prop := hist = [.new, .delete]

/-- The handler and its two threads.  `insts` is the state of the listeners, `attached` whether
they are in `al_list`.  The last three fields keep a record: the payloads that `receive` has
returned, the packets that the listeners were given, and the objects. -/
structure Receiver (σ : Type) where
  running : Bool
  attached : Bool
  insts : σ
  pc : RunPc
  owner : OwnerPc
  received : List (List UInt8)
  dispatched : List DLPacket
  heap : Ledger RunVar ObjectEvent

/-- A step of the handler's thread inside or outside of `recvmsg`, a step of the other thread, or a
spurious wakeup of the latter. -/
inductive HandlerEvent
  | run
  | recvmsg (r : Recvmsg)
  | owner
  | spurious
  deriving DecidableEq

/-- The handler's thread takes a step. -/
def HandlerEvent.own : HandlerEvent → Bool
  | run | recvmsg _ => true
  | _ => false

namespace Receiver

variable {σ : Type}

/-- `start` has created the thread.  The listeners count as registered. -/
def start (insts : σ) : Receiver σ where
  running := false
  attached := true
  insts := insts
  pc := .entering
  owner := .starting
  received := []
  dispatched := []
  heap := { next := 0, log := [], held := fun _ => none }

/-- `new`. -/
def alloc (H : Ledger RunVar ObjectEvent) (x : RunVar) : Ledger RunVar ObjectEvent where
  next := H.next + 1
  log := H.log ++ [(H.next, .new)]
  held := Function.update H.held x (some (H.next, [.new]))

/-- `delete`; nothing happens to a null pointer. -/
def free (H : Ledger RunVar ObjectEvent) (x : RunVar) : Ledger RunVar ObjectEvent :=
  match H.held x with
  | some (p, _) =>
    { H with log := H.log ++ [(p, .delete)], held := Function.update H.held x none }
  | none => H

/-- `Thread::notify`: it reaches a thread that is in `wait`. -/
def notify (S : Receiver σ) : Receiver σ :=
  if S.owner = .waiting then { S with owner := .free } else S

/-- A step of `run` outside of `recvmsg`, for what the listeners do with a packet. -/
def runStep (handle : σ → DLPacket → σ) (S : Receiver σ) : Option (Receiver σ) :=
  match S.pc with
  | .entering => some { S with running := true, pc := .head }
  | .head => if S.running then some { S with pc := .notifying } else some { S with pc := .ended }
  | .notifying => some { S.notify with pc := .receiving 0 }
  | .returned payload =>
    match DLPacket.decode (UDPDatagram payload) with
    | some pkt => some { S with heap := alloc S.heap .dlPkt, pc := .decoded pkt }
    -- the decoder reads past the end of its buffer
    | none => some { S with pc := .undefined }
  | .decoded pkt =>
    if S.running then some { S with pc := .waking pkt } else some { S with pc := .deletingPacket }
  | .waking pkt => some { S with pc := .raising pkt }
  | .raising pkt => some { S with heap := alloc S.heap .event, pc := .dispatching pkt }
  | .dispatching pkt =>
    let S := { S with heap := free S.heap .event, pc := .deletingPacket }
    if S.attached then
      some { S with insts := handle S.insts pkt, dispatched := S.dispatched ++ [pkt] }
    else some S
  | .deletingPacket => some { S with heap := free S.heap .dlPkt, pc := .deletingDatagram }
  | .deletingDatagram => some { S with heap := free S.heap .pkt, pc := .head }
  | .receiving _ | .ended | .undefined => none

/-- `recvmsg` returns to the loop of `receive`; an exception of `receive` is caught in `run`. -/
def recvStep (S : Receiver σ) (r : Recvmsg) : Option (Receiver σ) :=
  match S.pc with
  | .receiving count =>
    match r with
    | .bytes [] => some { S with pc := .head }
    | .bytes bs =>
      some { S with
        heap := alloc S.heap .pkt
        received := S.received ++ [bs.take bufSize]
        pc := .returned (bs.take bufSize) }
    | .error true =>
      if count + 1 < countMax then some { S with pc := .receiving (count + 1) }
      else some { S with pc := .head }
    | .error false => some { S with pc := .head }
  | _ => none

/-- A step of the constructor or of `stop`. -/
def ownerStep (S : Receiver σ) : Option (Receiver σ) :=
  match S.owner with
  | .starting => some { S with owner := .waiting }
  | .free => some { S with running := false, owner := .detaching }
  | .detaching => some { S with attached := false, owner := .notifying }
  | .notifying => some { S.notify with owner := .closing }
  | .closing => some { S with owner := .joining }
  | .joining => if S.pc = .ended then some { S with owner := .stopped } else none
  | .waiting | .stopped => none

/-- One step of the two threads. -/
def step (handle : σ → DLPacket → σ) (S : Receiver σ) : HandlerEvent → Option (Receiver σ)
  | .run => S.runStep handle
  | .recvmsg r => S.recvStep r
  | .owner => S.ownerStep
  | .spurious => if S.owner = .waiting then some { S with owner := .free } else none

/-- Condition variables do not wake up by themselves. -/
def Punctual (_ : Receiver σ) (e : HandlerEvent) : Prop := e ≠ .spurious

instance (S : Receiver σ) (e : HandlerEvent) : Decidable (S.Punctual e) :=
  inferInstanceAs (Decidable (e ≠ .spurious))

/-- The packets of the payloads that have been received. -/
def packets (S : Receiver σ) : List (Option DLPacket) :=
  S.received.map fun payload => DLPacket.decode (UDPDatagram payload)

variable {handle : σ → DLPacket → σ} {insts : σ} {S S' S₀ : Receiver σ} {e : HandlerEvent}
  {es : List HandlerEvent} {pc : RunPc} {H : Ledger RunVar ObjectEvent}

/-! ### What a step of the handler's thread does -/

/-- What a step does to the objects: nothing, or it makes or deletes one. -/
inductive Turns (pc : RunPc) (H : Ledger RunVar ObjectEvent) (pc' : RunPc) :
    Ledger RunVar ObjectEvent → Prop
  | keep (h : ∀ x, pc'.holds x = pc.holds x) : Turns pc H pc' H
  | alloc (x : RunVar) (hx : pc.holds x = false)
    (h : ∀ y, pc'.holds y = if y = x then true else pc.holds y) : Turns pc H pc' (alloc H x)
  | free (x : RunVar) (hx : pc.holds x = true)
    (h : ∀ y, pc'.holds y = if y = x then false else pc.holds y) : Turns pc H pc' (free H x)

/-- The effects of the steps of the handler's thread. -/
inductive Effect (handle : σ → DLPacket → σ) (S : Receiver σ) : Receiver σ → Prop
  | enter (hpc : S.pc = .entering) : Effect handle S { S with running := true, pc := .head }
  | move (pc : RunPc) (H : Ledger RunVar ObjectEvent) (hfrom : S.pc ≠ .entering ∧ S.pc ≠ .ended)
    (hto : pc ≠ .entering) (hend : pc = .ended → S.running = false)
    (hl : S.pc.Leaving → S.running = false → pc.Leaving) (hp : pc.pending = S.pc.pending)
    (hH : Turns S.pc S.heap pc H) : Effect handle S { S with pc := pc, heap := H }
  | notify (hpc : S.pc = .notifying) : Effect handle S { S.notify with pc := .receiving 0 }
  | receive (count : ℕ) (payload : List UInt8) (hpc : S.pc = .receiving count) :
    Effect handle S { S with
      heap := alloc S.heap .pkt
      received := S.received ++ [payload]
      pc := .returned payload }
  | drop (pkt : DLPacket) (H : Ledger RunVar ObjectEvent) (hp : S.pc.pending = [some pkt])
    (hstop : S.running = false ∨ S.attached = false)
    (hH : Turns S.pc S.heap .deletingPacket H) :
    Effect handle S { S with pc := .deletingPacket, heap := H }
  | hand (pkt : DLPacket) (hpc : S.pc = .dispatching pkt) (hatt : S.attached = true) :
    Effect handle S { S with
      heap := free S.heap .event
      pc := .deletingPacket
      insts := handle S.insts pkt
      dispatched := S.dispatched ++ [pkt] }

lemma effect_run (hs : S.runStep handle = some S') : Effect handle S S' := by
  rw [runStep] at hs
  cases hpc : S.pc with
  | entering =>
    rw [hpc] at hs
    obtain rfl := Option.some.inj hs
    exact .enter hpc
  | head =>
    rw [hpc] at hs
    dsimp only at hs
    split_ifs at hs with hr <;> obtain rfl := Option.some.inj hs
    · refine .move _ S.heap ⟨by simp [hpc], by simp [hpc]⟩ (by simp) (by simp)
        (fun _ hstop => absurd hr (by simp [hstop])) (by rw [hpc]; rfl) (.keep ?_)
      rintro (_ | _ | _) <;> rw [hpc] <;> rfl
    · refine .move _ S.heap ⟨by simp [hpc], by simp [hpc]⟩ (by simp) (fun _ => by simpa using hr)
        (fun _ _ => trivial) (by rw [hpc]; rfl) (.keep ?_)
      rintro (_ | _ | _) <;> rw [hpc] <;> rfl
  | notifying =>
    rw [hpc] at hs
    obtain rfl := Option.some.inj hs
    exact .notify hpc
  | returned payload =>
    rw [hpc] at hs
    dsimp only at hs
    split at hs
    · next pkt hpkt =>
      obtain rfl := Option.some.inj hs
      refine .move _ _ ⟨by simp [hpc], by simp [hpc]⟩ (by simp) (by simp)
        (by simp [hpc, RunPc.Leaving]) (by rw [hpc, RunPc.pending, RunPc.pending, hpkt])
        (.alloc .dlPkt (by rw [hpc]; rfl) ?_)
      rintro (_ | _ | _) <;> rw [hpc] <;> rfl
    · next hpkt =>
      obtain rfl := Option.some.inj hs
      refine .move _ S.heap ⟨by simp [hpc], by simp [hpc]⟩ (by simp) (by simp)
        (by simp [hpc, RunPc.Leaving]) (by rw [hpc, RunPc.pending, RunPc.pending, hpkt]) (.keep ?_)
      rintro (_ | _ | _) <;> rw [hpc] <;> rfl
  | decoded pkt =>
    rw [hpc] at hs
    dsimp only at hs
    split_ifs at hs with hr <;> obtain rfl := Option.some.inj hs
    · refine .move _ S.heap ⟨by simp [hpc], by simp [hpc]⟩ (by simp) (by simp)
        (by simp [hpc, RunPc.Leaving]) (by rw [hpc]; rfl) (.keep ?_)
      rintro (_ | _ | _) <;> rw [hpc] <;> rfl
    · refine .drop pkt S.heap (by rw [hpc]; rfl) (.inl (by simpa using hr)) (.keep ?_)
      rintro (_ | _ | _) <;> rw [hpc] <;> rfl
  | waking pkt =>
    rw [hpc] at hs
    obtain rfl := Option.some.inj hs
    refine .move _ S.heap ⟨by simp [hpc], by simp [hpc]⟩ (by simp) (by simp)
      (by simp [hpc, RunPc.Leaving]) (by rw [hpc]; rfl) (.keep ?_)
    rintro (_ | _ | _) <;> rw [hpc] <;> rfl
  | raising pkt =>
    rw [hpc] at hs
    obtain rfl := Option.some.inj hs
    refine .move _ _ ⟨by simp [hpc], by simp [hpc]⟩ (by simp) (by simp)
      (by simp [hpc, RunPc.Leaving]) (by rw [hpc]; rfl) (.alloc .event (by rw [hpc]; rfl) ?_)
    rintro (_ | _ | _) <;> rw [hpc] <;> rfl
  | dispatching pkt =>
    rw [hpc] at hs
    dsimp only at hs
    split_ifs at hs with hatt <;> obtain rfl := Option.some.inj hs
    · exact .hand pkt hpc hatt
    · refine .drop pkt _ (by rw [hpc]; rfl) (.inr (by simpa using hatt))
        (.free .event (by rw [hpc]; rfl) ?_)
      rintro (_ | _ | _) <;> rw [hpc] <;> rfl
  | deletingPacket =>
    rw [hpc] at hs
    obtain rfl := Option.some.inj hs
    refine .move _ _ ⟨by simp [hpc], by simp [hpc]⟩ (by simp) (by simp) (fun _ _ => trivial)
      (by rw [hpc]; rfl) (.free .dlPkt (by rw [hpc]; rfl) ?_)
    rintro (_ | _ | _) <;> rw [hpc] <;> rfl
  | deletingDatagram =>
    rw [hpc] at hs
    obtain rfl := Option.some.inj hs
    refine .move _ _ ⟨by simp [hpc], by simp [hpc]⟩ (by simp) (by simp) (fun _ _ => trivial)
      (by rw [hpc]; rfl) (.free .pkt (by rw [hpc]; rfl) ?_)
    rintro (_ | _ | _) <;> rw [hpc] <;> rfl
  | receiving count | ended | undefined =>
    rw [hpc] at hs
    cases hs

/-- `receive` returns a datagram, calls `recvmsg` again, or returns without one. -/
lemma effect_recv {r : Recvmsg} (hs : S.recvStep r = some S') : Effect handle S S' := by
  rw [recvStep] at hs
  split at hs
  · next count hpc =>
    have hout : ∀ pc, (pc = .head ∨ ∃ n, pc = .receiving n) → S' = { S with pc := pc } →
        Effect handle S S' := by
      rintro pc hto rfl
      refine .move pc S.heap ⟨by simp [hpc], by simp [hpc]⟩ ?_ ?_ (by simp [hpc, RunPc.Leaving])
        ?_ (.keep fun x => ?_)
      all_goals rcases hto with rfl | ⟨n, rfl⟩
      all_goals simp [hpc, RunPc.pending, RunPc.holds]
    cases r with
    | bytes bs =>
      cases bs with
      | nil => exact hout .head (.inl rfl) (Option.some.inj hs).symm
      | cons b bs =>
        obtain rfl := Option.some.inj hs
        exact .receive count _ hpc
    | error etimedout =>
      cases etimedout with
      | false => exact hout .head (.inl rfl) (Option.some.inj hs).symm
      | true =>
        dsimp only at hs
        split_ifs at hs
        · exact hout _ (.inr ⟨_, rfl⟩) (Option.some.inj hs).symm
        · exact hout _ (.inl rfl) (Option.some.inj hs).symm
  · cases hs

lemma effect_own (he : e.own = true) (hs : S.step handle e = some S') : Effect handle S S' := by
  cases e with
  | run => exact effect_run hs
  | recvmsg r => exact effect_recv hs
  | _ => cases he

/-! ### The flow of the packets -/

/-- What the two threads keep. -/
structure Inv (handle : σ → DLPacket → σ) (insts : σ) (S : Receiver σ) : Prop where
  flow : S.insts = S.dispatched.foldl handle insts
  order : S.packets = S.dispatched.map some ++ S.pc.pending ∨
    S.owner.Stopping ∧ S.pc.Leaving ∧ ∃ pkt, S.packets = S.dispatched.map some ++ [some pkt]
  entering : S.pc = .entering → S.owner = .starting ∨ S.owner = .waiting
  running : S.pc ≠ .entering → (S.running = false ↔ S.owner.Stopping)
  attached : S.attached = false → S.owner.Stopping
  ended : S.pc = .ended → S.owner.Stopping
  stopped : S.owner = .stopped → S.pc = .ended

lemma inv_start : (start insts).Inv handle insts where
  flow := rfl
  order := .inl rfl
  entering := fun _ => .inl rfl
  running := fun h => absurd rfl h
  attached := fun h => by cases h
  ended := fun h => by cases h
  stopped := fun h => by cases h

/-- A notification reaches the constructor, or nobody. -/
lemma notify_cases (S : Receiver σ) :
    S.notify = S ∨ S.owner = .waiting ∧ S.notify = { S with owner := .free } := by
  rw [notify]
  split_ifs with hw
  · exact .inr ⟨hw, rfl⟩
  · exact .inl rfl

/-- As long as a packet is pending, none has been dropped. -/
lemma Inv.order_of_pending (h : S.Inv handle insts) (hpc : ¬ S.pc.Leaving) :
    S.packets = S.dispatched.map some ++ S.pc.pending :=
  h.order.resolve_right fun ho => hpc ho.2.1

/-- **The steps of the handler's thread keep the flow of the packets.** -/
lemma Inv.effect (h : S.Inv handle insts) (he : Effect handle S S') : S'.Inv handle insts := by
  cases he with
  | enter hpc =>
    have hnot : ¬ S.owner.Stopping := by
      rcases h.entering hpc with hw | hw <;> rw [hw] <;> exact id
    have horder := h.order_of_pending (by rw [hpc]; exact id)
    rw [hpc] at horder
    exact
      { flow := h.flow
        order := .inl horder
        entering := fun he => by cases he
        running := fun _ => iff_of_false (by simp) hnot
        attached := h.attached
        ended := fun he => by cases he
        stopped := fun hst => absurd (h.stopped hst) (by simp [hpc]) }
  | move pc H hfrom hto hend hl hp hH =>
    have hrun := h.running hfrom.1
    exact
      { flow := h.flow
        order := by
          rcases h.order with ho | ⟨hst, hleave, hpkt⟩
          · refine .inl ?_
            rw [hp]
            exact ho
          · exact .inr ⟨hst, hl hleave (hrun.mpr hst), hpkt⟩
        entering := fun he => absurd he hto
        running := fun _ => hrun
        attached := h.attached
        ended := fun he => hrun.mp (hend he)
        stopped := fun hst => absurd (h.stopped hst) hfrom.2 }
  | notify hpc =>
    have horder := h.order_of_pending (by rw [hpc]; exact id)
    have hrun := h.running (by simp [hpc])
    rw [hpc] at horder
    -- the notification ends the wait of the owner, or nobody waits for it
    rcases notify_cases S with heq | ⟨hw, heq⟩
    · rw [heq]
      exact
        { flow := h.flow
          order := .inl horder
          entering := fun he => by cases he
          running := fun _ => hrun
          attached := h.attached
          ended := fun he => by cases he
          stopped := fun hst => absurd (h.stopped hst) (by simp [hpc]) }
    · rw [heq]
      have hnot : ¬ S.owner.Stopping := by
        rw [hw]
        exact id
      exact
        { flow := h.flow
          order := .inl horder
          entering := fun he => by cases he
          running := fun _ => hrun.trans (iff_of_false hnot id)
          attached := fun ha => absurd (h.attached ha) hnot
          ended := fun he => by cases he
          stopped := fun hst => by cases hst }
  | receive count payload hpc =>
    have horder := h.order_of_pending (by rw [hpc]; exact id)
    rw [hpc, show (RunPc.receiving count).pending = [] from rfl, List.append_nil] at horder
    exact
      { flow := h.flow
        order := .inl (by
          show List.map _ (S.received ++ [payload]) = _
          rw [List.map_append]
          exact congrArg (· ++ [DLPacket.decode (UDPDatagram payload)]) horder)
        entering := fun he => by cases he
        running := fun _ => h.running (by simp [hpc])
        attached := h.attached
        ended := fun he => by cases he
        stopped := fun hst => absurd (h.stopped hst) (by simp [hpc]) }
  -- a packet is only dropped once the handler is being stopped, and it is the last one
  | drop pkt H hp hstop hH =>
    have hpc : S.pc ≠ .entering := by
      intro hpc
      rw [hpc] at hp
      cases hp
    have hst : S.owner.Stopping := hstop.elim (h.running hpc).mp h.attached
    have horder : S.packets = S.dispatched.map some ++ [some pkt] := by
      rw [← hp]
      exact h.order_of_pending fun hleave => by rw [hleave.pending] at hp; cases hp
    exact
      { flow := h.flow
        order := .inr ⟨hst, trivial, pkt, horder⟩
        entering := fun he => by cases he
        running := fun _ => h.running hpc
        attached := h.attached
        ended := fun he => by cases he
        stopped := fun hs => by
          rw [h.stopped hs] at hp
          cases hp }
  | hand pkt hpc hatt =>
    have horder := h.order_of_pending (by rw [hpc]; exact id)
    rw [hpc] at horder
    exact
      { flow := by
          show handle S.insts pkt = _
          rw [List.foldl_append, ← h.flow]
          rfl
        order := .inl (by
          show S.packets = (S.dispatched ++ [pkt]).map some ++ []
          rw [List.append_nil, List.map_append]
          exact horder)
        entering := fun he => by cases he
        running := fun _ => h.running (by simp [hpc])
        attached := h.attached
        ended := fun he => by cases he
        stopped := fun hst => absurd (h.stopped hst) (by simp [hpc]) }

/-- The steps of the other thread keep it. -/
lemma Inv.owner (h : S.Inv handle insts) (hs : S.ownerStep = some S') : S'.Inv handle insts := by
  rw [ownerStep] at hs
  -- the packets stay where they are, and once `stop` has begun it goes on
  have horder : (S.owner.Stopping → S'.owner.Stopping) → S'.packets = S.packets →
      S'.dispatched = S.dispatched → S'.pc = S.pc →
      S'.packets = S'.dispatched.map some ++ S'.pc.pending ∨
        S'.owner.Stopping ∧ S'.pc.Leaving ∧
          ∃ pkt, S'.packets = S'.dispatched.map some ++ [some pkt] := by
    intro hst hp hd hpc
    rw [hp, hd, hpc]
    exact h.order.imp_right fun ho => ⟨hst ho.1, ho.2⟩
  cases hown : S.owner with
  | starting =>
    rw [hown] at hs
    obtain rfl := Option.some.inj hs
    have hnot : ¬ S.owner.Stopping := by
      rw [hown]
      exact id
    exact
      { flow := h.flow
        order := horder (fun hst => absurd hst hnot) rfl rfl rfl
        entering := fun _ => .inr rfl
        running := fun hpc => (h.running hpc).trans (iff_of_false hnot id)
        attached := fun ha => absurd (h.attached ha) hnot
        ended := fun he => absurd (h.ended he) hnot
        stopped := fun hst => by cases hst }
  | free =>
    rw [hown] at hs
    obtain rfl := Option.some.inj hs
    exact
      { flow := h.flow
        order := horder (fun _ => trivial) rfl rfl rfl
        entering := fun he => by rcases h.entering he with hw | hw <;> rw [hown] at hw <;> cases hw
        running := fun _ => iff_of_true rfl trivial
        attached := fun _ => trivial
        ended := fun _ => trivial
        stopped := fun hst => by cases hst }
  | detaching | closing =>
    rw [hown] at hs
    obtain rfl := Option.some.inj hs
    exact
      { flow := h.flow
        order := horder (fun _ => trivial) rfl rfl rfl
        entering := fun he => by rcases h.entering he with hw | hw <;> rw [hown] at hw <;> cases hw
        running := fun hpc => (h.running hpc).trans (iff_of_true (by rw [hown]; trivial) trivial)
        attached := fun _ => trivial
        ended := fun _ => trivial
        stopped := fun hst => by cases hst }
  | notifying =>
    rw [hown] at hs
    obtain rfl := Option.some.inj hs
    have hnobody : S.notify = S := if_neg (by rw [hown]; simp)
    rw [hnobody] at horder ⊢
    exact
      { flow := h.flow
        order := horder (fun _ => trivial) rfl rfl rfl
        entering := fun he => by rcases h.entering he with hw | hw <;> rw [hown] at hw <;> cases hw
        running := fun hpc => (h.running hpc).trans (iff_of_true (by rw [hown]; trivial) trivial)
        attached := fun _ => trivial
        ended := fun _ => trivial
        stopped := fun hst => by cases hst }
  | joining =>
    rw [hown] at hs
    dsimp only at hs
    split_ifs at hs with hend
    obtain rfl := Option.some.inj hs
    exact
      { flow := h.flow
        order := horder (fun _ => trivial) rfl rfl rfl
        entering := fun he => by cases hend.symm.trans he
        running := fun hpc => (h.running hpc).trans (iff_of_true (by rw [hown]; trivial) trivial)
        attached := fun _ => trivial
        ended := fun _ => trivial
        stopped := fun _ => hend }
  | waiting | stopped =>
    rw [hown] at hs
    cases hs

/-- **Every step of the two threads keeps the flow of the packets.** -/
theorem inv_step (h : S.Inv handle insts) (hok : S.Punctual e)
    (hs : S.step handle e = some S') : S'.Inv handle insts := by
  cases e with
  | run => exact h.effect (effect_own (e := .run) rfl hs)
  | recvmsg r => exact h.effect (effect_own (e := .recvmsg r) rfl hs)
  | owner => exact h.owner hs
  | spurious => exact absurd rfl hok

/-- **The datagrams reach the listeners once and in their order.**  In every run of the two threads,
the listeners are in the state in which the dispatched packets leave them.  Until `stop` is
called, these are the packets of all datagrams that `receive` has returned, but for the one that
is being handled; afterwards at most one is missing at the end. -/
theorem received_in_order
    (hrun : Run (step handle) Punctual (start insts) es S) :
    S.insts = S.dispatched.foldl handle insts ∧
      (¬ S.owner.Stopping → S.packets = S.dispatched.map some ++ S.pc.pending) ∧
      ∃ rest, S.packets = S.dispatched.map some ++ rest ∧ rest.length ≤ 1 := by
  have h : S.Inv handle insts := hrun.invariant (fun _ _ _ h hok hs => inv_step h hok hs) inv_start
  refine ⟨h.flow, fun hst => h.order.resolve_right fun ho => hst ho.1, ?_⟩
  rcases h.order with ho | ⟨-, -, pkt, ho⟩
  · refine ⟨_, ho, ?_⟩
    cases S.pc <;> simp [RunPc.pending]
  · exact ⟨_, ho, le_rfl⟩

/-- The handler receives one datagram, and hands its packet to the listeners. -/
def receives (payload : List UInt8) : List HandlerEvent :=
  [.run, .owner, .run, .run, .recvmsg (.bytes payload), .run, .run, .run, .run, .run, .run, .run]

/-- The beacon of a member that holds `r`. -/
def heldBeacon : DLPacket := (DLPacket.new 3 7).setResource [114]

/-- A listener that keeps what it is given. -/
theorem received_in_order_beacon :
    ∃ S : Receiver (List DLPacket), S.dispatched = [heldBeacon] ∧
      S.insts = S.dispatched.foldl (fun pkts pkt => pkts ++ [pkt]) [] ∧
      S.packets = S.dispatched.map some ++ S.pc.pending := by
  obtain ⟨S, hrun, hdispatched, howner⟩ : ∃ S,
      Run (step fun pkts pkt => pkts ++ [pkt]) Punctual (start []) (receives heldBeacon.build) S ∧
        S.dispatched = [heldBeacon] ∧ S.owner = .free :=
    ⟨_, Run.of_exec rfl, by decide, by decide⟩
  obtain ⟨hinsts, horder, -⟩ := received_in_order hrun
  exact ⟨S, hdispatched, hinsts, horder fun hst => by rw [howner] at hst; exact hst⟩

/-! ### The objects -/

/-- Which objects there are at a position: the variables hold theirs, and all others have been
deleted once. -/
structure Tidy (pc : RunPc) (H : Ledger RunVar ObjectEvent) : Prop where
  sound : H.Sound DeletedOnce
  holds : ∀ x, pc.holds x = true → ∃ p, H.held x = some (p, [.new])
  empty : ∀ x, pc.holds x = false → H.held x = none

/-- `new` into a variable that holds nothing, and `delete` of what a variable holds. -/
lemma Tidy.turns {pc' : RunPc} {H' : Ledger RunVar ObjectEvent} (h : Tidy pc H)
    (ht : Turns pc H pc' H') : Tidy pc' H' := by
  cases ht with
  | keep hpc =>
    exact ⟨h.sound, fun x hx => h.holds x (hpc x ▸ hx), fun x hx => h.empty x (hpc x ▸ hx)⟩
  | alloc x hx hpc =>
    refine ⟨h.sound.step (.acquire .new (h.empty x hx)), fun y hy => ?_, fun y hy => ?_⟩
    all_goals rw [hpc] at hy
    · by_cases hxy : y = x
      · subst hxy
        exact ⟨_, Function.update_self ..⟩
      · rw [if_neg hxy] at hy
        obtain ⟨p, hp⟩ := h.holds y hy
        exact ⟨p, (Function.update_of_ne hxy ..).trans hp⟩
    · by_cases hxy : y = x
      · rw [if_pos hxy] at hy
        cases hy
      · rw [if_neg hxy] at hy
        exact (Function.update_of_ne hxy ..).trans (h.empty y hy)
  | free x hx hpc =>
    obtain ⟨p, hp⟩ := h.holds x hx
    have hfree : free H x =
        { H with log := H.log ++ [(p, .delete)], held := Function.update H.held x none } := by
      rw [free, hp]
    rw [hfree]
    have hclosed : DeletedOnce ([.new] ++ [.delete]) := rfl
    refine ⟨h.sound.step (.release .delete hp hclosed), fun y hy => ?_, fun y hy => ?_⟩
    all_goals rw [hpc] at hy
    · by_cases hxy : y = x
      · rw [if_pos hxy] at hy
        cases hy
      · rw [if_neg hxy] at hy
        obtain ⟨q, hq⟩ := h.holds y hy
        exact ⟨q, (Function.update_of_ne hxy ..).trans hq⟩
    · by_cases hxy : y = x
      · subst hxy
        exact Function.update_self ..
      · rw [if_neg hxy] at hy
        exact (Function.update_of_ne hxy ..).trans (h.empty y hy)

/-- After a notification nobody waits. -/
lemma notify_owner (S : Receiver σ) : S.notify.owner ≠ .waiting := by
  rw [notify]
  split_ifs with hw
  · simp
  · exact hw

lemma notify_frame (S : Receiver σ) :
    S.notify.pc = S.pc ∧ S.notify.heap = S.heap ∧ S.notify.running = S.running := by
  rcases notify_cases S with heq | ⟨-, heq⟩ <;> rw [heq] <;> exact ⟨rfl, rfl, rfl⟩

/-- Every step of the handler's thread turns one object at most. -/
lemma Effect.turns (he : Effect handle S S') : Turns S.pc S.heap S'.pc S'.heap := by
  cases he with
  | enter hpc =>
    rw [hpc]
    exact .keep (by rintro (_ | _ | _) <;> rfl)
  | move pc H hfrom hto hend hl hp hH => exact hH
  | notify hpc =>
    rw [hpc, show ({ S.notify with pc := .receiving 0 } : Receiver σ).heap = S.heap from
      (notify_frame S).2.1]
    exact .keep (by rintro (_ | _ | _) <;> rfl)
  | receive count payload hpc =>
    rw [hpc]
    exact .alloc .pkt rfl (by rintro (_ | _ | _) <;> rfl)
  | drop pkt H hp hstop hH => exact hH
  | hand pkt hpc hatt =>
    rw [hpc]
    exact .free .event rfl (by rintro (_ | _ | _) <;> rfl)

/-- The other thread has no objects and does not wake itself, and once `stop` has begun, each of its
steps goes towards the end. -/
lemma ownerStep_frame (hs : S.ownerStep = some S') :
    S'.pc = S.pc ∧ S'.heap = S.heap ∧ S.owner ≠ .waiting ∧
      (S.owner.Stopping → S'.owner.Stopping ∧ S'.owner.toEnd < S.owner.toEnd) := by
  rw [ownerStep] at hs
  cases hown : S.owner with
  | starting | free =>
    rw [hown] at hs
    obtain rfl := Option.some.inj hs
    exact ⟨rfl, rfl, by simp, fun hst => hst.elim⟩
  | detaching | closing =>
    rw [hown] at hs
    obtain rfl := Option.some.inj hs
    exact ⟨rfl, rfl, by simp, fun _ => ⟨trivial, Nat.lt_succ_self _⟩⟩
  | notifying =>
    rw [hown] at hs
    obtain rfl := Option.some.inj hs
    obtain ⟨hpc, hheap, -⟩ := notify_frame S
    exact ⟨hpc, hheap, by simp, fun _ => ⟨trivial, Nat.lt_succ_self _⟩⟩
  | joining =>
    rw [hown] at hs
    dsimp only at hs
    split_ifs at hs
    obtain rfl := Option.some.inj hs
    exact ⟨rfl, rfl, by simp, fun _ => ⟨trivial, Nat.lt_succ_self _⟩⟩
  | waiting | stopped =>
    rw [hown] at hs
    cases hs

lemma tidy_step (h : Tidy S.pc S.heap) (hs : S.step handle e = some S') : Tidy S'.pc S'.heap := by
  cases e with
  | run => exact h.turns (effect_own (e := .run) rfl hs).turns
  | recvmsg r => exact h.turns (effect_own (e := .recvmsg r) rfl hs).turns
  | owner =>
    obtain ⟨hpc, hheap, -, -⟩ := ownerStep_frame hs
    rwa [hpc, hheap]
  | spurious =>
    rw [step] at hs
    split_ifs at hs
    obtain rfl := Option.some.inj hs
    exact h

/-- **Every object is deleted once.**  In every run, an object that has been made is either in a
variable of the current position, and then it has not been deleted, or it has been deleted exactly
once; when `run` has ended, all have been deleted. -/
theorem freed_once (hrun : Run (step handle) (fun _ _ => True) (start insts) es S) (p : ℕ) :
    history S.heap.log p = [] ∨ DeletedOnce (history S.heap.log p) ∨
      history S.heap.log p = [.new] ∧
        ∃ x, S.pc.holds x = true ∧ S.heap.held x = some (p, [.new]) := by
  have h : Tidy S.pc S.heap :=
    hrun.invariant (I := fun S => Tidy S.pc S.heap) (fun _ _ _ h _ hs => tidy_step h hs)
      ⟨Ledger.sound_empty, fun x hx => absurd hx (by cases x <;> simp [start, RunPc.holds]),
        fun _ _ => rfl⟩
  by_cases hheld : ∃ x hist, S.heap.held x = some (p, hist)
  · obtain ⟨x, hist, hx⟩ := hheld
    have hpc : S.pc.holds x = true := by
      by_contra hnot
      rw [h.empty x (by simpa using hnot)] at hx
      cases hx
    obtain ⟨q, hq⟩ := h.holds x hpc
    obtain ⟨rfl, rfl⟩ := Prod.mk.inj (Option.some.inj (hx.symm.trans hq))
    exact .inr (.inr ⟨h.sound.history_eq x p _ hx, x, hpc, hx⟩)
  · rcases h.sound.rest p fun x hist hx => hheld ⟨x, hist, hx⟩ with hnil | hdel
    · exact .inl hnil
    · exact .inr (.inl hdel)

/-- While the packet is dispatched, the three objects exist. -/
theorem freed_once_beacon :
    ∃ S : Receiver (List DLPacket), S.heap.log = [(0, .new), (1, .new), (2, .new)] ∧
      history S.heap.log 2 = [.new] ∧ ∃ x, S.heap.held x = some (2, [.new]) := by
  obtain ⟨S, hrun, hlog⟩ : ∃ S,
      Run (step fun pkts pkt => pkts ++ [pkt]) (fun _ _ => True) (start [])
        ((receives heldBeacon.build).take 9) S ∧
        S.heap.log = [(0, .new), (1, .new), (2, .new)] :=
    ⟨_, Run.of_exec rfl, by decide⟩
  have hhist : history S.heap.log 2 = [.new] := by
    rw [hlog]
    decide
  refine ⟨S, hlog, hhist, ?_⟩
  rcases freed_once hrun 2 with hnil | hdel | ⟨-, x, -, hx⟩
  · cases hhist.symm.trans hnil
  · cases hhist.symm.trans hdel
  · exact ⟨x, hx⟩

/-! ### How long the other thread waits -/

/-- A step of the handler's thread goes towards the end of `run`, or towards `notify`. -/
lemma measure_own (he : e.own = true) (hs : S.step handle e = some S') :
    (S.pc ≠ .entering → S.running = false → S'.pc.toEnd < S.pc.toEnd) ∧
      (S.pc = .entering ∨ S.running = true → S'.owner = .waiting →
        S'.pc.toNotify < S.pc.toNotify) := by
  cases e with
  | run =>
    rw [step, runStep] at hs
    cases hpc : S.pc with
    | head | decoded pkt =>
      rw [hpc] at hs
      dsimp only at hs
      split_ifs at hs with hr <;> obtain rfl := Option.some.inj hs
      all_goals simp [hr, RunPc.toEnd, RunPc.toNotify]
    | notifying =>
      rw [hpc] at hs
      obtain rfl := Option.some.inj hs
      exact ⟨fun _ _ => Nat.lt_succ_self _, fun _ hw => absurd hw S.notify_owner⟩
    | dispatching pkt =>
      rw [hpc] at hs
      dsimp only at hs
      split_ifs at hs <;> obtain rfl := Option.some.inj hs
      all_goals simp [RunPc.toEnd, RunPc.toNotify]
    | returned payload =>
      rw [hpc] at hs
      dsimp only at hs
      split at hs <;> obtain rfl := Option.some.inj hs
      all_goals simp [RunPc.toEnd, RunPc.toNotify]
    | receiving count | ended | undefined =>
      rw [hpc] at hs
      cases hs
    | _ =>
      rw [hpc] at hs
      obtain rfl := Option.some.inj hs
      simp [RunPc.toEnd, RunPc.toNotify]
  | recvmsg r =>
    rw [step, recvStep] at hs
    split at hs
    · next count hpc =>
      rw [hpc]
      cases r with
      | bytes bs =>
        cases bs with
        | nil =>
          obtain rfl := Option.some.inj hs
          simp [RunPc.toEnd, RunPc.toNotify]
          omega
        | cons b bs =>
          obtain rfl := Option.some.inj hs
          simp [RunPc.toEnd, RunPc.toNotify]
          omega
      | error etimedout =>
        cases etimedout with
        | false =>
          obtain rfl := Option.some.inj hs
          simp [RunPc.toEnd, RunPc.toNotify]
          omega
        | true =>
          dsimp only at hs
          split_ifs at hs with hlt <;> obtain rfl := Option.some.inj hs
          all_goals simp [RunPc.toEnd, RunPc.toNotify, countMax] at hlt ⊢
          all_goals omega
    · cases hs
  | _ => cases he

/-- A step of the handler's thread leaves the other thread alone, unless it wakes it. -/
lemma effect_owner (he : Effect handle S S') :
    S'.owner = S.owner ∨ S.owner = .waiting ∧ S'.owner = .free := by
  cases he with
  | notify hpc =>
    rcases notify_cases S with heq | ⟨hw, heq⟩
    · exact .inl (by rw [heq])
    · exact .inr ⟨hw, by rw [heq]⟩
  | _ => exact .inl rfl

/-- Once `stop` has begun, every step goes towards the end of both threads. -/
lemma stop_step (h : S.Inv handle insts) (hst : S.owner.Stopping)
    (hs : S.step handle e = some S') :
    S'.owner.Stopping ∧ S'.pc.toEnd + S'.owner.toEnd < S.pc.toEnd + S.owner.toEnd := by
  have hpc : S.pc ≠ .entering := by
    intro hpc
    rcases h.entering hpc with hw | hw <;> rw [hw] at hst <;> exact hst
  have hwait : S.owner ≠ .waiting := by
    intro hw
    rw [hw] at hst
    exact hst
  have hown : e.own = true →
      S'.owner.Stopping ∧ S'.pc.toEnd + S'.owner.toEnd < S.pc.toEnd + S.owner.toEnd := by
    intro he
    have hless : S'.pc.toEnd < S.pc.toEnd := (measure_own he hs).1 hpc ((h.running hpc).mpr hst)
    have howner : S'.owner = S.owner :=
      (effect_owner (effect_own he hs)).resolve_right fun hw => hwait hw.1
    rw [howner]
    exact ⟨hst, Nat.add_lt_add_right hless _⟩
  cases e with
  | run => exact hown rfl
  | recvmsg r => exact hown rfl
  | owner =>
    obtain ⟨hpc', -, -, hstop⟩ := ownerStep_frame hs
    rw [hpc']
    exact ⟨(hstop hst).1, Nat.add_lt_add_left (hstop hst).2 _⟩
  | spurious =>
    rw [step, if_neg hwait] at hs
    cases hs

/-- While the constructor waits, every step goes towards `notify`. -/
lemma wait_step (h : S.Inv handle insts) (hok : S.Punctual e) (hw : S.owner = .waiting)
    (hs : S.step handle e = some S') :
    0 < S.pc.toNotify ∧ (S'.owner = .waiting → S'.pc.toNotify < S.pc.toNotify) := by
  have hrun : S.pc = .entering ∨ S.running = true := by
    by_cases hpc : S.pc = .entering
    · exact .inl hpc
    · refine .inr ?_
      by_contra hr
      have hst : S.owner.Stopping := (h.running hpc).mp (by simpa using hr)
      rw [hw] at hst
      exact hst
  have hown : e.own = true → _ := fun he => (measure_own he hs).2 hrun
  have hpos : e.own = true → 0 < S.pc.toNotify := by
    intro he
    cases hpc : S.pc with
    | ended | undefined =>
      cases e with
      | run =>
        rw [step, runStep, hpc] at hs
        cases hs
      | recvmsg r =>
        rw [step, recvStep, hpc] at hs
        cases hs
      | _ => cases he
    | receiving count => exact Nat.lt_of_lt_of_le (by decide) (Nat.le_add_right 10 _)
    | _ => exact Nat.succ_pos _
  cases e with
  | run => exact ⟨hpos rfl, hown rfl⟩
  | recvmsg r => exact ⟨hpos rfl, hown rfl⟩
  | owner => exact absurd hw (ownerStep_frame hs).2.2.1
  | spurious => exact absurd rfl hok

lemma toEnd_le (pc : RunPc) : pc.toEnd ≤ 36 := by
  cases pc <;> simp only [RunPc.toEnd] <;> omega

lemma toNotify_le (pc : RunPc) : pc.toNotify ≤ 39 := by
  cases pc <;> simp only [RunPc.toNotify] <;> omega

/-- The socket has a timeout, so `recvmsg` returns, and then `run` goes on. -/
lemma own_enabled (handle : σ → DLPacket → σ) (hend : S.pc ≠ .ended) (hdef : S.pc ≠ .undefined) :
    ∃ e, S.Punctual e ∧ (S.step handle e).isSome = true := by
  cases hpc : S.pc with
  | ended => exact absurd hpc hend
  | undefined => exact absurd hpc hdef
  | receiving count =>
    refine ⟨.recvmsg (.bytes []), by simp [Punctual], ?_⟩
    rw [step, recvStep, hpc]
    rfl
  | head | decoded pkt =>
    refine ⟨.run, by simp [Punctual], ?_⟩
    rw [step, runStep, hpc]
    dsimp only
    split_ifs <;> rfl
  | returned payload =>
    refine ⟨.run, by simp [Punctual], ?_⟩
    rw [step, runStep, hpc]
    dsimp only
    split <;> rfl
  | dispatching pkt =>
    refine ⟨.run, by simp [Punctual], ?_⟩
    rw [step, runStep, hpc]
    dsimp only
    split_ifs <;> rfl
  | _ => exact ⟨.run, by simp [Punctual], by rw [step, runStep, hpc]; rfl⟩

/-- **`stop` returns.**  From whatever state `stop` begins in, the two threads take at most 40 steps
more, whatever `recvmsg` returns; and when they can take none, `stop` has returned and `run` has
ended, unless the decoder has read past the end of a datagram. -/
theorem stop_returns (hrun : Run (step handle) Punctual (start insts) es S)
    (hst : S.owner.Stopping) {es' : List HandlerEvent}
    (hrun' : Run (step handle) Punctual S es' S') :
    es'.length ≤ 40 ∧ ((∀ e, S'.Punctual e → S'.step handle e = none) →
      S'.owner = .stopped ∧ S'.pc = .ended ∨ S'.pc = .undefined) := by
  have hkeep : ∀ (S : Receiver σ) e S', S.Inv handle insts → S.Punctual e →
      S.step handle e = some S' → S'.Inv handle insts := fun _ _ _ h hok hs => inv_step h hok hs
  have h : S.Inv handle insts := hrun.invariant hkeep inv_start
  have hstop : ∀ (S : Receiver σ) e S', S.Inv handle insts ∧ S.owner.Stopping → S.Punctual e →
      S.step handle e = some S' → S'.Inv handle insts ∧ S'.owner.Stopping :=
    fun _ _ _ h hok hs => ⟨inv_step h.1 hok hs, (stop_step h.1 h.2 hs).1⟩
  constructor
  · have hlen : es'.length + (S'.pc.toEnd + S'.owner.toEnd) ≤ S.pc.toEnd + S.owner.toEnd :=
      hrun'.length_add_le (μ := fun S => S.pc.toEnd + S.owner.toEnd) hstop
        (fun _ _ _ h _ hs => (stop_step h.1 h.2 hs).2) ⟨h, hst⟩
    have hpc : S.pc.toEnd ≤ 36 := toEnd_le S.pc
    have howner : S.owner.toEnd ≤ 4 := by cases S.owner <;> decide
    omega
  · intro hnone
    obtain ⟨-, hst'⟩ := hrun'.invariant hstop ⟨h, hst⟩
    by_cases hdef : S'.pc = .undefined
    · exact .inr hdef
    have hend : S'.pc = .ended := by
      by_contra hend
      obtain ⟨e, hok, he⟩ := own_enabled handle hend hdef
      rw [hnone e hok] at he
      cases he
    -- with the other thread at its end, `join` returns
    refine .inl ⟨?_, hend⟩
    have howner : S'.ownerStep = none := hnone .owner (by simp [Punctual])
    rw [ownerStep] at howner
    cases hown : S'.owner with
    | stopped => rfl
    | joining =>
      rw [hown] at howner
      dsimp only at howner
      rw [if_pos hend] at howner
      cases howner
    | detaching | notifying | closing =>
      rw [hown] at howner
      cases howner
    | starting | waiting | free =>
      rw [hown] at hst'
      exact hst'.elim

/-- The handler is stopped after it has handled a datagram. -/
theorem stop_returns_beacon :
    ∃ S S' : Receiver (List DLPacket), S.owner = .detaching ∧
      Run (step fun pkts pkt => pkts ++ [pkt]) Punctual S [.owner, .owner, .owner, .run, .owner]
        S' ∧
      (S'.owner = .stopped ∧ S'.pc = .ended ∨ S'.pc = .undefined) := by
  obtain ⟨S, S', hrun, hrun', howner, hpc, howner'⟩ : ∃ S S',
      Run (step fun pkts pkt => pkts ++ [pkt]) Punctual (start [])
        (receives heldBeacon.build ++ [.owner]) S ∧
      Run (step fun pkts pkt => pkts ++ [pkt]) Punctual S [.owner, .owner, .owner, .run, .owner]
        S' ∧
      S.owner = .detaching ∧ S'.pc = .ended ∧ S'.owner = .stopped :=
    ⟨_, _, Run.of_exec rfl, Run.of_exec rfl, by decide, by decide, by decide⟩
  refine ⟨S, S', howner, hrun', (stop_returns hrun ?_ hrun').2 fun e hok => ?_⟩
  · rw [howner]
    trivial
  · cases e with
    | run => rw [step, runStep, hpc]
    | recvmsg r => rw [step, recvStep, hpc]
    | owner => rw [step, ownerStep, howner']
    | spurious => exact absurd rfl hok

/-- **The constructor does not wait for ever.**  While it waits, the handler's thread takes at most
39 steps, whatever `recvmsg` returns, and it can always take one, unless the decoder has read past
the end of a datagram. -/
theorem wait_returns (hrun : Run (step handle) Punctual (start insts) es S)
    {es' : List HandlerEvent}
    (hrun' : Run (step handle) (fun S e => S.Punctual e ∧ S.owner = .waiting) S es' S') :
    es'.length ≤ 39 ∧ (S'.owner = .waiting → S'.pc ≠ .undefined →
      ∃ e, S'.Punctual e ∧ (S'.step handle e).isSome = true) := by
  have h : S.Inv handle insts := hrun.invariant (fun _ _ _ h hok hs => inv_step h hok hs) inv_start
  have hkeep : ∀ (S : Receiver σ) e S', S.Inv handle insts → S.Punctual e ∧ S.owner = .waiting →
      S.step handle e = some S' → S'.Inv handle insts :=
    fun _ _ _ h hok hs => inv_step h hok.1 hs
  constructor
  · let μ : Receiver σ → ℕ := fun S => if S.owner = .waiting then S.pc.toNotify else 0
    have hless : ∀ (S : Receiver σ) e S', S.Inv handle insts → S.Punctual e ∧ S.owner = .waiting →
        S.step handle e = some S' → μ S' < μ S := by
      intro S e S' h hok hs
      obtain ⟨hpos, hnext⟩ := wait_step h hok.1 hok.2 hs
      show (if _ then _ else _) < if _ then _ else _
      rw [if_pos hok.2]
      split_ifs with hw'
      · exact hnext hw'
      · exact hpos
    have hlen : es'.length + μ S' ≤ μ S := hrun'.length_add_le hkeep hless h
    have hμ : μ S ≤ 39 := by
      show (if _ then _ else _) ≤ 39
      split_ifs
      · exact toNotify_le S.pc
      · exact Nat.zero_le _
    omega
  · intro hw hdef
    have h' : S'.Inv handle insts := hrun'.invariant hkeep h
    refine own_enabled handle (fun hend => ?_) hdef
    have hst : S'.owner.Stopping := h'.ended hend
    rw [hw] at hst
    exact hst

/-- The first notification is lost when the thread is faster than the constructor. -/
theorem wait_returns_late :
    ∃ S S' : Receiver (List DLPacket), S.pc = .receiving 0 ∧ S'.owner = .free ∧
      Run (step fun pkts pkt => pkts ++ [pkt]) (fun S e => S.Punctual e ∧ S.owner = .waiting) S
        [.recvmsg (.error false), .run, .run] S' ∧
      (S'.owner = .waiting → S'.pc ≠ .undefined → ∃ e, S'.Punctual e ∧
        (S'.step (fun pkts pkt => pkts ++ [pkt]) e).isSome = true) := by
  obtain ⟨S, S', hrun, hrun', hpc, howner⟩ : ∃ S S',
      Run (step fun pkts pkt => pkts ++ [pkt]) Punctual (start []) [.run, .run, .run, .owner] S ∧
      Run (step fun pkts pkt => pkts ++ [pkt]) (fun S e => S.Punctual e ∧ S.owner = .waiting) S
        [.recvmsg (.error false), .run, .run] S' ∧
      S.pc = .receiving 0 ∧ S'.owner = .free :=
    ⟨_, _, Run.of_exec rfl, Run.of_exec rfl, by decide, by decide⟩
  exact ⟨S, S', hpc, howner, hrun', (wait_returns hrun hrun').2⟩

end Receiver
end DistLock
