/-
The handler beside the retry loop.

`actionPerformed` tests the state of the resource and then updates its table, and `reset` stores
`IDLE` and then clears the table; the machine of `DistLock.Model.Api` takes each of them in one
step.  Here the thread of the handler and the calling thread are interleaved.  A packet that is
handled without interruption has the effect that it has there (`Handling.uninterrupted`), and so
has a `reset`.

The calling thread never waits while it holds a part of its resources, and what it has reset stays
empty if no table is cleared in the middle of an update (`Handling.no_hold_and_wait`).  Otherwise
the update may fill the table of a resource that has been reset (`Handling.filled_after_reset`).
-/
import DistLock.Acquire.Coherent

namespace DistLock

open Lib (Run)
open Lock (Has Clear)

/-- Where the thread of the handler is with its packet.  In `updateMember` it compares the counts,
or the state with `QUERYING`, calls `getMember`, calls it again in `addMember`, inserts a new
member there, or is about to write to the member.  Then it is about to notify `any_cv` and
`listen_cv`, compares the state with `ACQUIRING` and with `ACQUIRED`, or is about to notify `cv`. -/
inductive HandlingPc
  | waiting
  | comparing (pkt : DLPacket)
  | querying (pkt : DLPacket)
  | looking (pkt : DLPacket)
  | adding (pkt : DLPacket)
  | inserting (pkt : DLPacket)
  | writing (pkt : DLPacket)
  | notifyingAny (pkt : DLPacket)
  | notifyingListen (pkt : DLPacket)
  | testing (pkt : DLPacket)
  | retesting (pkt : DLPacket)
  | notifying
  deriving DecidableEq

/-- The resource whose table is being updated. -/
def HandlingPc.updates : HandlingPc → Option Name
  | comparing pkt | querying pkt | looking pkt | adding pkt | inserting pkt | writing pkt =>
    some pkt.resource
  | _ => none

/-- The resources which a loop has yet to start or to reset. -/
def Ctl.unvisited : Ctl → List Name
  | adquire _ _ (.start rest) | adquire _ _ (.waitForReady _ rest)
  | adquire _ _ (.resetting rest) => rest
  | _ => []

/-- The table of the resource may be filled: it has not been reset, or it is going to be. -/
def Inst.Open (I : Inst) (r : Name) : Prop :=
  I.lock.stateOf r ≠ some .idle ∨ r ∈ I.ctl.unvisited

/-- An instance and its handler.  `clearing` says that the calling thread is in the second half of
`reset`. -/
structure Handling where
  inst : Inst
  handler : HandlingPc
  clearing : Bool

/-- The steps of the instance; the arrival of a packet; the next step of the handler. -/
inductive HandlingEvent
  | own (e : Event)
  | packet (pkt : DLPacket)
  | handler
  deriving DecidableEq

/-- The calls of the calling thread. -/
def HandlingEvent.isCall : HandlingEvent → Bool
  | own e => e.isCall
  | _ => false

/-- Only what the operation does to the resource itself matters. -/
lemma Lock.modify_congr {L : Lock} {res : Name} {f g : Resource → Resource}
    (h : ∀ R, L.getResource res = some R → f R = g R) : L.modify res f = L.modify res g := by
  rw [modify, modify]
  split
  · next R hR => rw [h R hR]
  · rfl

lemma Lock.modify_eq_self {L : Lock} {res : Name} {f : Resource → Resource}
    (h : ∀ R, L.getResource res = some R → f R = R) : L.modify res f = L := by
  refine ext_getResource modify_id modify_beaconTime modify_retryMax fun n => ?_
  rw [getResource_modify]
  split_ifs with hn
  · rw [hn]
    cases hR : L.getResource res with
    | none => rfl
    | some R => rw [Option.map_some, h R hR]
  · rfl

lemma Inst.notify_lock (I : Inst) (c : CondVar) : (I.notify c).lock = I.lock := by
  rcases I.notify_cases c with h | h
  · rw [h]
  · exact onWake_lock h

namespace Handling

/-- The resource of the packet satisfies `p`. -/
def about (S : Handling) (pkt : DLPacket) (p : Resource → Bool) : Bool :=
  (S.inst.lock.getResource pkt.resource).any p

/-- The table of the resource of the packet is changed, and the handler goes on at `pc`. -/
def store (S : Handling) (pkt : DLPacket) (f : Resource → Resource) (pc : HandlingPc) : Handling :=
  { S with inst := ⟨S.inst.lock.modify pkt.resource f, S.inst.ctl⟩, handler := pc }

/-- A new member is put into the table. -/
def inserted (pkt : DLPacket) (R : Resource) : Resource :=
  { R with members := R.members.insert pkt.memberId (Member.new pkt.memberId) }

/-- What the packet says is written to its member; there is none if the table has been cleared in
the meantime, and then the write goes to freed memory. -/
def written (pkt : DLPacket) (R : Resource) : Resource :=
  match R.getMember pkt.memberId with
  | some m =>
    let m := { m with count := pkt.count, state := .ofByte pkt.state }
    { R with members := R.members.insert pkt.memberId m }
  | none => R

/-- The next step of `updateMember`, or of `actionPerformed` after it. -/
def handle (S : Handling) : Option Handling :=
  match S.handler with
  | .waiting => none
  | .comparing pkt =>
    some { S with
      handler := if S.about pkt (·.count = pkt.count) then .looking pkt else .querying pkt }
  | .querying pkt =>
    some { S with
      handler := if S.about pkt (·.state = .querying) then .looking pkt else .notifyingAny pkt }
  | .looking pkt =>
    some { S with
      handler := if S.about pkt fun R => (R.getMember pkt.memberId).isSome then .writing pkt
        else .adding pkt }
  | .adding pkt =>
    some { S with
      handler := if S.about pkt fun R => (R.getMember pkt.memberId).isSome then .writing pkt
        else .inserting pkt }
  | .inserting pkt => some (S.store pkt (inserted pkt) (.writing pkt))
  | .writing pkt => some (S.store pkt (written pkt) (.notifyingAny pkt))
  | .notifyingAny pkt =>
    some { S with
      inst := S.inst.notify .anyCv
      handler := if State.ofByte pkt.state = .acquiring then .notifyingListen pkt else .waiting }
  | .notifyingListen pkt =>
    some { S with
      inst := S.inst.notify .listenCv
      handler := .testing pkt }
  | .testing pkt =>
    some { S with
      handler := if S.about pkt (·.state = .acquiring) then .notifying else .retesting pkt }
  | .retesting pkt =>
    some { S with
      handler := if S.about pkt (·.state = .acquired) then .notifying else .waiting }
  | .notifying =>
    some { S with
      inst := S.inst.notify .cv
      handler := .waiting }

/-- `reset` in two halves: the state is stored and announced, and the table is cleared. -/
def reset (S : Handling) (res : Name) : Option (Handling × List DLPacket) :=
  if S.clearing then
    S.inst.run.map fun s =>
      ({ S with
        inst := ⟨S.inst.lock.modify res (·.clearMembers), s.1.ctl⟩
        clearing := false }, [])
  else
    some ({ S with
      inst := ⟨(S.inst.lock.setState res .idle).1, S.inst.ctl⟩
      clearing := true }, (S.inst.lock.setState res .idle).2)

/-- A step of the instance. -/
def own (S : Handling) (e : Event) : Option (Handling × List DLPacket) :=
  (S.inst.step e).map fun s => ({ S with inst := s.1 }, s.2)

/-- One step, with the packets that it broadcasts. -/
def step (S : Handling) : HandlingEvent → Option (Handling × List DLPacket)
  | .own (.deliver _) => none
  | .own .run =>
    match S.inst.next with
    | some (res, .reset) => S.reset res
    | _ => S.own .run
  | .own e => S.own e
  -- the packets of the instance itself and those about other resources are ignored
  | .packet pkt =>
    if S.handler = .waiting then
      match S.inst.addressee pkt with
      | none => some (S, [])
      | some R =>
        some ({ S with
          handler := if R.state = .idle then .notifyingAny pkt else .comparing pkt }, [])
    else none
  | .handler => S.handle.map fun S' => (S', [])

/-- One step, without the packets. -/
def proceed (S : Handling) (e : HandlingEvent) : Option Handling := (S.step e).map Prod.fst

/-- `reset` does not clear the table of the resource that the handler is updating. -/
def Spares (S : Handling) : HandlingEvent → Prop
  | .own .run =>
    S.clearing → ∀ res ∈ S.handler.updates, S.inst.next.map Prod.fst ≠ some res
  | _ => True

instance (S : Handling) : DecidablePred S.Spares
  | .own .run => inferInstanceAs (Decidable
    (S.clearing → ∀ res ∈ S.handler.updates, S.inst.next.map Prod.fst ≠ some res))
  | .own (.call _) | .own .timeout | .own .wake | .own (.elapsed _) | .own (.beacon _)
  | .own (.deliver _) | .packet _ | .handler => isTrue trivial

/-! ### What a step can do -/

section Does

variable {S S' : Handling} {e : HandlingEvent}

/-- All steps. -/
inductive Does (S : Handling) : HandlingEvent → Handling → Prop
  | own {e : Event} {I : Inst} {sent : List DLPacket} (hd : ∀ p, e ≠ .deliver p)
    (hn : e = .run → ∀ res, S.inst.next ≠ some (res, .reset))
    (hs : S.inst.step e = some (I, sent)) : Does S (.own e) { S with inst := I }
  | idle {res : Name} (hn : S.inst.next = some (res, .reset)) (hc : S.clearing = false) :
    Does S (.own .run) { S with
      inst := ⟨(S.inst.lock.setState res .idle).1, S.inst.ctl⟩
      clearing := true }
  | clear {res : Name} {I : Inst} {sent : List DLPacket}
    (hn : S.inst.next = some (res, .reset)) (hc : S.clearing = true)
    (hr : S.inst.run = some (I, sent)) :
    Does S (.own .run) { S with
      inst := ⟨S.inst.lock.modify res (·.clearMembers), I.ctl⟩
      clearing := false }
  | ignore {pkt : DLPacket} : Does S (.packet pkt) S
  | accept {pkt : DLPacket} {R : Resource}
    (hR : S.inst.lock.getResource pkt.resource = some R) (hs : R.state ≠ .idle) :
    Does S (.packet pkt) { S with handler := .comparing pkt }
  | skip {pkt : DLPacket} : Does S (.packet pkt) { S with handler := .notifyingAny pkt }
  -- the handler decides something, changes the table, or notifies
  | decide {pc : HandlingPc} (hpc : pc.updates = S.handler.updates ∨ pc.updates = none) :
    Does S .handler { S with handler := pc }
  | store {pkt : DLPacket} {f : Resource → Resource} {pc : HandlingPc}
    (hu : S.handler.updates = some pkt.resource)
    (hf : ∀ R, f R = { R with members := (f R).members })
    (hpc : pc.updates = S.handler.updates ∨ pc.updates = none) :
    Does S .handler (S.store pkt f pc)
  | notify {c : CondVar} {pc : HandlingPc} (hpc : pc.updates = none) :
    Does S .handler { S with
      inst := S.inst.notify c
      handler := pc }

lemma written_eq (pkt : DLPacket) (R : Resource) :
    written pkt R = { R with members := (written pkt R).members } := by
  rw [written]
  split <;> rfl

lemma does_handler (h : S.handle = some S') : S.Does .handler S' := by
  rw [handle] at h
  cases hpc : S.handler with
  | waiting =>
    rw [hpc] at h
    cases h
  | comparing pkt | querying pkt | looking pkt | adding pkt =>
    simp only [hpc, Option.some.injEq] at h
    rw [← h]
    refine .decide ?_
    rw [hpc]
    split_ifs
    · exact .inl rfl
    · first | exact .inl rfl | exact .inr rfl
  | inserting pkt =>
    simp only [hpc, Option.some.injEq] at h
    rw [← h]
    exact .store (by rw [hpc]; rfl) (fun _ => rfl) (.inl (by rw [hpc]; rfl))
  | writing pkt =>
    simp only [hpc, Option.some.injEq] at h
    rw [← h]
    exact .store (by rw [hpc]; rfl) (written_eq pkt) (.inr rfl)
  | notifyingAny pkt =>
    simp only [hpc, Option.some.injEq] at h
    rw [← h]
    refine .notify ?_
    split_ifs <;> rfl
  | notifyingListen pkt | notifying =>
    simp only [hpc, Option.some.injEq] at h
    rw [← h]
    exact .notify rfl
  | testing pkt | retesting pkt =>
    simp only [hpc, Option.some.injEq] at h
    rw [← h]
    refine .decide (.inr ?_)
    split_ifs <;> rfl

lemma does_own {e : Event} {sent : List DLPacket} (hd : ∀ p, e ≠ .deliver p)
    (hn : e = .run → ∀ res, S.inst.next ≠ some (res, .reset))
    (h : S.own e = some (S', sent)) : S.Does (.own e) S' := by
  obtain ⟨⟨I, l⟩, hI, heq⟩ := Option.map_eq_some_iff.mp h
  obtain ⟨rfl, -⟩ := Prod.mk.inj heq
  exact .own hd hn hI

theorem does_of_proceed (h : S.proceed e = some S') : S.Does e S' := by
  obtain ⟨⟨S', sent⟩, hs, rfl⟩ := Option.map_eq_some_iff.mp h
  cases e with
  | own e =>
    cases e with
    | deliver p => cases hs
    | run =>
      simp only [step] at hs
      split at hs
      · next res hn =>
        rw [reset] at hs
        split_ifs at hs with hc
        · obtain ⟨⟨I, l⟩, hI, heq⟩ := Option.map_eq_some_iff.mp hs
          obtain ⟨rfl, -⟩ := Prod.mk.inj heq
          exact .clear hn hc hI
        · obtain ⟨rfl, -⟩ := Prod.mk.inj (Option.some.inj hs)
          exact .idle hn ((Bool.not_eq_true _).mp hc)
      · next hn => exact does_own (by simp) (fun _ => hn) hs
    | _ => exact does_own (by simp) (by simp) hs
  | packet pkt =>
    simp only [step] at hs
    split_ifs at hs
    split at hs
    · obtain ⟨rfl, -⟩ := Prod.mk.inj (Option.some.inj hs)
      exact .ignore
    · next R hR =>
      obtain ⟨rfl, -⟩ := Prod.mk.inj (Option.some.inj hs)
      rw [Inst.addressee] at hR
      split_ifs at hR
      split_ifs with hidle
      · exact .skip
      · exact .accept hR hidle
  | handler =>
    obtain ⟨S₁, hS₁, heq⟩ := Option.map_eq_some_iff.mp hs
    obtain ⟨rfl, -⟩ := Prod.mk.inj heq
    exact does_handler hS₁

end Does

/-! ### Steps without interruption -/

section Handles

/-- The handler goes on from the first state to the second one. -/
def Handles : Handling → Handling → Prop := Relation.ReflTransGen fun S S' => S.handle = some S'

variable {I : Inst} {R : Resource} {pkt : DLPacket} {clearing : Bool}

lemma about_eq {pc : HandlingPc} {p : Resource → Bool}
    (hR : I.lock.getResource pkt.resource = some R) :
    about ⟨I, pc, clearing⟩ pkt p = p R := by
  rw [about, hR, Option.any_some]

/-- What the two steps of an update that finds no member do together. -/
lemma written_inserted (hm : R.getMember pkt.memberId = none)
    (h : R.count = pkt.count ∨ R.state = .querying) :
    written pkt (inserted pkt R) =
      R.updateMember pkt.memberId (.ofByte pkt.state) pkt.count := by
  have hnew : (inserted pkt R).getMember pkt.memberId = some (Member.new pkt.memberId) := by
    rw [inserted, Resource.getMember]
    exact Lib.OrdMap.find?_insert_self
  rw [Resource.updateMember_eq h, hm, written, hnew, inserted]
  refine congrArg (fun ms => { R with members := ms }) (Lib.OrdMap.ext_find? fun id => ?_)
  rw [Lib.OrdMap.find?_insert, Lib.OrdMap.find?_insert, Lib.OrdMap.find?_insert]
  split_ifs <;> rfl

lemma written_found {m : Member} (hm : R.getMember pkt.memberId = some m)
    (h : R.count = pkt.count ∨ R.state = .querying) :
    written pkt R = R.updateMember pkt.memberId (.ofByte pkt.state) pkt.count := by
  rw [Resource.updateMember_eq h, written, hm]
  rfl

/-- Without interruption the sections of `updateMember` are one update. -/
lemma handles_update (hR : I.lock.getResource pkt.resource = some R) :
    Handles ⟨I, .comparing pkt, clearing⟩ ⟨⟨I.lock.modify pkt.resource fun R =>
      R.updateMember pkt.memberId (.ofByte pkt.state) pkt.count, I.ctl⟩,
        .notifyingAny pkt, clearing⟩ := by
  by_cases h : R.count = pkt.count ∨ R.state = .querying
  · have hlook : Handles ⟨I, .comparing pkt, clearing⟩ ⟨I, .looking pkt, clearing⟩ := by
      by_cases hc : R.count = pkt.count
      · exact .single (by simp [handle, about_eq hR, hc])
      · refine .head (b := ⟨I, .querying pkt, clearing⟩) (by simp [handle, about_eq hR, hc]) ?_
        exact .single (by simp [handle, about_eq hR, h.resolve_left hc])
    refine hlook.trans ?_
    cases hm : R.getMember pkt.memberId with
    | some m =>
      refine .head (b := ⟨I, .writing pkt, clearing⟩) (by simp [handle, about_eq hR, hm]) ?_
      refine .single ?_
      have heq : I.lock.modify pkt.resource (written pkt) = I.lock.modify pkt.resource fun R =>
          R.updateMember pkt.memberId (.ofByte pkt.state) pkt.count := by
        refine Lock.modify_congr fun R' hR' => ?_
        obtain rfl := Option.some.inj (hR.symm.trans hR')
        exact written_found hm h
      rw [← heq]
      rfl
    | none =>
      refine .head (b := ⟨I, .adding pkt, clearing⟩) (by simp [handle, about_eq hR, hm]) ?_
      refine .head (b := ⟨I, .inserting pkt, clearing⟩) (by simp [handle, about_eq hR, hm]) ?_
      refine .head rfl (.single ?_)
      have heq : (I.lock.modify pkt.resource (inserted pkt)).modify pkt.resource (written pkt) =
          I.lock.modify pkt.resource fun R =>
            R.updateMember pkt.memberId (.ofByte pkt.state) pkt.count := by
        rw [Lock.modify_modify]
        refine Lock.modify_congr fun R' hR' => ?_
        obtain rfl := Option.some.inj (hR.symm.trans hR')
        exact written_inserted hm h
      rw [← heq]
      rfl
  · have heq : I.lock.modify pkt.resource (fun R =>
        R.updateMember pkt.memberId (.ofByte pkt.state) pkt.count) = I.lock := by
      refine Lock.modify_eq_self fun R' hR' => ?_
      obtain rfl := Option.some.inj (hR.symm.trans hR')
      exact Resource.updateMember_of_not h
    obtain ⟨hc, hq⟩ := not_or.mp h
    rw [heq]
    refine .head (b := ⟨I, .querying pkt, clearing⟩) (by simp [handle, about_eq hR, hc]) ?_
    exact .single (by simp [handle, about_eq hR, hq])

/-- The notifications at the end of `actionPerformed`. -/
lemma handles_notify (hR : I.lock.getResource pkt.resource = some R) :
    Handles ⟨I, .notifyingAny pkt, clearing⟩
      ⟨if State.ofByte pkt.state = .acquiring then
          if R.state = .acquiring ∨ R.state = .acquired then
            ((I.notify .anyCv).notify .listenCv).notify .cv
          else (I.notify .anyCv).notify .listenCv
        else I.notify .anyCv, .waiting, clearing⟩ := by
  by_cases ha : State.ofByte pkt.state = .acquiring
  · have hR' : ((I.notify .anyCv).notify .listenCv).lock.getResource pkt.resource = some R := by
      rw [Inst.notify_lock, Inst.notify_lock, hR]
    rw [if_pos ha]
    refine .head (b := ⟨I.notify .anyCv, .notifyingListen pkt, clearing⟩)
      (by simp [handle, ha]) (.head rfl ?_)
    generalize (I.notify .anyCv).notify .listenCv = J at hR' ⊢
    by_cases h₁ : R.state = .acquiring
    · rw [if_pos (.inl h₁)]
      refine .head (b := ⟨J, .notifying, clearing⟩) ?_ (.single rfl)
      simp [handle, about_eq hR', h₁]
    · refine .head (b := ⟨J, .retesting pkt, clearing⟩) ?_ ?_
      · simp [handle, about_eq hR', h₁]
      · by_cases h₂ : R.state = .acquired
        · rw [if_pos (.inr h₂)]
          refine .head (b := ⟨J, .notifying, clearing⟩) ?_ (.single rfl)
          simp [handle, about_eq hR', h₂]
        · rw [if_neg (not_or.mpr ⟨h₁, h₂⟩)]
          exact .single (by simp [handle, about_eq hR', h₂])
  · rw [if_neg ha]
    exact .single (by simp [handle, ha])

/-- **A packet that is handled without interruption** is handled as in one step. -/
theorem uninterrupted (I : Inst) (pkt : DLPacket) (clearing : Bool) :
    ∃ S, proceed ⟨I, .waiting, clearing⟩ (.packet pkt) = some S ∧
      S.Handles ⟨I.actionPerformed pkt, .waiting, clearing⟩ := by
  cases haddr : I.addressee pkt with
  | none =>
    refine ⟨⟨I, .waiting, clearing⟩, by simp [proceed, step, haddr], ?_⟩
    rw [Inst.actionPerformed, haddr]
    exact .refl
  | some R =>
    have hR : I.lock.getResource pkt.resource = some R := by
      rw [Inst.addressee] at haddr
      split_ifs at haddr
      exact haddr
    rw [Inst.actionPerformed, haddr]
    dsimp only
    rw [Inst.record]
    by_cases hidle : R.state = .idle
    · refine ⟨⟨I, .notifyingAny pkt, clearing⟩, by simp [proceed, step, haddr, hidle], ?_⟩
      rw [if_pos hidle]
      exact handles_notify hR
    · refine ⟨⟨I, .comparing pkt, clearing⟩, by simp [proceed, step, haddr, hidle], ?_⟩
      rw [if_neg hidle]
      refine (handles_update hR).trans ?_
      have hR' : (I.lock.modify pkt.resource fun R =>
          R.updateMember pkt.memberId (.ofByte pkt.state) pkt.count).getResource pkt.resource =
            some (R.updateMember pkt.memberId (.ofByte pkt.state) pkt.count) := by
        rw [Lock.getResource_modify_self, hR]
        rfl
      have h := @handles_notify ⟨_, I.ctl⟩ _ _ clearing hR'
      rw [Resource.updateMember_state] at h
      exact h

end Handles

end Handling

/-! ### What the calling thread relies on -/

namespace Inst

variable {I I' : Inst} {e : Event} {sent : List DLPacket} {res r : Name} {a : Action}
  {scope : Option Name} {retry : UInt32} {pc : Pc} {L L' : Lock}

/-- The tables of the resources that have yet to be visited do not matter. -/
lemma coherent_touch (hn : L'.names = L.names) (hm : L'.retryMax = L.retryMax)
    (hs : ∀ r, L'.stateOf r = L.stateOf r)
    (hc : ∀ r, r ∉ (Ctl.adquire scope retry pc).unvisited → L.Clear r → L'.Clear r)
    (h : pc.Coherent L scope retry) : pc.Coherent L' scope retry := by
  have hhas : ∀ {s r}, L.Has s r → L'.Has s r := fun {s r} hr => (hs r).trans hr
  cases pc with
  | start rest => exact ⟨h.1, h.2.mono hn (fun r _ => hhas) fun _ _ _ => trivial⟩
  | waitForReady res rest =>
    rw [Pc.Coherent, Lock.targets_congr hn]
    exact ⟨h.1, h.2.1, h.2.2.mono hn (fun r _ => hhas) fun _ _ _ => trivial⟩
  | resetting rest =>
    obtain ⟨done, hd, hdone, -⟩ := h
    have hnd : (done ++ rest).Nodup := hd ▸ L.targets_nodup scope
    refine ⟨done, (Lock.targets_congr hn scope).trans hd, fun r hr => ?_, fun _ _ => trivial⟩
    exact hc r (fun hrest => List.disjoint_of_nodup_append hnd hr hrest) (hdone r hr)
  | _ => exact coherent_keeps hn hm (fun r => ⟨hs r, hc r List.not_mem_nil⟩) h

lemma acquiring_touch (hn : L.names = I.lock.names) (hm : L.retryMax = I.lock.retryMax)
    (hs : ∀ r, L.stateOf r = I.lock.stateOf r)
    (hc : ∀ r, r ∉ I.ctl.unvisited → I.lock.Clear r → L.Clear r) (h : I.Acquiring scope) :
    Acquiring scope ⟨L, I.ctl⟩ := by
  obtain ⟨L₀, ctl⟩ := I
  cases ctl with
  | adquire scope' retry pc =>
    obtain ⟨rfl, hsub, hcoh⟩ := h
    refine ⟨rfl, ?_, coherent_touch hn hm hs hc hcoh⟩
    rw [Lock.targets_congr hn, hn]
    exact hsub
  | free b => exact acquiring_keeps hn hm (fun r => ⟨hs r, hc r List.not_mem_nil⟩) h
  | _ => exact h.elim

/-- Nothing else is assigned than the states of the retry loop, apart from a reset. -/
lemma assigns_of_next (h : I.Acquiring scope) (hn : I.next = some (res, a)) :
    a = .reset ∨ ∃ s, s ≠ .idle ∧ a = .setState s := by
  obtain ⟨L, ctl⟩ := I
  cases ctl with
  | adquire scope' retry pc =>
    cases pc with
    | start rest | starting rest | announcing rest =>
      cases rest with
      | nil => exact absurd hn (by simp [next])
      | cons r rest =>
        obtain ⟨-, rfl⟩ := Prod.mk.inj (Option.some.inj hn)
        exact .inr ⟨_, by simp, rfl⟩
    | resetting rest =>
      cases rest with
      | nil => exact absurd hn (by simp [next])
      | cons r rest =>
        obtain ⟨-, rfl⟩ := Prod.mk.inj (Option.some.inj hn)
        exact .inl rfl
    | marking r rest =>
      obtain ⟨-, rfl⟩ := Prod.mk.inj (Option.some.inj hn)
      exact .inr ⟨_, by simp, rfl⟩
    | _ => exact absurd hn (by simp [next])
  | free b => exact absurd hn (by simp [next])
  | _ => exact h.elim

/-- Where the thread resets it does not wait. -/
lemma resumes_of_reset (hn : I.next = some (res, .reset)) (hr : I.Resumes I') : I' = I := by
  obtain ⟨scope, retry, rest, hctl⟩ := resetting_of_next hn
  rcases hr with h | h | h | ⟨n, h⟩
  · exact h
  · exact absurd h (by simp [onWake, hctl])
  · exact absurd h (by simp [onTimeout, hctl])
  · exact absurd h (by simp [onElapsed, hctl])

/-- The end of a wait leaves every loop with what it has yet to visit. -/
lemma unvisited_onWake (h : I.onWake = some I') (hr : r ∈ I.ctl.unvisited) :
    r ∈ I'.ctl.unvisited := by
  rw [onWake] at h
  split at h <;> simp only [Option.some.injEq, reduceCtorEq] at h
  all_goals next hctl => rw [hctl] at hr; subst h; first | exact hr | cases hr

lemma unvisited_resumes (h : I.Resumes I') (hr : r ∈ I.ctl.unvisited) :
    r ∈ I'.ctl.unvisited := by
  rcases h with rfl | h | h | ⟨n, h⟩
  · exact hr
  · exact unvisited_onWake h hr
  · rw [onTimeout] at h
    split at h <;> simp only [Option.some.injEq, reduceCtorEq] at h
    all_goals next hctl => rw [hctl] at hr; cases hr
  · obtain ⟨q, n, b, -, hctl, -⟩ := onElapsed_cases h
    rw [hctl] at hr
    cases hr

/-- What the thread passes without a reset has been assigned a state. -/
lemma open_run (h : I.Acquiring none) (hr : I.run = some (I', sent))
    (hn : ∀ res, I.next ≠ some (res, .reset)) (ho : I.Open r) : I'.Open r := by
  have hf := frame_run hr
  by_cases hdue : ∃ a, I.next = some (r, a)
  · obtain ⟨a, ha⟩ := hdue
    rcases assigns_of_next h ha with rfl | ⟨s, hs, rfl⟩
    · exact absurd ha (hn r)
    · have hhas := hf.has ha (mem_targets_of_next h ha).1
      refine .inl fun hidle => hs ?_
      exact Lock.Has.eq hhas hidle
  · have hkeep : I'.lock.stateOf r = I.lock.stateOf r :=
      (hf.keeps fun _ a ha => hdue ⟨a, ha⟩).stateOf_eq
    refine ho.imp (fun ho => hkeep ▸ ho) fun ho => ?_
    obtain ⟨L, ctl⟩ := I
    cases ctl with
    | adquire scope retry pc =>
      cases pc with
      | start rest =>
        cases rest with
        | nil => cases ho
        | cons res rest =>
          obtain ⟨rfl, -⟩ := Prod.mk.inj (Option.some.inj hr)
          refine (List.mem_cons.mp ho).resolve_left ?_
          rintro rfl
          exact hdue ⟨_, rfl⟩
      | waitForReady res rest => exact absurd hr (by simp [run, adquireLock])
      | resetting rest =>
        cases rest with
        | nil => cases ho
        | cons res rest => exact absurd rfl (hn res)
      | _ => cases ho
    | _ => cases ho

/-- So does every other step. -/
lemma open_step (he : e.isCall = false) (h : I.Acquiring none)
    (hn : e = .run → ∀ res, I.next ≠ some (res, .reset)) (hs : I.step e = some (I', sent))
    (ho : I.Open r) : I'.Open r := by
  rcases step_cases he hs with ⟨rfl, hr⟩ | ⟨hne, hr⟩
  · exact open_run h hr (hn rfl) ho
  · have hkeep : I'.lock.stateOf r = I.lock.stateOf r :=
      ((frame_step he hs).keeps fun he => absurd he hne).stateOf_eq
    exact ho.imp (fun ho => hkeep ▸ ho) (unvisited_resumes hr)

end Inst

namespace Handling

open Inst (acquiring_touch)

variable {S S' : Handling} {e : HandlingEvent} {es : List HandlingEvent}

/-- A `reset` whose halves follow each other is the `reset` in one step. -/
theorem reset_uninterrupted {I I' : Inst} {sent : List DLPacket} {res : Name} {pc : HandlingPc}
    (hn : I.next = some (res, .reset)) (hr : I.run = some (I', sent)) :
    Run proceed (fun _ _ => True) ⟨I, pc, false⟩ [.own .run, .own .run] ⟨I', pc, false⟩ := by
  obtain ⟨L, ctl⟩ := I
  obtain ⟨scope, retry, rest, rfl⟩ := Inst.resetting_of_next hn
  obtain ⟨rfl, -⟩ := Prod.mk.inj (Option.some.inj hr)
  exact .cons trivial rfl (.cons trivial rfl (.nil _))

/-- The invariant: the table that the handler is updating may be filled, and in the second half of
`reset` the resource is `IDLE`. -/
structure Sound (S : Handling) : Prop where
  acquiring : S.inst.Acquiring none
  updates : ∀ r ∈ S.handler.updates, S.inst.Open r
  clearing : S.clearing = true → ∃ res, S.inst.next = some (res, .reset) ∧
    S.inst.lock.Has .idle res

/-- Where the handler goes the invariant does not matter, unless it begins an update. -/
lemma Sound.updates_of {pc : HandlingPc} (h : S.Sound)
    (hpc : pc.updates = S.handler.updates ∨ pc.updates = none) (r : Name)
    (hr : r ∈ pc.updates) : S.inst.Open r := by
  rcases hpc with hpc | hpc
  · exact h.updates r (hpc ▸ hr)
  · rw [hpc] at hr
    cases hr

/-- The state of the resource is stored: its table is about to be cleared. -/
lemma sound_idle {res : Name} (h : S.Sound) (hn : S.inst.next = some (res, .reset)) :
    Sound { S with
      inst := ⟨(S.inst.lock.setState res .idle).1, S.inst.ctl⟩
      clearing := true } := by
  obtain ⟨⟨L, ctl⟩, pc, clearing⟩ := S
  have hacq := h.acquiring
  obtain ⟨scope, retry, rest, rfl⟩ := Inst.resetting_of_next hn
  obtain ⟨rfl, hsub, hcoh⟩ := hacq
  have hres : res ∈ L.names := hsub res (Visited.head hcoh)
  have hother : ∀ r, r ≠ res → (L.setState res .idle).1.getResource r = L.getResource r := by
    intro r hr
    rw [Lock.getResource_setState, if_neg hr]
  refine ⟨⟨rfl, ?_, ?_⟩, fun r hr => ?_, fun _ => ⟨res, rfl, ?_⟩⟩
  · rwa [Lock.targets_congr Lock.setState_names, Lock.setState_names]
  · -- those that have been reset before are left alone
    obtain ⟨done, hd, hdone, -⟩ := hcoh
    have hnd : (done ++ res :: rest).Nodup := hd ▸ L.targets_nodup none
    refine ⟨done, (Lock.targets_congr Lock.setState_names none).trans hd, fun r hr => ?_,
      fun _ _ => trivial⟩
    have hne : r ≠ res := by
      rintro rfl
      exact List.disjoint_of_nodup_append hnd hr List.mem_cons_self
    rw [Clear, hother r hne]
    exact hdone r hr
  · by_cases hne : r = res
    · exact .inr (hne ▸ List.mem_cons_self)
    · refine (h.updates r hr).imp (fun ho => ?_) id
      rwa [Lock.stateOf, hother r hne]
  · obtain ⟨R, hR⟩ := Lock.mem_names_iff.mp hres
    rw [Has, Lock.stateOf, Lock.getResource_setState, if_pos rfl, hR]
    rfl

/-- The table is cleared, and nobody is updating it. -/
lemma sound_clear {res : Name} {I : Inst} {sent : List DLPacket} (h : S.Sound)
    (hn : S.inst.next = some (res, .reset)) (hc : S.clearing = true)
    (hr : S.inst.run = some (I, sent)) (hfree : S.handler.updates ≠ some res) :
    Sound { S with
      inst := ⟨S.inst.lock.modify res (·.clearMembers), I.ctl⟩
      clearing := false } := by
  obtain ⟨⟨L, ctl⟩, pc, clearing⟩ := S
  have hacq := h.acquiring
  obtain ⟨res', hn', hidle⟩ := h.clearing hc
  obtain rfl : res' = res := congrArg Prod.fst (Option.some.inj (hn'.symm.trans hn))
  obtain ⟨scope, retry, rest, rfl⟩ := Inst.resetting_of_next hn
  obtain ⟨rfl, hsub, hcoh⟩ := hacq
  obtain ⟨rfl, -⟩ := Prod.mk.inj (Option.some.inj hr)
  have hother : ∀ r, r ≠ res' → (L.modify res' (·.clearMembers)).getResource r =
      L.getResource r := fun r hne => Lock.getResource_modify_of_ne hne
  have hclear : (L.modify res' (·.clearMembers)).Clear res' := by
    obtain ⟨R, hR, hs⟩ := Option.map_eq_some_iff.mp hidle
    exact ⟨R.clearMembers, by rw [Lock.getResource_modify_self, hR]; rfl, hs, rfl⟩
  refine ⟨⟨rfl, ?_, ?_⟩, fun r hu => ?_, fun hf => absurd hf Bool.false_ne_true⟩
  · rwa [Lock.targets_congr Lock.names_modify, Lock.names_modify]
  · refine Visited.advance hcoh Lock.names_modify hclear (fun r hne hr => ?_)
      fun _ _ _ => trivial
    rw [Clear, hother r hne]
    exact hr
  · have hne : r ≠ res' := by
      rintro rfl
      exact hfree hu
    refine (h.updates r hu).imp (fun ho => ?_) fun ho => ?_
    · rwa [Lock.stateOf, hother r hne]
    · exact (List.mem_cons.mp ho).resolve_left hne

/-- The handler changes a table on which the calling thread does not rely. -/
lemma sound_store {pkt : DLPacket} {f : Resource → Resource} {pc : HandlingPc} (h : S.Sound)
    (hu : S.handler.updates = some pkt.resource)
    (hf : ∀ R, f R = { R with members := (f R).members })
    (hpc : pc.updates = S.handler.updates ∨ pc.updates = none) : (S.store pkt f pc).Sound := by
  have hstate : ∀ r, (S.inst.lock.modify pkt.resource f).stateOf r = S.inst.lock.stateOf r := by
    intro r
    rw [Lock.stateOf, Lock.stateOf, Lock.getResource_modify]
    split_ifs
    · rw [Option.map_map]
      congr 1
      funext R
      rw [Function.comp_apply, hf R]
    · rfl
  refine ⟨acquiring_touch Lock.names_modify Lock.modify_retryMax hstate (fun r hr hclear => ?_)
    h.acquiring, fun r hr => ?_, fun hc => ?_⟩
  · -- a resource that has been reset is not the one that is updated
    have hne : r ≠ pkt.resource := by
      rintro rfl
      exact ((h.updates _ hu).resolve_right hr) hclear.has
    rw [Clear, Lock.getResource_modify_of_ne hne]
    exact hclear
  · exact (h.updates_of hpc r hr).imp (fun ho => (hstate r).symm ▸ ho) id
  · obtain ⟨res, hn, hidle⟩ := h.clearing hc
    exact ⟨res, hn, (hstate res).trans hidle⟩

/-- **Every step keeps the invariant**, unless it clears the table that is being updated. -/
theorem sound_step (h : S.Sound) (hcall : e.isCall = false) (hsp : S.Spares e)
    (hd : S.Does e S') : S'.Sound ∧ S'.inst.lock.names = S.inst.lock.names := by
  cases hd with
  | @own e I sent hd hn hs =>
    have hf := Inst.frame_step hcall hs
    refine ⟨⟨Inst.acquiring_step hcall h.acquiring hs, fun r hr => ?_, fun hc => ?_⟩, hf.names_eq⟩
    · exact Inst.open_step hcall h.acquiring hn hs (h.updates r hr)
    · -- nothing else happens to the calling thread within `reset`
      obtain ⟨res, hnext, hidle⟩ := h.clearing hc
      have hrun : e ≠ .run := fun he => hn he res hnext
      have hkeep : Lock.Keeps _ _ res := hf.keeps fun he => absurd he hrun
      rcases Inst.step_cases hcall hs with ⟨he, -⟩ | ⟨-, hr⟩
      · exact absurd he hrun
      · have hI := Inst.resumes_of_reset (I := ⟨I.lock, S.inst.ctl⟩) hnext hr
        refine ⟨res, ?_, hkeep.has hidle⟩
        rw [hI]
        exact hnext
  | idle hn hc => exact ⟨sound_idle h hn, Lock.setState_names⟩
  | clear hn hc hr =>
    refine ⟨sound_clear h hn hc hr fun hu => ?_, Lock.names_modify⟩
    exact hsp hc _ hu (by rw [hn]; rfl)
  | ignore => exact ⟨h, rfl⟩
  | @accept pkt R hR hs =>
    refine ⟨⟨h.acquiring, fun r hr => ?_, h.clearing⟩, rfl⟩
    obtain rfl : pkt.resource = r := Option.some.inj hr
    refine .inl ?_
    rw [Lock.stateOf, hR]
    exact fun hidle => hs (Option.some.inj hidle)
  | skip => exact ⟨⟨h.acquiring, fun r hr => (by cases hr), h.clearing⟩, rfl⟩
  | decide hpc => exact ⟨⟨h.acquiring, h.updates_of hpc, h.clearing⟩, rfl⟩
  | store hu hf hpc => exact ⟨sound_store h hu hf hpc, Lock.names_modify⟩
  | @notify c pc hpc =>
    have hnone : ∀ r ∈ pc.updates, (S.inst.notify c).Open r := by
      intro r hr
      rw [hpc] at hr
      cases hr
    rcases S.inst.notify_cases c with hI | hI
    · rw [hI] at hnone ⊢
      exact ⟨⟨h.acquiring, hnone, h.clearing⟩, rfl⟩
    · refine ⟨⟨Inst.acquiring_onWake h.acquiring hI, hnone, fun hc => ?_⟩,
        congrArg Lock.names (Inst.onWake_lock hI)⟩
      obtain ⟨res, hn, hidle⟩ := h.clearing hc
      rw [Inst.resumes_of_reset hn (.inr (.inl hI))]
      exact ⟨res, hn, hidle⟩

/-- **No hold and wait.**  Let `acquire()` be entered while the handler is anywhere.  Whenever the
thread waits inside the retry loop of `adquire_lock()`, all resources are in one state, which is
not `acquired`; when the function returns, either all of them have been acquired or all of them
have been reset. -/
theorem no_hold_and_wait {I₀ I₁ : Inst} {pc : HandlingPc} (hne : I₀.lock.names ≠ [])
    (hcall : I₀.step (.call (.acquire [])) = some (I₁, []))
    (hrun : Run proceed (fun S e => e.isCall = false ∧ S.Spares e) ⟨I₁, pc, false⟩ es S) :
    (∀ retry pc, S.inst.ctl = .adquire none retry pc →
      pc = .listening ∨ pc = .colliding ∨ pc = .backingOff →
      ∃ s, s ≠ .acquired ∧ (∀ r ∈ I₀.lock.names, S.inst.lock.Has s r) ∧
        (pc = .listening → s = .starting) ∧ (pc = .colliding → s = .acquiring) ∧
        (pc = .backingOff → s = .starting ∨ s = .idle)) ∧
    (S.inst.ctl = .free (some true) → ∀ r ∈ I₀.lock.names, S.inst.lock.Has .acquired r) ∧
    (S.inst.ctl = .free (some false) → ∀ r ∈ I₀.lock.names, S.inst.lock.Clear r) := by
  have hI₁ : I₁ = ⟨I₀.lock, .adquire none 0 (.start I₀.lock.names)⟩ :=
    (Inst.step_call hcall).2.1.trans (Inst.acquiring_enter hne).1
  have hstart : Sound ⟨I₁, pc, false⟩ := by
    rw [hI₁]
    refine ⟨(Inst.acquiring_enter hne).1 ▸ (Inst.acquiring_enter hne).2, fun r _ => ?_,
      fun hc => absurd hc Bool.false_ne_true⟩
    by_cases hr : r ∈ I₀.lock.names
    · exact .inr hr
    · exact .inl fun hs => hr (Lock.mem_names_of_stateOf hs)
  obtain ⟨hS, hn⟩ : S.Sound ∧ S.inst.lock.names = I₀.lock.names := by
    refine hrun.invariant (I := fun S => S.Sound ∧ S.inst.lock.names = I₀.lock.names) ?_
      ⟨hstart, by rw [hI₁]⟩
    rintro S e S' ⟨hS, hn⟩ ⟨hc, hsp⟩ hst
    obtain ⟨hS', hn'⟩ := sound_step hS hc hsp (does_of_proceed hst)
    exact ⟨hS', hn'.trans hn⟩
  have hI := hS.acquiring
  rw [← hn]
  refine ⟨fun retry pc hctl hpc => ?_, fun hctl => ?_, fun hctl => ?_⟩
  · rw [Inst.Acquiring, hctl] at hI
    obtain ⟨-, -, hc⟩ := hI
    rcases hpc with rfl | rfl | rfl
    · exact ⟨.starting, by simp, hc.2, by simp, by simp, by simp⟩
    · exact ⟨.acquiring, by simp, hc, by simp, by simp, by simp⟩
    · rcases hc with ⟨-, hc⟩ | hc
      · exact ⟨.starting, by simp, hc, by simp, by simp, by simp⟩
      · exact ⟨.idle, by simp, fun r hr => (hc r hr).has, by simp, by simp, by simp⟩
  · rwa [Inst.Acquiring, hctl] at hI
  · rwa [Inst.Acquiring, hctl] at hI

/-- An instance with the resources `a` and `b` that tries once. -/
def once : Inst :=
  ⟨{ ((Lock.new 1 50).defineResource [97] 1).defineResource [98] 1 with retryMax := 1 },
    .free none⟩

/-- A packet about `res`, with the count 1. -/
def packetOf (id : UInt32) (res : Name) (s : State) : DLPacket :=
  ((DLPacket.new s.toByte id).setResource res).setCount 1

/-- `acquire()` up to the check of `b`: in the collision wait the member 2 is heard to hold it, and
an update of `a` is under way, in which the member 3 is about to be looked for. -/
def untilFull : List HandlingEvent :=
  [.own .run, .own .wake, .own .run, .own .wake] ++ List.replicate 5 (.own .run) ++
    [.own .timeout, .own .run, .own .run, .own .run, .packet (packetOf 2 [98] .acquired)] ++
    List.replicate 6 .handler ++
    [.own .timeout, .own .run, .own .run, .packet (packetOf 3 [97] .starting), .handler, .own .run]

/-- The rest of the update. -/
def finishes : List HandlingEvent := List.replicate 5 .handler

/-- The reset of `b`, and the way out. -/
def givesUp : List HandlingEvent :=
  List.replicate 4 (.own .run) ++ [.own .timeout, .own .run]

/-- The update of `a` ends in the middle of its reset, and `acquire()` returns. -/
theorem no_hold_and_wait_once :
    ∃ I₁ S, once.step (.call (.acquire [])) = some (I₁, []) ∧
      Run proceed (fun S e => e.isCall = false ∧ S.Spares e) ⟨I₁, .waiting, false⟩
        (untilFull ++ [.own .run] ++ finishes ++ [.own .run] ++ givesUp) S ∧
      S.inst.ctl = .free (some false) ∧ ∀ r ∈ once.lock.names, S.inst.lock.Clear r := by
  have hcall : once.step (.call (.acquire [])) =
      some (Inst.enter once.lock (.acquire []), []) := rfl
  have hexec : (Lib.exec proceed (fun S e => e.isCall = false ∧ S.Spares e)
      ⟨Inst.enter once.lock (.acquire []), .waiting, false⟩
      (untilFull ++ [.own .run] ++ finishes ++ [.own .run] ++ givesUp)).map (·.inst.ctl) =
        some (.free (some false)) := by
    decide +kernel
  obtain ⟨S, hS, hctl⟩ := Option.map_eq_some_iff.mp hexec
  exact ⟨_, S, hcall, .of_exec hS, hctl,
    (no_hold_and_wait (by decide) hcall (.of_exec hS)).2.2 hctl⟩

/-- The update of `a` ends after its reset, and `acquire()` returns with a member in the table. -/
theorem filled_after_reset :
    ∃ I₁ S, once.step (.call (.acquire [])) = some (I₁, []) ∧
      Run proceed (fun _ e => e.isCall = false) ⟨I₁, .waiting, false⟩
        (untilFull ++ [.own .run, .own .run] ++ finishes ++ givesUp) S ∧
      S.inst.ctl = .free (some false) ∧ ∃ r ∈ once.lock.names, ¬ S.inst.lock.Clear r := by
  have hexec : (Lib.exec proceed (fun _ e => e.isCall = false)
      ⟨Inst.enter once.lock (.acquire []), .waiting, false⟩
      (untilFull ++ [.own .run, .own .run] ++ finishes ++ givesUp)).map (fun S =>
        (S.inst.ctl, (S.inst.lock.getResource [97]).map (·.members.keys))) =
        some (.free (some false), some [3]) := by
    decide +kernel
  obtain ⟨S, hS, h⟩ := Option.map_eq_some_iff.mp hexec
  obtain ⟨hctl, hkeys⟩ := Prod.mk.inj h
  refine ⟨_, S, rfl, .of_exec hS, hctl, [97], by decide, ?_⟩
  rintro ⟨R, hR, -, hm⟩
  rw [hR, Option.map_some, hm] at hkeys
  exact absurd (Option.some.inj hkeys) (by decide)

end Handling
end DistLock
