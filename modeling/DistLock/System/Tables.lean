/-
The member tables of a group.

The states of one resource are relayed as in `DistLock.Lib.Relay`: an instance broadcasts every
change of a state, and the others copy what they hear into their tables, unless their resource
is idle; then the table is empty.  Hence an entry can only be out of date while a packet about
the resource is on its way.

Nothing is assumed about the timers here.
-/
import DistLock.Lib.Relay
import DistLock.System.Usage

namespace DistLock

open DLPacket (FitsWire)
open Lib (OrdMap)

/-- The state of the resource that a datagram announces. -/
def Datagram.said (r : Name) (d : Datagram) : Option State :=
  (DLPacket.ofPayload d.payload).bind fun p =>
    if p.resource = r then some (State.ofByte p.state) else none

namespace Inst

/-- The state of the resource as the others see it: an instance without the resource is like an
idle one. -/
def announced (r : Name) (I : Inst) : State := (I.lock.stateOf r).getD .idle

/-- The states of the resource that the packets announce. -/
def said (r : Name) (sent : List DLPacket) : List State :=
  (sent.filter fun p => p.resource = r).map fun p => State.ofByte p.state

/-- The state in the entry of the table for the given id. -/
def entry (r : Name) (id : UInt32) (I : Inst) : Option State :=
  (I.lock.getResource r).bind fun R => (R.members.find? id).map (·.state)

/-- An idle resource has no members. -/
def Tidy (r : Name) (I : Inst) : Prop :=
  ∀ R, I.lock.getResource r = some R → R.state = .idle → R.members = .empty

variable {I I' : Inst} {L : Lock} {c : Call} {e : Event} {sent : List DLPacket} {r res : Name}
  {id : UInt32} {p : DLPacket} {R : Resource}

lemma announced_of_get (h : I.lock.getResource r = some R) : I.announced r = R.state := by
  rw [announced, Lock.stateOf, h]
  rfl

lemma has_of_announced {s : State} (hs : s ≠ .idle) (h : I.announced r = s) : I.lock.Has s r := by
  rw [announced] at h
  rw [Lock.Has]
  cases hst : I.lock.stateOf r with
  | none =>
    rw [hst] at h
    exact absurd h.symm hs
  | some s' =>
    rw [hst] at h
    exact congrArg some h

lemma announced_congr (h : I'.lock.getResource r = I.lock.getResource r) :
    I'.announced r = I.announced r := by
  rw [announced, Lock.stateOf, h, announced, Lock.stateOf]

lemma entry_congr (h : I'.lock.getResource r = I.lock.getResource r) :
    I'.entry r id = I.entry r id := by
  rw [entry, h, entry]

lemma entry_of_get (h : I.lock.getResource r = some R) :
    I.entry r id = (R.members.find? id).map (·.state) := by
  rw [entry, h]
  rfl

lemma entry_of_empty (h : I.lock.getResource r = some R) (hm : R.members = .empty) :
    I.entry r id = none := by
  rw [entry_of_get h, hm, OrdMap.find?_empty]
  rfl

/-- What a beacon says about the resource. -/
lemma said_beacon (hname : R.name = res) :
    said r [R.beacon id] = if res = r then [R.state] else [] := by
  split_ifs with hres
  · simp [said, hname, hres]
  · simp [said, hname, hres]

/-! ### A step that is not a delivery -/

/-- A step announces the state of the resource, or it leaves the state alone; and it leaves the
table alone, or clears it. -/
structure Speaks (r : Name) (I I' : Inst) (sent : List DLPacket) : Prop where
  said : said r sent = [] ∧ I'.announced r = I.announced r ∨ said r sent = [I'.announced r]
  entry : (∀ id, I'.entry r id = I.entry r id) ∨ ∀ id, I'.entry r id = none

lemma Speaks.silent (h : I'.lock.getResource r = I.lock.getResource r) :
    Speaks r I I' [] where
  said := .inl ⟨rfl, announced_congr h⟩
  entry := .inl fun _ => entry_congr h

/-- The entry of a function announces nothing: a new resource is idle and has no members. -/
lemma speaks_enter (h : I' = enter I.lock c) : Speaks r I I' [] := by
  subst h
  by_cases hc : creates c = some r
  · have hR := getResource_enter I.lock c r
    rw [if_pos hc] at hR
    refine ⟨.inl ⟨rfl, ?_⟩, .inl fun id => ?_⟩
    · rw [announced_of_get hR, recount_state, announced, Lock.stateOf]
      cases I.lock.getResource r <;> rfl
    · rw [entry_of_get hR, recount_members, entry]
      cases I.lock.getResource r with
      | none => rw [Option.getD_none, Option.bind_none, Resource.new, OrdMap.find?_empty]; rfl
      | some R => rfl
  · refine .silent ?_
    rw [getResource_enter, if_neg hc]

/-- The calling thread leaves the resources alone on which it does not work. -/
lemma getResource_run_of_ne (hr : I.run = some (I', sent)) {a : Action}
    (hn : I.next = some (res, a)) (hres : res ≠ r) :
    I'.lock.getResource r = I.lock.getResource r := by
  have hsame : ∀ R, I.change .run r R = R := by
    intro R
    refine change_run_of_ne fun a' h => hres ?_
    rw [hn] at h
    exact congrArg Prod.fst (Option.some.inj h)
  rw [(frame_run hr).resource, show I.change .run r = id from funext hsame, Option.map_id, id]

/-- The action that is due is announced, unless it stops a beacon thread. -/
lemma speaks_run (hnm : I.lock.Named) (hr : I.run = some (I', sent)) : Speaks r I I' sent := by
  have hnm' : I'.lock.Named := named_step (e := .run) hnm hr
  have hf := frame_run hr
  have heq := run_eq hr
  cases hn : I.next with
  | none =>
    rw [hn] at heq
    obtain ⟨hlock, rfl⟩ := Prod.mk.inj heq
    exact .silent (by rw [hlock])
  | some ra =>
    obtain ⟨res, a⟩ := ra
    rw [hn] at heq
    obtain ⟨hlock, hsent⟩ := Prod.mk.inj heq
    by_cases ha : a = .stop
    · subst ha
      obtain rfl : sent = [] := hsent
      have hR := hf.resource r
      have hsame : ∀ R, (I.change .run r R).state = R.state ∧
          (I.change .run r R).members = R.members := by
        intro R
        rcases I.change_run_cases r R with h | ⟨a, ha, h⟩
        · rw [h]
          exact ⟨rfl, rfl⟩
        · rw [hn, Option.some.injEq, Prod.mk.injEq] at ha
          obtain ⟨-, rfl⟩ := ha
          rw [h]
          exact ⟨rfl, rfl⟩
      refine ⟨.inl ⟨rfl, ?_⟩, .inl fun id => ?_⟩
      · rw [announced, announced, Lock.stateOf, Lock.stateOf, hR, Option.map_map]
        congr 2
        funext R
        exact (hsame R).1
      · rw [entry, entry, hR]
        cases I.lock.getResource r with
        | none => rfl
        | some R => exact congrArg (fun m => (OrdMap.find? m id).map Member.state) (hsame R).2
    · have hsent' : sent = I'.lock.sendBeacon res := by
        rw [hsent, hlock]
        cases a with
        | setState s => rfl
        | reset => exact Lock.sendBeacon_reset.symm
        | stop => exact absurd rfl ha
      rw [hsent', Lock.sendBeacon]
      cases hR' : I'.lock.getResource res with
      | none =>
        -- there is no such resource
        refine .silent ?_
        by_cases hres : res = r
        · subst hres
          have hR := hf.resource res
          rw [hR', eq_comm, Option.map_eq_none_iff] at hR
          rw [hR, hR']
        · exact getResource_run_of_ne hr hn hres
      | some R' =>
        have hsaid : said r [R'.beacon I'.lock.id] = if res = r then [R'.state] else [] :=
          said_beacon (hnm' res R' hR')
        by_cases hres : res = r
        · subst hres
          rw [if_pos rfl] at hsaid
          refine ⟨.inr (by rw [hsaid, announced_of_get hR']), ?_⟩
          have hR := hf.resource res
          rw [hR'] at hR
          obtain ⟨R, hold, rfl⟩ := Option.map_eq_some_iff.mp hR.symm
          rw [change_run hn] at hR'
          cases a with
          | setState s => exact .inl fun id => by rw [entry_of_get hR', entry_of_get hold]; rfl
          | reset => exact .inr fun id => entry_of_empty hR' rfl
          | stop => exact absurd rfl ha
        · rw [if_neg hres] at hsaid
          have hsame := getResource_run_of_ne hr hn hres
          exact ⟨.inl ⟨hsaid, announced_congr hsame⟩, .inl fun _ => entry_congr hsame⟩

/-- **What a step says**, unless it is a delivery. -/
theorem speaks_step (hnm : I.lock.Named) (hd : ∀ p, e ≠ .deliver p)
    (hs : I.step e = some (I', sent)) : Speaks r I I' sent := by
  cases e with
  | call c =>
    obtain ⟨-, hI', rfl⟩ := step_call hs
    exact speaks_enter hI'
  | run => exact speaks_run hnm hs
  | timeout =>
    obtain ⟨h, rfl⟩ := step_timeout hs
    exact .silent (by rw [onTimeout_lock h])
  | wake =>
    obtain ⟨h, rfl⟩ := step_wake hs
    exact .silent (by rw [onWake_lock h])
  | elapsed n =>
    obtain ⟨h, rfl⟩ := step_elapsed hs
    exact .silent (by rw [onElapsed_lock h])
  | beacon res =>
    obtain ⟨rfl, R, hR, -, -, rfl⟩ := step_beacon hs
    refine ⟨?_, .inl fun _ => rfl⟩
    rw [said_beacon (hnm res R hR)]
    split_ifs with hres
    · exact .inr (by rw [announced_of_get (hres ▸ hR)])
    · exact .inl ⟨rfl, rfl⟩
  | deliver p => exact absurd rfl (hd p)

/-- Every step keeps idle resources without members: only `reset` makes a resource idle. -/
lemma tidy_step (h : I.Tidy r) (hs : I.step e = some (I', sent)) : I'.Tidy r := by
  intro R' hR' hidle
  rcases step_call_or hs with ⟨c, rfl, -, rfl, -⟩ | hcall
  · rw [getResource_enter] at hR'
    split_ifs at hR'
    · obtain rfl := Option.some.inj hR'
      rw [recount_state] at hidle
      rw [recount_members]
      cases hR : I.lock.getResource r with
      | none => rfl
      | some R =>
        rw [hR] at hidle
        exact h R hR hidle
    · exact h R' hR' hidle
  · rw [(frame_step hcall hs).resource] at hR'
    obtain ⟨R, hR, rfl⟩ := Option.map_eq_some_iff.mp hR'
    cases e with
    | run =>
      rcases I.change_run_cases r R with hc | ⟨a, ha, hc⟩
      · rw [hc] at hidle ⊢
        exact h R hR hidle
      · rw [hc] at hidle ⊢
        cases a with
        | reset => rfl
        | stop => exact h R hR hidle
        | setState s =>
          obtain rfl : s = .idle := hidle
          rw [next] at ha
          split at ha <;> cases ha
    | deliver p =>
      change (I.heardBy p r R).state = .idle at hidle
      rw [heardBy_state] at hidle
      show (I.heardBy p r R).members = .empty
      rw [heardBy_of_idle hidle]
      exact h R hR hidle
    | call c => cases hcall
    | _ => exact h R hR hidle

/-! ### A delivery -/

lemma entry_actionPerformed (I : Inst) (p : DLPacket) :
    (I.actionPerformed p).entry r id = (I.lock.getResource r).bind fun R =>
      ((I.heardBy p r R).members.find? id).map (·.state) := by
  rw [entry, actionPerformed_lock, getResource_hear, Option.bind_map]
  rfl

/-- A packet changes the entry of its sender only. -/
lemma entry_of_other (h : p.resource ≠ r ∨ id ≠ p.memberId) :
    (I.actionPerformed p).entry r id = I.entry r id := by
  rw [entry_actionPerformed, entry]
  congr 1
  funext R
  rw [heardBy]
  split_ifs with hif
  · rw [Resource.updateMember_find?_of_ne (h.resolve_left fun hne => hne hif.1.symm)]
  · rfl

/-- The sender is recorded, unless there is no entry at all. -/
lemma entry_of_sender (hp : p.resource = r)
    (hcount : ∀ R, I.lock.getResource r = some R → R.count = p.count) (htidy : I.Tidy r)
    (hown : ∀ R, I.lock.getResource r = some R → R.members.find? I.lock.id = none) :
    (I.actionPerformed p).entry r p.memberId = some (State.ofByte p.state) ∨
      I.entry r p.memberId = none ∧ (I.actionPerformed p).entry r p.memberId = none := by
  cases hR : I.lock.getResource r with
  | none =>
    refine .inr ⟨by rw [entry, hR]; rfl, ?_⟩
    rw [entry_actionPerformed, hR]
    rfl
  | some R =>
    rw [entry_actionPerformed, hR, Option.bind_some, entry_of_get hR, heardBy]
    split_ifs with hif
    · obtain ⟨mb, hmb, hst, -⟩ : ∃ mb, (R.updateMember p.memberId (State.ofByte p.state)
          p.count).members.find? p.memberId = some mb ∧ mb.state = State.ofByte p.state ∧
            mb.count = p.count := Resource.updateMember_find?_self (.inl (hcount R hR))
      rw [hmb, Option.map_some, hst]
      exact .inl rfl
    · -- the packet is one of the instance itself, or the resource is idle
      have hnone : R.members.find? p.memberId = none := by
        by_cases hid : p.memberId = I.lock.id
        · rw [hid]
          exact hown R hR
        · have hidle : R.state = .idle := by_contra fun h => hif ⟨hp.symm, hid, h⟩
          rw [htidy R hR hidle, OrdMap.find?_empty]
      rw [hnone]
      exact .inr ⟨rfl, rfl⟩

end Inst

namespace Sys

variable {ι : Type*} [DecidableEq ι]

/-- The state of the resource at each instance. -/
def states (r : Name) (S : Sys ι) (i : ι) : State := (S.inst i).announced r

/-- The tables, and what is on its way to them; `val i` is what `i` has announced last. -/
def relay (r : Name) (val : ι → State) (S : Sys ι) : Lib.Relay.Cfg ι State where
  val := val
  chan j i := (S.chan j i).filterMap (Datagram.said r)
  copy i j := (S.inst i).entry r (S.inst j).lock.id

/-- Nothing about the resource is on its way to `i`. -/
def Quiet (r : Name) (S : Sys ι) (i : ι) : Prop :=
  ∀ j, ∀ d ∈ S.chan j i, d.said r = none

/-- The invariant of the tables: the entries belong to instances of the group. -/
structure Kept (r : Name) (k : UInt32) (S : Sys ι) : Prop where
  sound : S.Sound FitsWire r k
  fits : ∀ i, (S.inst i).lock.Fits
  tidy : ∀ i, (S.inst i).Tidy r
  known : ∀ i id s, (S.inst i).entry r id = some s → ∃ j, (S.inst j).lock.id = id

section

variable {r : Name} {k : UInt32} {S S' S₀ : Sys ι} {i j : ι} {e : Event} {I' : Inst}
  {sent : List DLPacket} {m : Move ι} {ms : List (Move ι)} {d : Datagram} {rest : List Datagram}
  {val : ι → State}

/-- The datagrams of a step say what its packets say. -/
lemma filterMap_said (hfit : ∀ p ∈ sent, FitsWire p.resource) (t : ℕ) :
    (sent.map fun p => (⟨t, p.build⟩ : Datagram)).filterMap (Datagram.said r) =
      Inst.said r sent := by
  induction sent with
  | nil => rfl
  | cons p sent ih =>
    have hp : DLPacket.ofPayload p.build = some p :=
      DLPacket.ofPayload_build_of_fitsWire (hfit p List.mem_cons_self)
    have ih := ih fun q hq => hfit q (List.mem_cons_of_mem p hq)
    rw [List.map_cons, List.filterMap_cons, ih]
    by_cases hres : p.resource = r <;> simp [Datagram.said, hp, hres, Inst.said]

/-- The ids of the instances never change. -/
lemma id_afterAct (hid : I'.lock.id = (S.inst i).lock.id) (j : ι) :
    ((S.afterAct i I' sent).inst j).lock.id = (S.inst j).lock.id := by
  rcases eq_or_ne j i with rfl | hj
  · rw [inst_afterAct_self, hid]
  · rw [inst_afterAct_of_ne hj]

lemma entry_afterAct (hid : I'.lock.id = (S.inst i).lock.id) (l j : ι) :
    ((S.afterAct i I' sent).relay r val).copy l j =
      if l = i then I'.entry r (S.inst j).lock.id else (S.relay r val).copy l j := by
  show ((S.afterAct i I' sent).inst l).entry r ((S.afterAct i I' sent).inst j).lock.id = _
  rw [id_afterAct hid]
  split_ifs with hl
  · rw [hl, inst_afterAct_self]
  · rw [inst_afterAct_of_ne hl]
    rfl

lemma chan_afterAct (hfit : ∀ p ∈ sent, FitsWire p.resource) (j l : ι) :
    ((S.afterAct i I' sent).relay r val).chan j l =
      if j = i then (S.relay r val).chan j l ++ Inst.said r sent
      else (S.relay r val).chan j l := by
  show List.filterMap _ (if j = i then _ else _) = _
  split_ifs
  · rw [List.filterMap_append, filterMap_said hfit]
    rfl
  · rfl

/-- The step first leaves its table alone, or clears it. -/
lemma relay_table (val : ι → State) (sent : List DLPacket)
    (hid : I'.lock.id = (S.inst i).lock.id)
    (hentry : (∀ id, I'.entry r id = (S.inst i).entry r id) ∨ ∀ id, I'.entry r id = none) :
    ∃ c, Relation.ReflTransGen Lib.Relay.Step (S.relay r val) c ∧ c.val = val ∧
      c.chan = (S.relay r val).chan ∧ c.copy = ((S.afterAct i I' sent).relay r val).copy := by
  rcases hentry with hkeep | hnone
  · refine ⟨S.relay r val, .refl, rfl, rfl, ?_⟩
    funext l j
    rw [entry_afterAct hid, hkeep]
    split_ifs with hl
    · rw [hl]
      rfl
    · rfl
  · refine ⟨(S.relay r val).forget i, .single (.forget i), rfl, rfl, ?_⟩
    funext l j
    rw [entry_afterAct hid, hnone]
    rfl

/-- **An instance relays its state**, or it says nothing. -/
lemma relay_act {v : State} (hfit : ∀ p ∈ sent, FitsWire p.resource)
    (hid : I'.lock.id = (S.inst i).lock.id)
    (hsaid : Inst.said r sent = [] ∧ v = val i ∨ Inst.said r sent = [v])
    (hentry : (∀ id, I'.entry r id = (S.inst i).entry r id) ∨ ∀ id, I'.entry r id = none) :
    Relation.ReflTransGen Lib.Relay.Step (S.relay r val)
      ((S.afterAct i I' sent).relay r (Function.update val i v)) := by
  obtain ⟨c, hc, hval, hchan, hcopy⟩ := relay_table val sent hid hentry
  have hchan' : ∀ j l, ((S.afterAct i I' sent).relay r val).chan j l =
      if j = i then c.chan j l ++ Inst.said r sent else c.chan j l := by
    intro j l
    rw [chan_afterAct hfit, hchan]
  -- the announcement comes second, if there is one
  rcases hsaid with ⟨hnil, rfl⟩ | hone
  · have hquiet : (S.afterAct i I' sent).relay r (Function.update val i (val i)) = c := by
      refine Lib.Relay.Cfg.ext ?_ ?_ hcopy.symm
      · rw [hval]
        exact Function.update_eq_self ..
      · funext j l
        refine (hchan' j l).trans ?_
        rw [hnil, List.append_nil, ite_self]
    rw [hquiet]
    exact hc
  · have hspoken : (S.afterAct i I' sent).relay r (Function.update val i v) = c.announce i v := by
      refine Lib.Relay.Cfg.ext ?_ ?_ hcopy.symm
      · show Function.update val i v = Function.update c.val i v
        rw [hval]
      · funext j l
        refine (hchan' j l).trans ?_
        rw [hone]
        rfl
    rw [hspoken]
    exact hc.tail (.announce i v)

/-- A delivery changes no state and no id. -/
lemma inst_afterDeliver (l : ι) :
    (S.afterDeliver j i d rest).states r l = S.states r l ∧
      ((S.afterDeliver j i d rest).inst l).lock.id = (S.inst l).lock.id := by
  rw [states, states, afterDeliver]
  split
  · exact ⟨rfl, rfl⟩
  · next p hp =>
    dsimp only
    rcases eq_or_ne l i with rfl | hl
    · rw [Function.update_self, Inst.announced, Inst.actionPerformed_stateOf]
      exact ⟨rfl, Inst.step_id (e := .deliver p) rfl⟩
    · rw [Function.update_of_ne hl]
      exact ⟨rfl, rfl⟩

/-- **A delivery relays a state, or is about something else.** -/
lemma relay_deliver (hS : S.Kept r k) (hd : S.chan j i = d :: rest) :
    Relation.ReflTransGen Lib.Relay.Step (S.relay r val)
      ((S.afterDeliver j i d rest).relay r val) := by
  obtain ⟨p, hp, hpid, hcount⟩ := delivered hS.sound hd
  have hcopy : ∀ l j', ((S.afterDeliver j i d rest).relay r val).copy l j' =
      if l = i then ((S.inst i).actionPerformed p).entry r (S.inst j').lock.id
      else (S.relay r val).copy l j' := by
    intro l j'
    show ((S.afterDeliver j i d rest).inst l).entry r
      ((S.afterDeliver j i d rest).inst j').lock.id = _
    rw [(inst_afterDeliver (r := r) j').2, afterDeliver_eq hp]
    dsimp only
    split_ifs with hl
    · rw [hl, Function.update_self]
    · rw [Function.update_of_ne hl]
      rfl
  have hchan : ∀ j' l, ((S.afterDeliver j i d rest).relay r val).chan j' l =
      if j' = j ∧ l = i then rest.filterMap (Datagram.said r) else (S.relay r val).chan j' l := by
    intro j' l
    rw [afterDeliver_eq hp]
    show List.filterMap _ (if j' = j ∧ l = i then _ else _) = _
    split_ifs <;> rfl
  have hhead : (S.relay r val).chan j i = (d :: rest).filterMap (Datagram.said r) :=
    congrArg (List.filterMap _) hd
  -- a packet about another resource is not a message of the relay
  by_cases hres : p.resource = r
  · have hsaid : Datagram.said r d = some (State.ofByte p.state) := by
      rw [Datagram.said, hp, Option.bind_some, if_pos hres]
    rw [List.filterMap_cons, hsaid] at hhead
    have hentry := Inst.entry_of_sender (I := S.inst i) hres
      (fun R hR => ((hS.sound.inst i).count R hR).trans (hcount hres).symm) (hS.tidy i)
      (hS.sound.inst i).own
    rw [hpid] at hentry
    have hstep : (S.afterDeliver j i d rest).relay r val = (S.relay r val).deliver j i
        (rest.filterMap (Datagram.said r))
        (((S.inst i).actionPerformed p).entry r (S.inst j).lock.id) := by
      refine Lib.Relay.Cfg.ext rfl (funext fun j' => funext fun l => hchan j' l) ?_
      funext l j'
      rw [hcopy, Lib.Relay.Cfg.deliver]
      dsimp only
      split_ifs with hl hlj hlj
      · rw [hlj.2]
      · -- the entry of another member
        rw [hl, Inst.entry_of_other (.inr fun h => ?_)]
        · rfl
        · exact hlj ⟨hl, hS.sound.ids (h.trans hpid)⟩
      · exact absurd hlj.1 hl
      · rfl
    rw [hstep]
    exact .single (.deliver j i _ _ _ hhead hentry)
  · have hsaid : Datagram.said r d = none := by
      rw [Datagram.said, hp, Option.bind_some, if_neg hres]
    rw [List.filterMap_cons, hsaid] at hhead
    have hsame : (S.afterDeliver j i d rest).relay r val = S.relay r val := by
      refine Lib.Relay.Cfg.ext rfl ?_ ?_
      · funext j' l
        rw [hchan]
        split_ifs with hj
        · rw [hj.1, hj.2, hhead]
        · rfl
      · funext l j'
        rw [hcopy]
        split_ifs with hl
        · rw [hl, Inst.entry_of_other (.inl hres)]
          rfl
        · rfl
    rw [hsame]

/-- A step of one instance that leaves its table alone, or clears it. -/
lemma Kept.afterAct (hS : S.Kept r k) (hsys : (S.afterAct i I' sent).Sound FitsWire r k)
    (hfits : I'.lock.Fits) (hid : I'.lock.id = (S.inst i).lock.id) (htidy : I'.Tidy r)
    (hentry : (∀ id, I'.entry r id = (S.inst i).entry r id) ∨ ∀ id, I'.entry r id = none) :
    (S.afterAct i I' sent).Kept r k where
  sound := hsys
  fits := (Function.forall_update_iff S.inst fun _ I => I.lock.Fits).mpr
    ⟨hfits, fun j _ => hS.fits j⟩
  tidy := (Function.forall_update_iff S.inst fun _ I => I.Tidy r).mpr
    ⟨htidy, fun j _ => hS.tidy j⟩
  known l id s h := by
    have hold : ∀ {l}, (S.inst l).entry r id = some s →
        ∃ j, ((S.afterAct i I' sent).inst j).lock.id = id := by
      intro l h
      obtain ⟨j, hj⟩ := hS.known l id s h
      exact ⟨j, (id_afterAct hid j).trans hj⟩
    rcases eq_or_ne l i with rfl | hl
    · rw [inst_afterAct_self] at h
      rcases hentry with hkeep | hnone
      · exact hold ((hkeep id).symm.trans h)
      · rw [hnone] at h
        cases h
    · rw [inst_afterAct_of_ne hl] at h
      exact hold h

/-- A delivery, after which the sender may have an entry. -/
lemma Kept.afterDeliver (hS : S.Kept r k) (hd : S.chan j i = d :: rest) :
    (S.afterDeliver j i d rest).Kept r k := by
  obtain ⟨p, hp, hpid, -⟩ := delivered hS.sound hd
  have hinst : ∀ l, (S.afterDeliver j i d rest).inst l =
      if l = i then (S.inst i).actionPerformed p else S.inst l := by
    intro l
    rw [afterDeliver_eq hp]
    dsimp only
    split_ifs with hl
    · rw [hl, Function.update_self]
    · rw [Function.update_of_ne hl]
  refine ⟨sound_deliver hS.sound hd, fun l => ?_, fun l => ?_, fun l id s h => ?_⟩
  · rw [hinst]
    split_ifs
    · rw [Lock.Fits, Inst.actionPerformed_lock, Inst.hear_names]
      exact hS.fits i
    · exact hS.fits l
  · rw [hinst]
    split_ifs
    · exact Inst.tidy_step (e := .deliver p) (hS.tidy i) rfl
    · exact hS.tidy l
  · have hold : ∀ {l}, (S.inst l).entry r id = some s →
        ∃ j', ((S.afterDeliver j i d rest).inst j').lock.id = id := by
      intro l h
      obtain ⟨j', hj'⟩ := hS.known l id s h
      exact ⟨j', (inst_afterDeliver (r := r) j').2.trans hj'⟩
    rw [hinst] at h
    split_ifs at h
    · by_cases hsender : id = p.memberId
      · exact ⟨j, (inst_afterDeliver (r := r) j).2.trans (hpid.symm.trans hsender.symm)⟩
      · rw [Inst.entry_of_other (.inr hsender)] at h
        exact hold h
    · exact hold h

/-- **Every step of the group relays the states.** -/
theorem relay_step (hS : S.Kept r k) (hc : S.Proper r k m) (hs : S.step m = some S') :
    Relation.ReflTransGen Lib.Relay.Step (S.relay r (S.states r)) (S'.relay r (S'.states r)) ∧
      S'.Kept r k := by
  cases m with
  | deliver j i =>
    obtain ⟨d, rest, hd, rfl⟩ := step_deliver_inv hs
    refine ⟨?_, hS.afterDeliver hd⟩
    rw [show (S.afterDeliver j i d rest).states r = S.states r from
      funext fun l => (inst_afterDeliver l).1]
    exact relay_deliver hS hd
  | act i e =>
    obtain ⟨hS', -⟩ := sound_step_proper hS.sound hS.fits hc hs
    obtain ⟨hd, I', sent, hI, rfl⟩ := step_act_inv hs
    obtain ⟨hsaid, hentry⟩ := Inst.speaks_step (r := r) (hS.sound.inst i).named hd hI
    have hproper : ∀ c, e = .call c → c.Proper r k (S.inst i).lock := by
      rintro c rfl
      exact hc
    refine ⟨?_, hS.afterAct hS' (Inst.fits_step (hS.fits i) hproper hI) (Inst.step_id hI)
      (Inst.tidy_step (hS.tidy i) hI) hentry⟩
    have hstates : (S.afterAct i I' sent).states r =
        Function.update (S.states r) i (I'.announced r) := by
      funext j
      rw [states]
      rcases eq_or_ne j i with rfl | hj
      · rw [inst_afterAct_self, Function.update_self]
      · rw [inst_afterAct_of_ne hj, Function.update_of_ne hj, states]
    rw [hstates]
    exact relay_act (fun p hp => (sent_ok (fun _ h => h) hS.sound hI hp).1) (Inst.step_id hI)
      (hsaid.imp_left fun h => ⟨h.1, h.2⟩) hentry

omit [DecidableEq ι] in
lemma kept_initial (h₀ : S₀.Initial) (hids : Function.Injective fun i => (S₀.inst i).lock.id)
    (hfit : ∀ i, (S₀.inst i).lock.Fits)
    (hcount : ∀ i R, (S₀.inst i).lock.getResource r = some R → R.count = k) : S₀.Kept r k where
  sound := sound_initial h₀ hids hcount
  fits := hfit
  tidy i R hR _ := (h₀.idle i r R hR).2
  known i id s h := by
    cases hR : (S₀.inst i).lock.getResource r with
    | none =>
      rw [Inst.entry, hR] at h
      cases h
    | some R =>
      rw [Inst.entry_of_empty hR (h₀.idle i r R hR).2] at h
      cases h

omit [DecidableEq ι] in
lemma relay_initial (h₀ : S₀.Initial) : (S₀.relay r val).Initial where
  chan j i := by
    show (S₀.chan j i).filterMap _ = []
    rw [h₀.chan]
    rfl
  copy i j := by
    show (S₀.inst i).entry r _ = none
    cases hR : (S₀.inst i).lock.getResource r with
    | none => rw [Inst.entry, hR]; rfl
    | some R => exact Inst.entry_of_empty hR (h₀.idle i r R hR).2

/-- In every run the tables are exact, up to what is on its way. -/
lemma exact_run (h₀ : S₀.Initial) (hids : Function.Injective fun i => (S₀.inst i).lock.id)
    (hfit : ∀ i, (S₀.inst i).lock.Fits)
    (hcount : ∀ i R, (S₀.inst i).lock.getResource r = some R → R.count = k)
    (hrun : Lib.Run step (Proper r k) S₀ ms S) :
    (S.relay r (S.states r)).Exact ∧ S.Kept r k := by
  let Rel (S : Sys ι) (c : Lib.Relay.Cfg ι State) : Prop :=
    c = S.relay r (S.states r) ∧ S.Kept r k
  obtain ⟨c, hreach, rfl, hS⟩ : ∃ c,
      Relation.ReflTransGen Lib.Relay.Step (S₀.relay r (S₀.states r)) c ∧ Rel S c := by
    refine hrun.simulate ?_ ⟨rfl, kept_initial h₀ hids hfit hcount⟩
    rintro S m S' _ ⟨rfl, hS⟩ hc hs
    obtain ⟨hstep, hS'⟩ := relay_step hS hc hs
    exact ⟨_, hstep, rfl, hS'⟩
  exact ⟨Lib.Relay.exact_of_steps (relay_initial h₀) hreach, hS⟩

omit [DecidableEq ι] in
/-- A member that is recorded as a holder is one of the others and holds the resource, if nothing of
the others is on its way or about to be said. -/
lemma holder_of_entry (hexact : (S.relay r val).Exact) (hS : S.Kept r k)
    (hval : ∀ j, j ≠ i → val j = S.states r j)
    (hquiet : ∀ j, j ≠ i → ∀ d ∈ S.chan j i, d.said r = none) {R : Resource}
    (hR : (S.inst i).lock.getResource r = some R) {id : UInt32} {mb : Member}
    (hmb : R.members.find? id = some mb) (hst : mb.state = .acquired) :
    ∃ j, j ≠ i ∧ (S.inst j).lock.id = id ∧ (S.inst j).lock.Has .acquired r := by
  have hentry : (S.inst i).entry r id = some mb.state := by
    rw [Inst.entry_of_get hR, hmb]
    rfl
  obtain ⟨j, rfl⟩ := hS.known i id _ hentry
  have hj : j ≠ i := by
    rintro rfl
    rw [(hS.sound.inst j).own R hR] at hmb
    cases hmb
  have hlast : mb.state = val j :=
    hexact.copy_eq (List.filterMap_eq_nil_iff.mpr (hquiet j hj)) hentry
  exact ⟨j, hj, rfl, Inst.has_of_announced (by simp) ((hlast.trans (hval j hj)).symm.trans hst)⟩

end

end Sys
end DistLock
