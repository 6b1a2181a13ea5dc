/-
The group with its threads as an instance of the admission protocol of `DistLock.Lib.Claim`.

What an instance has announced last about `r` is what its threads have sent last.  If they send in
turn, then the beacon thread repeats this announcement, or it sends the current state, and every
step of the group is one step of the protocol (`Group.step_view`).
-/
import DistLock.System.Group

namespace DistLock

open DLPacket (FitsWire)
open Lib.Claim (Cfg Phase Stage Step)

namespace Threads

variable {T T' : Threads} {t : Tick}

/-- A packet is built from the current state, by the thread that is about to build it. -/
lemma held_step (hs : T.step t = some T') {m : ℕ × DLPacket}
    (hm : m ∈ T'.api.held ∨ m ∈ T'.beacon.held) :
    (m ∈ T.api.held ∨ m ∈ T.beacon.held) ∨ m = T.packet ∧ (t = .api ∨ T.beacon = .building) := by
  cases effect_step hs with
  | call op hf => exact .inl (hm.imp_left fun hm => absurd hm (by simp [ApiPc.held]))
  | store op hf | send op m hf | clear hf | read hf hr | skip hf hr | drop hf | join hf hb =>
    exact .inl (hm.imp_left fun hm => absurd hm (by simp [ApiPc.held]))
  | build op hf =>
    rcases hm with hm | hm
    · exact .inr ⟨(Option.some.inj hm).symm, .inl rfl⟩
    · exact .inl (.inr hm)
  | notify op hf =>
    rcases hm with hm | hm
    · exact absurd hm (by cases op <;> simp [Op.rest, ApiPc.held])
    · rw [notifyBeacon_beacon] at hm
      split_ifs at hm
      · cases hm
      · exact .inl (.inr hm)
  | wake hf =>
    rcases hm with hm | hm
    · cases hm
    · rw [notifyCv_beacon] at hm
      split_ifs at hm
      · cases hm
      · exact .inl (.inr hm)
  | transmit m' hb => exact .inl (hm.imp_right fun hm => absurd hm (by simp [BeaconPc.held]))
  | move hmove =>
    rcases hm with hm | hm
    · exact .inl (.inl hm)
    · cases hmove with
      | build hb => exact .inr ⟨(Option.some.inj hm).symm, .inr hb⟩
      | _ => cases hm

/-- The beacon thread does not build a packet of a resource that is idle. -/
lemma building_step (hs : T.step t = some T') (hb : T'.beacon = .building) :
    T.beacon = .building ∨ t.ofApi = false ∧ T.res.state ≠ .idle := by
  cases effect_step hs with
  | notify op hf =>
    change T.notifyBeacon.beacon = _ at hb
    rw [notifyBeacon_beacon] at hb
    split_ifs at hb
    exact .inl hb
  | wake hf =>
    change T.notifyCv.beacon = _ at hb
    rw [notifyCv_beacon] at hb
    split_ifs at hb
    exact .inl hb
  | transmit m' h => cases hb
  | move hmove =>
    cases hmove with
    | busy h hidle => exact .inr ⟨rfl, hidle⟩
    | _ => cases hb
  | call | store | build | send | clear | read | skip | drop | join => exact .inl hb

/-- The packet that is sent in the step. -/
def sends (T : Threads) : Tick → Option (ℕ × DLPacket)
  | .api => T.api.held
  | .beacon => T.beacon.held
  | _ => none

lemma sent_step (hs : T.step t = some T') : T'.sent = T.sent ++ (T.sends t).toList := by
  cases effect_step hs with
  | call op hf => exact (List.append_nil _).symm
  | store op hf | build op hf | clear hf | read hf hr | skip hf hr | drop hf | join hf hb =>
    simp [sends, hf, ApiPc.held]
  | send op m hf => simp [sends, hf, ApiPc.held]
  | notify op hf | wake hf => simp [sends, hf, ApiPc.held]
  | transmit m hb => simp [sends, hb, BeaconPc.held]
  | move hmove =>
    cases hmove with
    | loop h | leave h | idle h | busy h | park h | build h | nap h =>
      simp [sends, h, BeaconPc.held]
    | timeout | unpark | abandon => exact (List.append_nil _).symm

/-- While an announcement is due, the operation goes on. -/
lemma not_free_of_unsent (hapi : T.api.Unsent) (hs : T.step .api = some T') :
    T'.api.isFree = false := by
  cases effect_step hs with
  | build | send => rfl
  | move hmove => cases hmove
  | store op hf | notify op hf | clear hf | read hf | skip hf | drop hf | wake hf | join hf =>
    rw [hf] at hapi
    exact hapi.elim

end Threads

namespace Node

variable {N N' : Node} {e : NodeEvent} {sent : List DLPacket} {n r : Name} {A : Name → Prop}
  {k : UInt32}

/-- The packets of the threads of `n` are packets of the instance about `n`, and they are built for
the resources in `A` only. -/
structure Labelled (A : Name → Prop) (r : Name) (k : UInt32) (N : Node) (n : Name) : Prop where
  op : N.op = some n → A n
  building : (N.ready n).threads.beacon = .building → A n
  packets : ∀ m, m ∈ (N.ready n).threads.api.held ∨ m ∈ (N.ready n).threads.beacon.held →
    A n ∧ m.2.memberId = N.inst.lock.id ∧ m.2.resource = n ∧ (n = r → m.2.count = k)

lemma Acts.id {I : Inst} (ha : N.Acts e I) : I.lock.id = N.inst.lock.id := by
  obtain rfl | ⟨e', l, hs, -⟩ | ⟨ctl, -, rfl⟩ := ha.cases
  · rfl
  · exact Inst.step_id hs
  · rfl

/-- The resource on which an operation works. -/
lemma Does.op (hI : N.inst.Sound A r k) (hop : N.op = some n → A n) (hd : N.Does e N' sent)
    (hop' : N'.op = some n) : A n := by
  cases hd with
  | own | ready | late => exact hop hop'
  | deliver pkt => exact hop hop'
  | store hop hn hmem ha hR hR' hr =>
    obtain rfl := Option.some.inj hop'
    exact (Inst.on_next hI.coherent hI.busy hn).1
  | api hop₀ hR =>
    dsimp only at hop'
    split_ifs at hop'
    exact hop (hop₀.trans hop')

/-- What a packet says that is built now. -/
lemma packet_label (h : N.Sound) (hI : N.inst.Sound A r k) (hmem : n ∈ N.inst.lock.names) :
    (N.ready n).threads.packet.2.memberId = N.inst.lock.id ∧
      (N.ready n).threads.packet.2.resource = n ∧
      (n = r → (N.ready n).threads.packet.2.count = k) := by
  obtain ⟨R, hR⟩ := Lock.mem_names_iff.mp hmem
  obtain ⟨hname, hcount, -⟩ := object_of_get hR ▸ (h.tied n).res
  refine ⟨(h.tied n).id, hname.trans (hI.named n R hR), ?_⟩
  rintro rfl
  exact hcount.trans (hI.count R hR)

lemma Does.labelled (h : N.Sound) (hI : N.inst.Sound A r k) (hl : N.Labelled A r k n)
    (hd : N.Does e N' sent) : N'.Labelled A r k n := by
  have hop' : N'.op = some n → A n := hd.op hI hl.op
  have hid : N'.inst.lock.id = N.inst.lock.id := hd.acts.id
  have hturn := hd.turn n
  -- a step of the two threads of an existing resource
  have htick : ∀ {t : Tick} {T : Threads}, n ∈ N.inst.lock.names →
      (t = .api → N.op = some n) → (N.ready n).threads.step t = some T →
      (T.beacon = .building → A n) ∧ ∀ m, m ∈ T.api.held ∨ m ∈ T.beacon.held →
        A n ∧ m.2.memberId = N.inst.lock.id ∧ m.2.resource = n ∧ (n = r → m.2.count = k) := by
    intro t T hmem ht hT
    constructor
    · intro hb
      rcases Threads.building_step hT hb with hb | ⟨-, hidle⟩
      · exact hl.building hb
      · obtain ⟨R, hR⟩ := Lock.mem_names_iff.mp hmem
        have hstate := (object_of_get hR ▸ (h.tied n).res).2.2
        exact by_contra fun hA => hidle (hstate.trans (hI.idle n R hR hA))
    · intro m hm
      rcases Threads.held_step hT hm with hm | ⟨rfl, hwho⟩
      · exact hl.packets m hm
      · refine ⟨?_, packet_label h hI hmem⟩
        rcases hwho with hapi | hb
        · exact hl.op (ht hapi)
        · exact hl.building hb
  suffices hready : ((N'.ready n).threads.beacon = .building → A n) ∧
      ∀ m, m ∈ (N'.ready n).threads.api.held ∨ m ∈ (N'.ready n).threads.beacon.held →
        A n ∧ m.2.memberId = N.inst.lock.id ∧ m.2.resource = n ∧ (n = r → m.2.count = k) from
    ⟨hop', hready.1, by rw [hid]; exact hready.2⟩
  generalize N'.ready n = R' at hturn
  cases hturn with
  | stays | recount => exact ⟨hl.building, hl.packets⟩
  | store he hop hR hR' =>
    rw [threads_of_store hR hR']
    exact ⟨hl.building, fun m hm => hl.packets m (hm.imp_left fun hm => by cases hm)⟩
  | api he hop hR =>
    obtain ⟨-, T, hT, rfl⟩ := Readiness.step_tick_inv hR
    exact htick (h.busy n hop).1 (fun _ => hop) hT
  | ready he hp hR =>
    rcases threads_of_ready hR with heq | ⟨t, rfl, hT⟩
    · rw [heq]
      exact ⟨hl.building, hl.packets⟩
    · simp only [permits, Bool.and_eq_true, Bool.not_eq_true', Lock.isSome_getResource] at hp
      exact htick hp.2 (fun ht => by rw [ht] at hp; cases hp.1) hT

/-- What a step does to the instance, to the channels, and to what has been sent about `r`. -/
inductive Effect (r : Name) (N N' : Node) (e : NodeEvent) (sent : List DLPacket) : Prop
  | act {a : Event} {l : List DLPacket} (hs : N.inst.step a = some (N'.inst, l))
    (hd : ∀ p, a ≠ .deliver p) (he : e = .own a ∨ a = .run)
    (hapi : ¬ (N.ready r).threads.api.Unsent) (hsent : sent = [])
    (hsaid : (N'.ready r).threads.sent = (N.ready r).threads.sent)
  | stays {n : Name} {o : Option (ℕ × DLPacket)} (hI : N'.inst = N.inst)
    (ho : ∀ m ∈ o, m ∈ (N.ready n).threads.api.held ∨ m ∈ (N.ready n).threads.beacon.held)
    (hsent : sent = o.toList.map Prod.snd)
    (hsaid : (N'.ready r).threads.sent =
      (N.ready r).threads.sent ++ if n = r then o.toList else [])
  | moves (hwhy : N.inst.onWake = some N'.inst ∨
      e = .late ∧ ∃ ctl, N.late = some ctl ∧ N'.inst = ⟨N.inst.lock, ctl⟩)
    (hsent : sent = []) (hsaid : (N'.ready r).threads.sent = (N.ready r).threads.sent)

lemma not_unsent_of_free {pc : ApiPc} (h : pc.isFree = true) : ¬ pc.Unsent := by
  cases pc <;> simp_all [ApiPc.isFree, ApiPc.Unsent]

/-- What the threads of `r` have sent when those of `res` have taken a step. -/
lemma sent_of_update {res : Name} {R : Readiness} {o : Option (ℕ × DLPacket)}
    (hT : R.threads.sent = (N.ready res).threads.sent ++ o.toList) :
    (Function.update N.ready res R r).threads.sent =
      (N.ready r).threads.sent ++ if res = r then o.toList else [] := by
  rcases eq_or_ne r res with rfl | hne
  · rw [Function.update_self, hT, if_pos rfl]
  · rw [Function.update_of_ne hne, if_neg fun h => hne h.symm, List.append_nil]

theorem Does.effect (h : N.Sound) (hd : N.Does e N' sent) (hp : ∀ p, e ≠ .deliver p) :
    Effect r N N' e sent := by
  cases hd with
  | @own e I l hop ht hs =>
    refine .act hs ?_ (.inl rfl) (not_unsent_of_free (h.free r (by simp [hop]))) rfl ?_
    · rintro p rfl
      cases ht
    · cases e with
      | call c =>
        show (N.recount (.call c) r).threads.sent = _
        rw [recount]
        dsimp only
        split_ifs <;> rfl
      | _ => rfl
  | @store res a op R R' I l hop hnext hmem ha hR hR' hr =>
    refine .act (a := .run) hr (fun p he => by cases he) (.inr rfl)
      (not_unsent_of_free (h.free r (by simp [hop]))) rfl ?_
    have hsame : (Function.update N.ready res R' r).threads.sent = _ :=
      sent_of_update (o := none) (by rw [threads_of_store hR hR']; exact (List.append_nil _).symm)
    exact hsame.trans (by simp)
  | @api res R hop hR =>
    obtain ⟨-, T, hT, rfl⟩ := Readiness.step_tick_inv hR
    have hsent : T.sent = (N.ready res).threads.sent ++ _ := Threads.sent_step hT
    have hsaid := sent_of_update (r := r) (R := { N.ready res with
      threads := T, due := (N.ready res).dueAfter .api }) hsent
    by_cases hfree : T.api.isFree = true
    · have hnot : ¬ (N.ready res).threads.api.Unsent := by
        intro hu
        rw [Threads.not_free_of_unsent hu hT] at hfree
        cases hfree
      have hheld : (N.ready res).threads.api.held = none := by
        cases hapi : (N.ready res).threads.api <;> simp_all [ApiPc.Unsent, ApiPc.held]
      rw [Threads.sends, hheld] at hsaid
      rcases N.stopped_cases res with heq | ⟨-, l, hr⟩
      · refine .stays (n := res) (o := none) ?_ (fun m hm => by cases hm) (by rw [hheld]) hsaid
        exact (if_pos hfree).trans heq
      · refine .act (a := .run) (l := l) ?_ (fun p he => by cases he) (.inr rfl) ?_
          (by rw [hheld]; rfl) (hsaid.trans (by simp))
        · dsimp only
          rw [if_pos hfree]
          exact hr
        · rcases eq_or_ne res r with rfl | hne
          · exact hnot
          · refine not_unsent_of_free (h.free r ?_)
            rw [hop]
            exact fun heq => hne (Option.some.inj heq)
    · exact .stays (if_neg hfree) (fun m hm => .inl hm) rfl hsaid
  | @ready res e R hpe hR =>
    have hsame : R.threads.sent = (N.ready res).threads.sent →
        (Function.update N.ready res R r).threads.sent = (N.ready r).threads.sent := by
      intro hT
      have hsaid := sent_of_update (r := r) (o := none) (hT.trans (List.append_nil _).symm)
      exact hsaid.trans (by simp)
    cases e with
    | tick t =>
      obtain ⟨-, T, hT, rfl⟩ := Readiness.step_tick_inv hR
      -- the two threads leave `waitForReady` alone
      have hwakes : N.wakes res { N.ready res with
          threads := T, due := (N.ready res).dueAfter t } = false := by
        rw [wakes]
        cases (N.ready res).wait <;> rfl
      have hsends :
          N.sends res (.tick t) = ((N.ready res).threads.sends t).toList.map Prod.snd := by
        cases t with
        | call op | api => cases hpe
        | _ => rfl
      refine .stays (n := res) (o := (N.ready res).threads.sends t) ?_ (fun m hm => ?_) hsends
        (sent_of_update (Threads.sent_step hT))
      · simp [hwakes]
      · cases t with
        | beacon => exact .inr hm
        | call op | api => cases hpe
        | _ => cases hm
    | notify | enter | sleep | spurious =>
      have hthreads : R.threads = (N.ready res).threads := by
        rcases threads_of_ready hR with heq | ⟨t, ht, -⟩
        · exact heq
        · cases ht
      have hsaid := hsame (congrArg Threads.sent hthreads)
      cases hwakes : N.wakes res R with
      | false =>
        exact .stays (n := res) (o := none) rfl (fun m hm => by cases hm) rfl
          (hsaid.trans (by simp))
      | true =>
        cases hw : N.inst.onWake with
        | none =>
          exact .stays (n := res) (o := none) rfl (fun m hm => by cases hm) rfl
            (hsaid.trans (by simp))
        | some I => exact .moves (.inl hw) rfl hsaid
  | deliver pkt => exact absurd rfl (hp pkt)
  | late hl => exact .moves (.inr ⟨rfl, _, hl, rfl⟩) rfl rfl

end Node

/-- The calls that the instances make keep what is assumed of every lock, and the invariant of the
instance. -/
structure Lawful {ι : Type*} (A : Name → Prop) (r : Name) (k : UInt32) (Q : ι → Lock → Prop)
    (C : ι → Lock → Call → Prop) : Prop where
  names : ∀ i L L', Q i L → L'.names = L.names → Q i L'
  enter : ∀ i (I : Inst) c, I.Sound A r k → Q i I.lock → C i I.lock c → (∃ b, I.ctl = .free b) →
    (Inst.enter I.lock c).Sound A r k ∧ Q i (Inst.enter I.lock c).lock

namespace Group

variable {ι : Type*} [DecidableEq ι] {A : Name → Prop} {r : Name} {k : UInt32}
  {Q : ι → Lock → Prop} {C : ι → Lock → Call → Prop} {G G' : Group ι} {i j : ι} {e : NodeEvent}
  {N : Node} {sent : List DLPacket}

/-- What each instance has announced last about the resource. -/
def said (r : Name) (G : Group ι) (i : ι) : Phase := (G.ready i r).threads.announced.phase

/-- The group as the admission protocol sees it. -/
def view (r : Name) (G : Group ι) : Cfg ι := G.sys.view r (G.said r)

/-- The invariant of the group. -/
structure Sound (A : Name → Prop) (r : Name) (k : UInt32) (Q : ι → Lock → Prop)
    (G : Group ι) : Prop where
  sys : G.sys.Sound A r k
  node : ∀ i, (G.node i).Sound
  late : ∀ i, ∀ ctl ∈ G.late i, (⟨(G.sys.inst i).lock, ctl⟩ : Inst).Sound A r k ∧
    (⟨(G.sys.inst i).lock, ctl⟩ : Inst).waitsOn = none
  ordered : ∀ i, (G.ready i r).threads.Ordered
  labelled : ∀ i n, (G.node i).Labelled A r k n
  lawful : ∀ i, Q i (G.sys.inst i).lock

omit [DecidableEq ι] in
/-- The state of the resource, as its threads know it. -/
lemma Sound.phase_eq (h : G.Sound A r k Q) (i : ι) :
    (G.ready i r).threads.res.state.phase = (G.sys.inst i).phase r := by
  have hstate : (G.ready i r).threads.res.state = ((G.node i).object r).state :=
    ((h.node i).tied r).res.2.2
  rw [hstate, Node.object, Inst.phase, Lock.stateOf]
  show State.phase (((G.sys.inst i).lock.getResource r).getD (Resource.new r)).state = _
  cases (G.sys.inst i).lock.getResource r <;> rfl

omit [DecidableEq ι] in
/-- Unless an announcement is due, the current phase has been announced last. -/
lemma Sound.said_eq (h : G.Sound A r k Q) (hapi : ¬ (G.ready i r).threads.api.Unsent) :
    G.said r i = (G.sys.inst i).phase r := by
  rw [said, (h.ordered i).announced_current ((h.node i).ready r).threads hapi, h.phase_eq]

/-- What has been announced changes with what the threads of the resource have sent. -/
lemma said_afterAct : (G.afterAct i N sent).said r =
    Function.update (G.said r) i (N.ready r).threads.announced.phase := by
  funext j
  show ((Function.update G.ready i N.ready j) r).threads.announced.phase = _
  rcases eq_or_ne j i with rfl | hj
  · rw [Function.update_self, Function.update_self]
  · rw [Function.update_of_ne hj, Function.update_of_ne hj]
    rfl

lemma said_keep (hsaid : (N.ready r).threads.sent = (G.ready i r).threads.sent) :
    (G.afterAct i N sent).said r = G.said r := by
  rw [said_afterAct, Threads.announced_congr hsaid]
  exact Function.update_eq_self ..

lemma view_keep (hsaid : (N.ready r).threads.sent = (G.ready i r).threads.sent) :
    (G.afterAct i N sent).view r = (G.sys.afterAct i N.inst sent).view r (G.said r) := by
  rw [view, said_keep hsaid]
  rfl

section act

variable [Fintype ι] {P : Name → Prop}

/-- The instance takes a step, and sends nothing. -/
lemma view_act {e' : Event} {I : Inst} {l : List DLPacket} (hA : ∀ n, A n → FitsWire n) (hP : P r)
    (h : G.Sound A r k Q) (hs : (G.sys.inst i).step e' = some (I, l))
    (hd : ∀ p, e' ≠ .deliver p) (ht : G.sys.TimerOk P (.act i e'))
    (hapi : ¬ (G.ready i r).threads.api.Unsent) :
    Step k.toNat (G.view r) ((G.sys.afterAct i I []).view r (G.said r)) :=
  Sys.step_view_act (b := false) hA hP h.sys hd ht (h.said_eq hapi) hs

omit [Fintype ι] in
lemma sound_act {e' : Event} {I : Inst} {l : List DLPacket} (hA : ∀ n, A n → FitsWire n)
    (hC : Lawful A r k Q C) (h : G.Sound A r k Q) (hs : (G.sys.inst i).step e' = some (I, l))
    (hd : ∀ p, e' ≠ .deliver p) (hc : ∀ c, e' = .call c → C i (G.sys.inst i).lock c) :
    (G.sys.afterAct i I []).Sound A r k ∧ Q i I.lock := by
  rcases Inst.step_call_or hs with ⟨c, rfl, hfree, rfl, -⟩ | hcall
  · obtain ⟨hI, hQ⟩ := hC.enter i _ c (h.sys.inst i) (h.lawful i) (hc c rfl) hfree
    exact ⟨Sys.sound_quiet h.sys hI (Inst.step_id hs) (Inst.stage_enter _ c), hQ⟩
  · refine ⟨Sys.sound_act hA h.sys hd (fun c he => ?_) hs (List.nil_subset _), ?_⟩
    · rw [he] at hcall
      cases hcall
    · exact hC.names i _ _ (h.lawful i) (Inst.frame_step hcall hs).names_eq

omit [Fintype ι] in
/-- What the threads send are packets of their instance. -/
lemma sound_stays {n : Name} {o : Option (ℕ × DLPacket)} (hA : ∀ n, A n → FitsWire n)
    (h : G.Sound A r k Q)
    (ho : ∀ m ∈ o, m ∈ (G.ready i n).threads.api.held ∨ m ∈ (G.ready i n).threads.beacon.held) :
    (G.sys.afterAct i (G.sys.inst i) (o.toList.map Prod.snd)).Sound A r k := by
  refine Sys.sound_send h.sys fun p hp => ?_
  obtain ⟨m, hm, rfl⟩ := List.mem_map.mp hp
  obtain ⟨hAn, hid, hres, hcount⟩ := (h.labelled i n).packets m (ho m (Option.mem_toList.mp hm))
  exact ⟨hres ▸ hA n hAn, hid, fun hr => hcount (hres.symm.trans hr)⟩

/-- The instance sends a packet of its threads, or nothing. -/
lemma view_stays {n : Name} {o : Option (ℕ × DLPacket)} (hA : ∀ n, A n → FitsWire n)
    (h : G.Sound A r k Q)
    (ho : ∀ m ∈ o, m ∈ (G.ready i n).threads.api.held ∨ m ∈ (G.ready i n).threads.beacon.held)
    (hI : N.inst = G.sys.inst i)
    (hsaid : (N.ready r).threads.sent =
      (G.ready i r).threads.sent ++ if n = r then o.toList else []) :
    Step k.toNat (G.view r) ((G.afterAct i N (o.toList.map Prod.snd)).view r) := by
  show Step k.toNat (G.sys.view r (G.said r))
    ((G.sys.afterAct i N.inst _).view r ((G.afterAct i N _).said r))
  rw [hI]
  cases o with
  | none =>
    have hsame : (N.ready r).threads.sent = (G.ready i r).threads.sent := hsaid.trans (by simp)
    rw [said_keep hsame]
    show Step k.toNat _ ((G.sys.afterAct i (G.sys.inst i) []).view r (G.said r))
    rw [Sys.view_idle]
    exact .skip
  | some m =>
    obtain ⟨hAn, -, hres, -⟩ := (h.labelled i n).packets m (ho m rfl)
    show Step k.toNat _ ((G.sys.afterAct i (G.sys.inst i) [m.2]).view r _)
    rw [Sys.view_send (hres ▸ hA n hAn), hres]
    by_cases hn : n = r
    · subst hn
      -- the packet announces the current state, or what has been announced last
      have hsent : (N.ready n).threads.sent = (G.ready i n).threads.sent ++ [m] := by
        rw [hsaid, if_pos rfl]
        rfl
      rw [said_afterAct, Threads.announced_append hsent]
      have hcase : (State.ofByte m.2.state).phase = (G.sys.inst i).phase n ∨
          (State.ofByte m.2.state).phase = G.said n i := by
        rw [← h.phase_eq]
        rcases ho m rfl with hm | hm
        · exact .inl (congrArg State.phase ((h.ordered i).held_api hm))
        · exact ((h.ordered i).held_beacon ((h.node i).ready n).threads hm).imp
            (congrArg State.phase) (congrArg State.phase)
      simp only [decide_true]
      rcases hcase with hcase | hcase
      · rw [hcase]
        exact .renew i
      · rw [hcase, Function.update_eq_self]
        exact .echo i
    · have hsame : (N.ready r).threads.sent = (G.ready i r).threads.sent := by
        rw [hsaid, if_neg hn, List.append_nil]
      rw [said_keep hsame]
      have hchan : (G.sys.view r (G.said r)).post (decide (n = r)) i
          (State.ofByte m.2.state).phase = (G.sys.view r (G.said r)).chan := by
        funext j l
        exact if_neg fun hb => hn (of_decide_eq_true hb.1)
      rw [hchan]
      exact .skip

omit [Fintype ι] [DecidableEq ι] in
/-- A thread that does not wait has a window only in the loop that checks and marks. -/
lemma stage_of_not_checking {I : Inst} (hw : I.waitsOn = none) (hc : I.ctl.isChecking = false) :
    I.stage r = fun _ => .outside := by
  rw [Inst.stage]
  split
  · next hctl =>
    rw [Inst.waitsOn, hctl] at hw
    cases hw
  · next hctl =>
    rw [hctl] at hc
    cases hc
  · next hctl =>
    rw [hctl] at hc
    cases hc
  · rfl

/-- The calling thread goes elsewhere, out of all windows. -/
lemma view_moves {I : Inst} (hlock : I.lock = (G.sys.inst i).lock)
    (hst : I.stage r = fun _ => .outside) :
    Step k.toNat (G.view r) ((G.sys.afterAct i I []).view r (G.said r)) := by
  have hp : I.phase r = (G.sys.inst i).phase r := Inst.phase_congr (by rw [hlock])
  rw [show (G.sys.afterAct i I []).view r (G.said r) = { G.view r with
      clock := G.sys.clock + 1
      stage := Function.update (G.view r).stage i .outside } from
    Cfg.ext rfl (Sys.view_phase_keep hp) rfl (Sys.view_since_keep hp) (Sys.view_stage_out hst)
      (Sys.view_chan_quiet (by simp) rfl) rfl]
  exact .quit i

omit [Fintype ι] [DecidableEq ι] in
/-- The thread that has been woken, or has returned late, is in no window, and does nothing else. -/
lemma moved (h : G.Sound A r k Q) (hok : G.InTurn P (.act i e))
    (hwhy : (G.sys.inst i).onWake = some N.inst ∨
      e = .late ∧ ∃ ctl, G.late i = some ctl ∧ N.inst = ⟨(G.sys.inst i).lock, ctl⟩) :
    N.inst.lock = (G.sys.inst i).lock ∧ (N.inst.stage r = fun _ => .outside) ∧
      N.inst.Sound A r k := by
  rcases hwhy with hw | ⟨rfl, ctl, hl, hI⟩
  · have hs : (G.sys.inst i).step .wake = some (N.inst, []) := by
      rw [Inst.step, hw]
      rfl
    exact ⟨Inst.onWake_lock hw, Inst.stage_onWake hw,
      Inst.sound_step (h.sys.inst i) (fun c hc => by cases hc) hs⟩
  · obtain ⟨hsound, hwaits⟩ := h.late i ctl hl
    rw [hI]
    exact ⟨rfl, stage_of_not_checking hwaits (hok ctl hl), hsound⟩

omit [Fintype ι] in
/-- A step of one instance keeps the invariant of the channels. -/
lemma sys_sound (hA : ∀ n, A n → FitsWire n) (hC : Lawful A r k Q C)
    (h : G.Sound A r k Q) (hd : (G.node i).Does e N sent) (hp : ∀ p, e ≠ .deliver p)
    (hc : G.Calls C (.act i e)) (hok : G.InTurn P (.act i e)) :
    (G.afterAct i N sent).sys.Sound A r k ∧ Q i N.inst.lock := by
  cases hd.effect (r := r) (h.node i) hp with
  | @act e' l hs hd' he hapi hsent hsaid =>
    subst hsent
    refine sound_act hA hC h hs hd' ?_
    rintro c rfl
    rcases he with rfl | he
    · exact hc
    · cases he
  | stays hI ho hsent hsaid =>
    subst hsent
    refine ⟨?_, hI ▸ h.lawful i⟩
    show (G.sys.afterAct i N.inst _).Sound A r k
    rw [hI]
    exact sound_stays hA h ho
  | moves hwhy hsent hsaid =>
    subst hsent
    obtain ⟨hlock, hst, hI⟩ := moved h hok hwhy
    exact ⟨Sys.sound_quiet h.sys hI (congrArg Lock.id hlock) hst,
      hC.names i _ _ (h.lawful i) (congrArg Lock.names hlock)⟩

/-- A step of one instance is a step of the protocol. -/
lemma view_does (hA : ∀ n, A n → FitsWire n) (hP : P r)
    (h : G.Sound A r k Q) (hd : (G.node i).Does e N sent) (hp : ∀ p, e ≠ .deliver p)
    (ht : G.TimerOk P (.act i e)) (hok : G.InTurn P (.act i e)) :
    Step k.toNat (G.view r) ((G.afterAct i N sent).view r) := by
  cases hd.effect (r := r) (h.node i) hp with
  | @act e' l hs hd' he hapi hsent hsaid =>
    subst hsent
    have ht' : G.sys.TimerOk P (.act i e') := by
      rcases he with rfl | rfl
      · exact ht
      · trivial
    rw [view_keep hsaid]
    exact view_act hA hP h hs hd' ht' hapi
  | stays hI ho hsent hsaid =>
    subst hsent
    exact view_stays hA h ho hI hsaid
  | moves hwhy hsent hsaid =>
    subst hsent
    obtain ⟨hlock, hst, -⟩ := moved h hok hwhy
    rw [view_keep hsaid]
    exact view_moves hlock hst

omit [Fintype ι] in
/-- The invariant of the group when one node has changed. -/
lemma Sound.replace (h : G.Sound A r k Q) (hsys : G'.sys.Sound A r k)
    (hnode : ∀ l, G'.node l = if l = i then N else G.node l) (hN : N.Sound)
    (hlate : ∀ ctl ∈ N.late, (⟨N.inst.lock, ctl⟩ : Inst).Sound A r k ∧
      (⟨N.inst.lock, ctl⟩ : Inst).waitsOn = none)
    (hordered : (N.ready r).threads.Ordered) (hlabelled : ∀ n, N.Labelled A r k n)
    (hQ : Q i N.inst.lock) : G'.Sound A r k Q := by
  -- what is said about the nodes concerns the one that has changed
  have hall : ∀ {q : ι → Node → Prop}, q i N → (∀ l, q l (G.node l)) → ∀ l, q l (G'.node l) := by
    intro q hN hall l
    rw [hnode]
    split_ifs with hl
    · rw [hl]
      exact hN
    · exact hall l
  exact {
    sys := hsys
    node := hall (q := fun _ => Node.Sound) hN h.node
    late := hall (q := fun _ N => ∀ ctl ∈ N.late, (⟨N.inst.lock, ctl⟩ : Inst).Sound A r k ∧
      (⟨N.inst.lock, ctl⟩ : Inst).waitsOn = none) hlate h.late
    ordered := hall (q := fun _ N => (N.ready r).threads.Ordered) hordered h.ordered
    labelled := fun l n =>
      hall (q := fun _ N => N.Labelled A r k n) (hlabelled n) (fun l => h.labelled l n) l
    lawful := hall (q := fun l N => Q l N.inst.lock) hQ h.lawful }

omit [Fintype ι] in
/-- The invariant of the group after a step of the instance `i`, whatever it does to the
channels. -/
lemma sound_of_does (hP : P r) (h : G.Sound A r k Q) (hd : (G.node i).Does e N sent)
    (hok : (G.node i).Allows Threads.InTurn P e) (hQ : Q i N.inst.lock)
    (hsys : G'.sys.Sound A r k) (hnode : ∀ l, G'.node l = if l = i then N else G.node l) :
    G'.Sound A r k Q := by
  have hordered : (N.ready r).threads.Sound ∧ (N.ready r).threads.Ordered := by
    refine hd.threads (Q := fun T => T.Sound ∧ T.Ordered) hok hP ?_ (fun _ _ => trivial)
      (fun T op hT m hm => ?_) (fun T t T' hT hok hs => ?_)
      ⟨((h.node i).ready r).threads, h.ordered i⟩
    · rintro c hop ⟨hsound, hord⟩
      refine ⟨hsound.recount, hord.recount ((h.node i).free r ?_)⟩
      rw [hop]
      simp
    · rw [hT] at hm
      cases hm
    · exact ⟨Threads.sound_step hT.1 hs, Threads.ordered_step hT.2 hT.1 hok hs⟩
  have hlate := hd.keeps_late (P := fun I => I.Sound A r k) (h.sys.inst i)
    (fun I I' hI hto => by
      have hs : I.step .timeout = some (I', []) := by rw [Inst.step, hto]; rfl
      exact Inst.sound_step hI (fun c hc => by cases hc) hs)
    (fun I pkt hI => Inst.sound_step (e := .deliver pkt) hI (fun c hc => by cases hc) rfl)
    (h.late i)
  exact h.replace hsys hnode (hd.sound (h.node i)) hlate hordered.2
    (fun n => hd.labelled (h.node i) (h.sys.inst i) (h.labelled i n)) hQ

omit [Fintype ι] in
/-- **Every step keeps the invariant**, whatever the timers do. -/
theorem sound_step {m : GroupMove ι} (hA : ∀ n, A n → FitsWire n) (hP : P r)
    (hC : Lawful A r k Q C) (h : G.Sound A r k Q) (hc : G.Calls C m) (hok : G.InTurn P m)
    (hs : G.step m = some G') : G'.Sound A r k Q := by
  cases m with
  | act i e =>
    obtain ⟨hp, N, sent, hd, rfl⟩ := step_act_inv hs
    obtain ⟨hsys, hQ⟩ := sys_sound hA hC h hd hp hc hok
    have hallows : (G.node i).Allows Threads.InTurn P e := by
      cases e with
      | late => trivial
      | _ => exact hok
    refine sound_of_does hP h hd hallows hQ hsys fun l => ?_
    split_ifs with hl
    · rw [hl, node_afterAct_self]
    · exact node_afterAct_of_ne hl
  | deliver j i =>
    obtain ⟨d, rest, hd, rfl⟩ := step_deliver_inv hs
    obtain ⟨p, hp, -, -⟩ := Sys.delivered h.sys hd
    refine sound_of_does hP h (.deliver p) trivial ?_ (Sys.sound_deliver h.sys hd)
      (node_afterDeliver hp)
    refine hC.names i _ _ (h.lawful i) ?_
    show ((G.sys.inst i).actionPerformed p).lock.names = _
    rw [Inst.actionPerformed_lock, Inst.hear_names]

/-- **The group with its threads refines the protocol.** -/
theorem step_view {m : GroupMove ι} (hA : ∀ n, A n → FitsWire n) (hP : P r)
    (h : G.Sound A r k Q) (ht : G.TimerOk P m) (hok : G.InTurn P m) (hs : G.step m = some G') :
    Step k.toNat (G.view r) (G'.view r) := by
  cases m with
  | act i e =>
    obtain ⟨hp, N, sent, hd, rfl⟩ := step_act_inv hs
    exact view_does hA hP h hd hp ht hok
  | deliver j i =>
    obtain ⟨d, rest, hd, rfl⟩ := step_deliver_inv hs
    exact Sys.step_view_deliver h.sys hd

end act

end Group
end DistLock
