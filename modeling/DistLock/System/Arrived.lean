/-
What the member tables say when nothing is on its way.

The group with its threads relays what the threads of a resource have announced last
(`Group.relay_step`).  Hence an entry can only be out of date while a packet about the resource is
on its way or is about to be sent (`Group.entry_eq_of_quiet`), and a resource that is refused when
everything has arrived is really taken (`Group.le_card_others_of_refused`).

Nothing is assumed about the timers here.
-/
import DistLock.System.Tables

namespace DistLock

open DLPacket (FitsWire)
open Lib (OrdMap)

namespace Group

variable {ι : Type*} [DecidableEq ι]

/-- The state of the resource that each instance has announced last. -/
def announced (r : Name) (G : Group ι) (i : ι) : State := (G.ready i r).threads.announced

/-- The tables, and what is on its way to them. -/
def relay (r : Name) (G : Group ι) : Lib.Relay.Cfg ι State := G.sys.relay r (G.announced r)

/-- No `setState` of the resource has assigned a state that it has not announced yet. -/
def Announced (r : Name) (G : Group ι) (i : ι) : Prop := ¬ (G.ready i r).threads.api.Unsent

/-- The invariant of the group and of its tables. -/
structure Kept (r : Name) (k : UInt32) (G : Group ι) : Prop where
  sound : G.Sound FitsWire r k fun _ L => L.Fits
  tables : G.sys.Kept r k

variable {r : Name} {k : UInt32} {G G' : Group ι} {S₀ : Sys ι} {i j : ι} {e : NodeEvent} {N : Node}
  {sent : List DLPacket} {m : GroupMove ι} {ms : List (GroupMove ι)}

lemma announced_afterAct : (G.afterAct i N sent).announced r =
    Function.update (G.announced r) i (N.ready r).threads.announced := by
  funext j
  show ((Function.update G.ready i N.ready j) r).threads.announced = _
  rcases eq_or_ne j i with rfl | hj
  · rw [Function.update_self, Function.update_self]
  · rw [Function.update_of_ne hj, Function.update_of_ne hj]
    rfl

omit [DecidableEq ι] in
/-- What the others will see is the current state, unless it is about to be announced. -/
lemma Kept.announced_eq (h : G.Kept r k) (hsaid : G.Announced r i) :
    G.announced r i = G.sys.states r i := by
  have hstate : (G.ready i r).threads.res.state = ((G.node i).object r).state :=
    ((h.sound.node i).tied r).res.2.2
  rw [announced, (h.sound.ordered i).announced_current ((h.sound.node i).ready r).threads hsaid,
    hstate, Node.object, Sys.states, Inst.announced, Lock.stateOf]
  show (((G.sys.inst i).lock.getResource r).getD (Resource.new r)).state = _
  cases (G.sys.inst i).lock.getResource r <;> rfl

/-! ### A step of one instance -/

omit [DecidableEq ι] in
/-- A packet of the threads announces the state of its own resource. -/
lemma said_stays {n : Name} {o : Option (ℕ × DLPacket)} (h : G.Kept r k)
    (ho : ∀ m ∈ o, m ∈ (G.ready i n).threads.api.held ∨ m ∈ (G.ready i n).threads.beacon.held)
    (hsent : (N.ready r).threads.sent =
      (G.ready i r).threads.sent ++ if n = r then o.toList else []) :
    Inst.said r (o.toList.map Prod.snd) = [] ∧ (N.ready r).threads.announced = G.announced r i ∨
      Inst.said r (o.toList.map Prod.snd) = [(N.ready r).threads.announced] := by
  cases o with
  | none => exact .inl ⟨rfl, Threads.announced_congr (hsent.trans (by simp))⟩
  | some m =>
    obtain ⟨-, -, hres, -⟩ := (h.sound.labelled i n).packets m (ho m rfl)
    by_cases hn : n = r
    · rw [if_pos hn] at hsent
      rw [Threads.announced_append hsent]
      exact .inr (by simp [Inst.said, hres, hn])
    · rw [if_neg hn, List.append_nil] at hsent
      exact .inl ⟨by simp [Inst.said, hres, hn], Threads.announced_congr hsent⟩

omit [DecidableEq ι] in
/-- What one instance says about the resource is what its threads announce, and it leaves its table
alone or clears it. -/
lemma says_does (h : G.Kept r k) (hd : (G.node i).Does e N sent) (hp : ∀ p, e ≠ .deliver p) :
    (Inst.said r sent = [] ∧ (N.ready r).threads.announced = G.announced r i ∨
        Inst.said r sent = [(N.ready r).threads.announced]) ∧
      ((∀ id, N.inst.entry r id = (G.sys.inst i).entry r id) ∨
        ∀ id, N.inst.entry r id = none) ∧ N.inst.Tidy r := by
  cases hd.effect (r := r) (h.sound.node i) hp with
  | act hs hd' he hapi hsent hsaid =>
    subst hsent
    exact ⟨.inl ⟨rfl, Threads.announced_congr hsaid⟩,
      (Inst.speaks_step (h.sound.sys.inst i).named hd' hs).entry,
      Inst.tidy_step (h.tables.tidy i) hs⟩
  | stays hI ho hsent hsaid =>
    subst hsent
    rw [hI]
    exact ⟨said_stays h ho hsaid, .inl fun _ => rfl, h.tables.tidy i⟩
  | moves hwhy hsent hsaid =>
    subst hsent
    have hlock : N.inst.lock = (G.sys.inst i).lock := by
      rcases hwhy with hw | ⟨-, ctl, -, hI⟩
      · exact Inst.onWake_lock hw
      · rw [hI]
        rfl
    refine ⟨.inl ⟨rfl, Threads.announced_congr hsaid⟩,
      .inl fun id => Inst.entry_congr (by rw [hlock]), ?_⟩
    rw [Inst.Tidy, hlock]
    exact h.tables.tidy i

omit [DecidableEq ι] in
/-- The packets of a step are packets of the instance. -/
lemma fits_does (h : G.Kept r k) (hd : (G.node i).Does e N sent) (hp : ∀ p, e ≠ .deliver p)
    {p : DLPacket} (hmem : p ∈ sent) : FitsWire p.resource := by
  cases hd.effect (r := r) (h.sound.node i) hp with
  | act hs hd' he hapi hsent | moves hwhy hsent =>
    rw [hsent] at hmem
    cases hmem
  | stays hI ho hsent =>
    rw [hsent] at hmem
    obtain ⟨m, hm, rfl⟩ := List.mem_map.mp hmem
    obtain ⟨hfit, -, hres, -⟩ :=
      (h.sound.labelled i _).packets m (ho m (Option.mem_toList.mp hm))
    exact hres ▸ hfit

/-! ### Runs -/

/-- The calls are proper, and the threads send in turn. -/
def Relays (r : Name) (k : UInt32) (G : Group ι) (m : GroupMove ι) : Prop :=
  G.Calls (fun _ L c => c.Proper r k L) m ∧ G.InTurn (· = r) m

instance (r : Name) (k : UInt32) (G : Group ι) (m : GroupMove ι) : Decidable (G.Relays r k m) :=
  inferInstanceAs (Decidable (_ ∧ _))

/-- **Every step of the group relays what the threads announce.** -/
theorem relay_step (h : G.Kept r k) (hok : G.Relays r k m) (hs : G.step m = some G') :
    Relation.ReflTransGen Lib.Relay.Step (G.relay r) (G'.relay r) ∧ G'.Kept r k := by
  have hsound := sound_step (P := (· = r)) (fun _ hn => hn) rfl lawful_proper h.sound hok.1 hok.2 hs
  cases m with
  | act i e =>
    obtain ⟨hp, N, sent, hd, rfl⟩ := step_act_inv hs
    obtain ⟨hsaid, hentry, htidy⟩ := says_does h hd hp
    have hid : N.inst.lock.id = (G.sys.inst i).lock.id := hd.acts.id
    have hfits : N.inst.lock.Fits := by
      have hlaw := hsound.lawful i
      rwa [afterAct, Sys.inst_afterAct_self] at hlaw
    refine ⟨?_, hsound, h.tables.afterAct hsound.sys hfits hid htidy hentry⟩
    rw [relay, relay, announced_afterAct]
    exact Sys.relay_act (fun p => fits_does h hd hp) hid hsaid hentry
  | deliver j i =>
    obtain ⟨d, rest, hd, rfl⟩ := step_deliver_inv hs
    exact ⟨Sys.relay_deliver h.tables hd, hsound, h.tables.afterDeliver hd⟩

/-- In every run the tables are exact, up to what is on its way. -/
lemma exact_run (h₀ : S₀.Initial) (hids : Function.Injective fun i => (S₀.inst i).lock.id)
    (hfit : ∀ i, (S₀.inst i).lock.Fits)
    (hcount : ∀ i R, (S₀.inst i).lock.getResource r = some R → R.count = k)
    (hrun : Lib.Run step (Relays r k) (start S₀) ms G) : (G.relay r).Exact ∧ G.Kept r k := by
  let Rel (G : Group ι) (c : Lib.Relay.Cfg ι State) : Prop := c = G.relay r ∧ G.Kept r k
  obtain ⟨c, hreach, rfl, hG⟩ : ∃ c,
      Relation.ReflTransGen Lib.Relay.Step ((start S₀).relay r) c ∧ Rel G c := by
    refine hrun.simulate ?_
      ⟨rfl, sound_start h₀ hids hcount hfit, Sys.kept_initial h₀ hids hfit hcount⟩
    rintro G m G' _ ⟨rfl, hG⟩ hok hs
    obtain ⟨hstep, hG'⟩ := relay_step hG hok hs
    exact ⟨_, hstep, rfl, hG'⟩
  exact ⟨Lib.Relay.exact_of_steps (Sys.relay_initial h₀) hreach, hG⟩

/-- The members that are recorded as holders are holders, if nothing is on its way. -/
lemma countP_le_card_others [Fintype ι] (hexact : (G.relay r).Exact) (hG : G.Kept r k)
    (hquiet : G.sys.Quiet r i) (hsaid : ∀ j, j ≠ i → G.Announced r j) {R : Resource}
    (hR : (G.sys.inst i).lock.getResource r = some R) :
    R.members.entries.countP (fun e => e.2.state = .acquired) ≤
      ((G.sys.holders r).erase i).card := by
  have hnd : ((R.members.entries.filter fun e => e.2.state = .acquired).map Sigma.fst).Nodup :=
    R.members.keys_nodup.sublist (List.filter_sublist.map Sigma.fst)
  have hsub : ((R.members.entries.filter fun e => e.2.state = .acquired).map
      Sigma.fst).toFinset ⊆ ((G.sys.holders r).erase i).image fun j => (G.sys.inst j).lock.id := by
    intro id hid
    obtain ⟨⟨n, mb⟩, he, rfl⟩ := List.mem_map.mp (List.mem_toFinset.mp hid)
    obtain ⟨hmem, hst⟩ := List.mem_filter.mp he
    obtain ⟨j, hj, rfl, hacq⟩ := Sys.holder_of_entry hexact hG.tables
      (fun j hj => hG.announced_eq (hsaid j hj)) (fun j _ => hquiet j) hR
      (OrdMap.mem_entries_iff.mp hmem) (by simpa using hst)
    refine Finset.mem_image.mpr ⟨j, Finset.mem_erase.mpr ⟨hj, ?_⟩, rfl⟩
    exact Finset.mem_filter.mpr ⟨Finset.mem_univ j, hacq⟩
  have hcard := Finset.card_le_card hsub
  rw [Finset.card_image_of_injective _ hG.sound.sys.ids, List.toFinset_card_of_nodup hnd,
    List.length_map, ← List.countP_eq_length_filter] at hcard
  exact hcard

/-- The first instance has acquired `a`, and the second one has started to acquire it and has heard
the next beacon of the first one. -/
def beaconHeard : List (GroupMove Bool) :=
  starts false ++ arrives 1 false false ++ wakes false [97] ++ calls false [.timeout] ++
    sets false ++ calls false [.run] ++ arrives 1 false false ++ calls false [.timeout, .run] ++
    sets false ++ calls false [.run] ++ arrives 3 false true ++ starts true ++
    builds false [97] ++ sends false [97] ++ arrives 1 false true ++ arrives 1 true true

end Group
end DistLock
