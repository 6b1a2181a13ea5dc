/-
Mutual exclusion.

The group with its threads refines the admission protocol of `DistLock.Lib.Claim` in every run in
which the threads send in turn, so the number of instances that hold a resource never exceeds its
count.  The first theorem is about instances that acquire one resource, the second one about
instances that acquire all of their resources together; the resources of different instances may
overlap in any way.  Out of turn an old announcement may replace a new one, and then there are too
many holders.
-/
import DistLock.System.Announce

namespace DistLock

/-- The calls of somebody who only acquires and releases `r`. -/
def Call.Uses (r : Name) : Call → Prop
  | acquire res | release res => res = r
  | setAdquireMaxRetry _ => True
  | _ => False

/-- The calls of somebody who only acquires and releases everything at once. -/
def Call.UsesAll : Call → Prop
  | acquire res => res = []
  | releaseAll | setAdquireMaxRetry _ => True
  | _ => False

instance (r : Name) : DecidablePred (Call.Uses r)
  | .acquire res | .release res => inferInstanceAs (Decidable (res = r))
  | .setAdquireMaxRetry _ => isTrue trivial
  | .defineResource _ _ | .releaseAll | .query _ _ => isFalse id

instance : DecidablePred Call.UsesAll
  | .acquire res => inferInstanceAs (Decidable (res = []))
  | .releaseAll | .setAdquireMaxRetry _ => isTrue trivial
  | .defineResource _ _ | .release _ | .query _ _ => isFalse id

namespace Sys

open DLPacket (FitsWire)

variable {ι : Type*} [Fintype ι] [DecidableEq ι]

/-- The instances that hold the resource. -/
def holders (S : Sys ι) (r : Name) : Finset ι :=
  Finset.univ.filter fun i => (S.inst i).lock.stateOf r = some .acquired

lemma holders_view {S : Sys ι} {r : Name} {said : ι → Lib.Claim.Phase} :
    (S.view r said).holders = S.holders r := by
  ext i
  rw [Lib.Claim.Cfg.mem_holders, holders, Finset.mem_filter]
  show (S.inst i).phase r = .holding ↔ _
  constructor
  · intro h
    rw [Inst.phase] at h
    split at h
    · next s hs => exact ⟨Finset.mem_univ i, by rw [hs, State.phase_holding.mp h]⟩
    · exact absurd h (by simp)
  · rintro ⟨-, h⟩
    exact Inst.phase_of_has h

/-! ### Runs -/

section

variable {A : Name → Prop} {r : Name} {k : UInt32} {S₀ S S' : Sys ι} {m : Move ι}
  {ms : List (Move ι)} {P : Name → Prop} {C : Call → Prop}

omit [Fintype ι] [DecidableEq ι] in
/-- The invariant holds before anything has happened. -/
lemma sound_initial (h : S₀.Initial)
    (hids : Function.Injective fun i => (S₀.inst i).lock.id)
    (hcount : ∀ i R, (S₀.inst i).lock.getResource r = some R → R.count = k) :
    S₀.Sound A r k where
  ids := hids
  inst i := by
    obtain ⟨b, hb⟩ := h.free i
    exact {
      named := h.named i
      coherent := fun scope retry pc hctl => absurd (hb.symm.trans hctl) (by simp)
      busy := by
        rw [Inst.Busy, Inst.On, hb]
        trivial
      idle := fun n R hR _ => (h.idle i n R hR).1
      count := hcount i
      own := fun R hR => by
        rw [(h.idle i r R hR).2]
        exact Lib.OrdMap.find?_empty }
  packets j i d hd := absurd (h.chan j i ▸ hd) List.not_mem_nil
  chan_lt j i d hd := absurd (h.chan j i ▸ hd) List.not_mem_nil
  heard_lt i j n m hm := absurd (h.heard i j n ▸ hm) (by simp)
  table i j o _ _ m hm := absurd (h.heard i j r ▸ hm) (by simp)

omit [Fintype ι] in
lemma view_initial {said : ι → Lib.Claim.Phase} (h : S₀.Initial) : (S₀.view r said).Initial where
  phase i := by
    show (S₀.inst i).phase r = .out
    rw [Inst.phase]
    split
    · next s hs =>
      obtain ⟨R, hR, rfl⟩ := Option.map_eq_some_iff.mp hs
      rw [(h.idle i r R hR).1]
      rfl
    · rfl
  stage i := by
    obtain ⟨b, hb⟩ := h.free i
    show (S₀.inst i).stage r (S₀.opened i) = .outside
    rw [Inst.stage, hb]
  chan j i := by
    show (if j = i then [] else (S₀.chan j i).filterMap _) = []
    rw [h.chan]
    exact ite_self _
  heard i j := by
    show (if i = j then none else (S₀.heard i j r).map _) = none
    rw [h.heard]
    exact ite_self _

omit [Fintype ι] in
/-- No resource is created in a run whose calls work on existing ones. -/
lemma names_step (hs : S.step m = some S')
    (hc : ∀ i c, m = .act i (.call c) → c.Within A (S.inst i).lock) (i : ι) (n : Name) :
    n ∈ (S'.inst i).lock.names ↔ n ∈ (S.inst i).lock.names := by
  cases m with
  | deliver j l =>
    obtain ⟨d, rest, -, rfl⟩ := step_deliver_inv hs
    rw [afterDeliver]
    split
    · rfl
    · next p hp =>
      show n ∈ (Function.update S.inst l ((S.inst l).actionPerformed p) i).lock.names ↔ _
      rcases eq_or_ne i l with rfl | hi
      · rw [Function.update_self, Inst.actionPerformed_lock, Inst.hear_names]
      · rw [Function.update_of_ne hi]
  | act l e =>
    obtain ⟨-, I', sent, hI, rfl⟩ := step_act_inv hs
    rcases eq_or_ne i l with rfl | hi
    · rw [inst_afterAct_self]
      rcases Inst.step_call_or hI with ⟨c, rfl, -, rfl, -⟩ | hcall
      · exact Inst.names_within (hc i c rfl)
      · rw [(Inst.frame_step hcall hI).names_eq]
    · rw [inst_afterAct_of_ne hi]

end

end Sys

/-! ### The constructed threads -/

lemma Readiness.sound_start {id : UInt32} {R : Resource} (h : R.state = .idle) :
    (Readiness.start id R).Sound where
  threads :=
    { state := congrArg some h.symm
      stored := fun op hop => by cases hop
      stopping := fun hin => hin.elim
      dropped := fun hpc => by simp [start, Threads.new] at hpc
      ended := fun hr => .inl (if_neg (by rw [show R.running = false from hr]; simp))
      returned := fun hpc => by cases hpc }
  assigned s hs := by cases hs
  due hdue := by cases hdue
  wait hw := absurd rfl hw

/-- Nothing has been sent, and nothing is held. -/
lemma Readiness.held_start {id : UInt32} {R : Resource} :
    (Readiness.start id R).threads.beacon.held = none ∧
      (Readiness.start id R).threads.beacon ≠ .building := by
  show (if R.running then BeaconPc.head else .ended).held = none ∧
    (if R.running then BeaconPc.head else .ended) ≠ .building
  split_ifs <;> exact ⟨rfl, by simp⟩

lemma Readiness.ordered_start {id : UInt32} {R : Resource} :
    (Readiness.start id R).threads.Ordered where
  api m hm := by cases hm
  beacon m hm := by
    rw [Readiness.held_start.1] at hm
    cases hm
  genuine x hx := by cases hx
  sorted := .nil
  complete n h₁ h₂ := absurd (h₁.trans h₂) (by simp [start, Threads.new])

namespace Group

open DLPacket (FitsWire)
open Lib.Claim (Step)

variable {ι : Type*} [Fintype ι] [DecidableEq ι]

section

variable {A : Name → Prop} {r : Name} {k : UInt32} {S₀ : Sys ι} {G : Group ι}
  {ms : List (GroupMove ι)} {P : Name → Prop} {Q : ι → Lock → Prop} {C : ι → Lock → Call → Prop}

omit [Fintype ι] [DecidableEq ι] in
/-- The invariant holds before anything has happened. -/
lemma sound_start (h₀ : S₀.Initial) (hids : Function.Injective fun i => (S₀.inst i).lock.id)
    (hcount : ∀ i R, (S₀.inst i).lock.getResource r = some R → R.count = k)
    (hQ : ∀ i, Q i (S₀.inst i).lock) : (start S₀).Sound A r k Q := by
  have hidle : ∀ i n, (((S₀.inst i).lock.getResource n).getD (.new n)).state = .idle := by
    intro i n
    cases hR : (S₀.inst i).lock.getResource n with
    | none => rfl
    | some R => exact (h₀.idle i n R hR).1
  have hsys := Sys.sound_initial (A := A) h₀ hids hcount
  exact {
    sys := hsys
    node := fun i =>
      { coherent := (hsys.inst i).coherent
        late := fun ctl hctl => by cases hctl
        ready := fun n => Readiness.sound_start (hidle i n)
        tied := fun n => ⟨rfl, rfl, rfl, rfl⟩
        free := fun n _ => rfl
        busy := fun n hop => by cases hop }
    late := fun i ctl hctl => by cases hctl
    ordered := fun i => Readiness.ordered_start
    labelled := fun i n =>
      { op := fun hop => by cases hop
        building := fun hb => absurd hb Readiness.held_start.2
        packets := fun m hm => by
          rcases hm with hm | hm
          · cases hm
          · exact absurd (Readiness.held_start.1.symm.trans hm) (by simp) }
    lawful := hQ }

/-- The number of holders never exceeds the count, if the calls of the group are lawful and the
threads of the resource send in turn. -/
lemma card_holders_run (h₀ : S₀.Initial)
    (hids : Function.Injective fun i => (S₀.inst i).lock.id)
    (hcount : ∀ i R, (S₀.inst i).lock.getResource r = some R → R.count = k)
    (hA : ∀ n, A n → FitsWire n) (hP : P r) (hC : Lawful A r k Q C)
    (hQ : ∀ i, Q i (S₀.inst i).lock)
    (hrun : Lib.Run step (fun G m => G.Calls C m ∧ G.TimerOk P m ∧ G.InTurn P m) (start S₀) ms G) :
    (G.sys.holders r).card ≤ k.toNat := by
  -- along the run the group is a configuration of the protocol
  let Rel (G : Group ι) (c : Lib.Claim.Cfg ι) : Prop := c = G.view r ∧ G.Sound A r k Q
  obtain ⟨c, hreach, rfl, -⟩ : ∃ c,
      Relation.ReflTransGen (Step k.toNat) ((start S₀).view r) c ∧ Rel G c := by
    refine hrun.simulate ?_ ⟨rfl, sound_start h₀ hids hcount hQ⟩
    rintro G m G' _ ⟨rfl, hG⟩ ⟨hc, ht, hok⟩ hs
    exact ⟨_, .single (step_view hA hP hG ht hok hs), rfl, sound_step hA hP hC hG hc hok hs⟩
  have hholders : (G.view r).holders = G.sys.holders r := Sys.holders_view
  rw [← hholders]
  exact Lib.Claim.card_holders_le (Sys.view_initial h₀) hreach

omit [Fintype ι] [DecidableEq ι] in
/-- Calls that work on the resources that the instances have at the beginning. -/
lemma lawful_of_within (hC : ∀ i L c, (∀ n, n ∈ L.names ↔ n ∈ (S₀.inst i).lock.names) → C i L c →
    c.Within A L) :
    Lawful A r k (fun i L => ∀ n, n ∈ L.names ↔ n ∈ (S₀.inst i).lock.names) C where
  names i L L' hL h n := by
    rw [h]
    exact hL n
  enter i I c hI hL hc hfree := by
    obtain ⟨b, hb⟩ := hfree
    have hw := hC i I.lock c hL hc
    have hs : I.step (.call c) = some (Inst.enter I.lock c, []) := by rw [Inst.step, hb]
    refine ⟨Inst.sound_step hI (fun c' hc' => ?_) hs, fun n => (Inst.names_within hw).trans (hL n)⟩
    obtain rfl := Event.call.inj hc'
    exact hw

end

/-! ### Runs of two instances -/

/-- Two instances with the given resources, which have the count 1. -/
def pair (res : Bool → List Name) : Sys Bool :=
  Sys.fresh (fun i => if i then 2 else 1) 50 (fun _ => 1) res

/-- Steps of the calling thread. -/
def calls (i : Bool) (es : List Event) : List (GroupMove Bool) := es.map fun e => .act i (.own e)

/-- `setState` stores the state, builds and sends its packet, and notifies. -/
def sets (i : Bool) : List (GroupMove Bool) :=
  [.act i .store, .act i .api, .act i .api, .act i .api]

/-- `reset` does so, and clears the table. -/
def resets (i : Bool) : List (GroupMove Bool) := sets i ++ [.act i .api]

/-- The next `n` datagrams from `j` arrive at `i`. -/
def arrives (n : ℕ) (j i : Bool) : List (GroupMove Bool) := List.replicate n (.deliver j i)

/-- Steps of the beacon thread of `n`, or of the wait for it. -/
def steps (i : Bool) (n : Name) (es : List ReadyEvent) : List (GroupMove Bool) :=
  es.map fun e => .act i (.ready n e)

/-- The beacon thread gets past its wait. -/
def wakes (i : Bool) (n : Name) : List (GroupMove Bool) := steps i n [.tick .beacon, .notify]

/-- It builds its packet. -/
def builds (i : Bool) (n : Name) : List (GroupMove Bool) :=
  steps i n [.tick .beacon, .tick .beacon]

/-- It sends the packet. -/
def sends (i : Bool) (n : Name) : List (GroupMove Bool) := steps i n [.tick .beacon]

/-- The time between two packets is over, and the next one is sent. -/
def beacons (i : Bool) (n : Name) : List (GroupMove Bool) :=
  steps i n [.tick .beacon, .tick .timeout] ++ wakes i n ++ builds i n ++ sends i n

/-- `acquire("a")`, up to the listening. -/
def starts (i : Bool) : List (GroupMove Bool) :=
  calls i [.call (.acquire [97]), .run] ++ sets i ++ calls i [.run]

/-- `acquire()` with the resources `res`, up to the listening. -/
def startsAll (i : Bool) (res : List Name) : List (GroupMove Bool) :=
  calls i [.call (.acquire [])] ++
    (res.flatMap fun n => sets i ++ steps i n [.enter, .sleep] ++ wakes i n) ++
    calls i [.run, .run] ++ (res.flatMap fun _ => sets i) ++ calls i [.run]

/-- At the end of the run the first instance has acquired, and the second one has given up. -/
lemma decided_of_exec {ok : Group Bool → GroupMove Bool → Prop} [∀ G m, Decidable (ok G m)]
    {G₀ : Group Bool} {ms : List (GroupMove Bool)} {Q : Group Bool → Prop}
    (hexec : (Lib.exec step ok G₀ ms).map
      (fun G => ((G.sys.inst false).ctl, (G.sys.inst true).ctl)) =
        some (.free (some true), .free (some false)))
    (hQ : ∀ G, Lib.Run step ok G₀ ms G → Q G) :
    ∃ G : Group Bool, Lib.Run step ok G₀ ms G ∧ (G.sys.inst false).ctl = .free (some true) ∧
      (G.sys.inst true).ctl = .free (some false) ∧ Q G := by
  obtain ⟨G, hG, hctl⟩ := Option.map_eq_some_iff.mp hexec
  obtain ⟨hfalse, htrue⟩ := Prod.mk.inj hctl
  exact ⟨G, .of_exec hG, hfalse, htrue, hQ G (.of_exec hG)⟩

/-! ### One resource -/

section

variable {r : Name} {k : UInt32} {S₀ : Sys ι} {G : Group ι} {ms : List (GroupMove ι)}

/-- **Mutual exclusion of `acquire(r)`.**  Every instance has the resource `r` with the count
`k`, and the instances acquire and release it in any order.  If `r` is the empty name, then
`acquire(r)` acquires all resources of an instance, whose names have to fit onto the wire then
as well. -/
theorem card_holders_acquire_le (hr : FitsWire r) (h₀ : S₀.Initial)
    (hids : Function.Injective fun i => (S₀.inst i).lock.id)
    (hmem : ∀ i, ∃ R, (S₀.inst i).lock.getResource r = some R ∧ R.count = k)
    (hall : r = [] → ∀ i, ∀ n ∈ (S₀.inst i).lock.names, FitsWire n)
    (hrun : Lib.Run step (fun G m => G.Calls (fun _ _ c => c.Uses r) m ∧ G.TimerOk (· = r) m ∧
      G.InTurn (· = r) m) (start S₀) ms G) :
    (G.sys.holders r).card ≤ k.toNat := by
  let A (n : Name) : Prop := n = r ∨ (r = [] ∧ ∃ i, n ∈ (S₀.inst i).lock.names)
  have hcount : ∀ i R, (S₀.inst i).lock.getResource r = some R → R.count = k := by
    intro i R hR
    obtain ⟨R', hR', hk⟩ := hmem i
    rw [hR, Option.some.injEq] at hR'
    rw [hR', hk]
  have hA : ∀ n, A n → FitsWire n := by
    rintro n (rfl | ⟨hnil, i, hn⟩)
    · exact hr
    · exact hall hnil i n hn
  refine card_holders_run (P := fun n => n = r) h₀ hids hcount hA rfl (lawful_of_within ?_)
    (fun i n => Iff.rfl) hrun
  intro i L c hL hc
  have hrL : r ∈ L.names := by
    obtain ⟨R, hR, -⟩ := hmem i
    exact (hL r).mpr (Lock.mem_names_iff.mpr ⟨R, hR⟩)
  cases c with
  | acquire res =>
    obtain rfl : res = r := hc
    cases res with
    | nil => exact fun n hn => .inr ⟨rfl, i, (hL n).mp hn⟩
    | cons b bs => exact ⟨.inl rfl, hrL⟩
  | release res =>
    obtain rfl : res = r := hc
    exact ⟨.inl rfl, hrL⟩
  | setAdquireMaxRetry n => trivial
  | _ => exact hc.elim

/-- Both instances acquire `a`, the second one in a single pass.  The first one acquires it after it
has heard the STARTING of the second one in its collision wait; the second one hears the ACQUIRED
of the first one in its own, and gives up. -/
def contends : List (GroupMove Bool) :=
  calls true [.call (.setAdquireMaxRetry 1)] ++ starts false ++ arrives 1 false false ++
    starts true ++ arrives 1 true true ++ arrives 1 false true ++ arrives 1 true false ++
    wakes false [97] ++ builds false [97] ++ sends false [97] ++ arrives 1 false true ++
    arrives 1 false false ++ calls false [.timeout] ++ calls true [.timeout] ++ sets false ++
    calls false [.run] ++ arrives 1 false true ++ arrives 1 false false ++ wakes true [97] ++
    builds true [97] ++ sends true [97] ++ arrives 1 true false ++ arrives 1 true true ++
    calls false [.timeout] ++ sets true ++ calls true [.run] ++ calls false [.run] ++
    sets false ++ calls false [.run] ++ arrives 1 false true ++ arrives 1 true false ++
    arrives 1 true true ++ beacons false [97] ++ arrives 1 false true ++
    calls true [.timeout, .run] ++ resets true ++ calls true [.run, .run, .timeout, .run]

/-- Two instances contend for `a`. -/
theorem card_holders_acquire_le_contends :
    ∃ G : Group Bool, Lib.Run step (fun G m => G.Calls (fun _ _ c => c.Uses [97]) m ∧
        G.TimerOk (· = [97]) m ∧ G.InTurn (· = [97]) m) (start (pair fun _ => [[97]])) contends G ∧
      (G.sys.inst false).ctl = .free (some true) ∧ (G.sys.inst true).ctl = .free (some false) ∧
      (G.sys.holders [97]).card ≤ 1 := by
  refine decided_of_exec (by decide +kernel) fun G hG => ?_
  exact card_holders_acquire_le (by decide) (Sys.fresh_initial fun _ => le_rfl) (by decide)
    (fun _ => ⟨_, rfl, rfl⟩) (fun h => absurd h (by simp)) hG

/-- A beacon that the first instance has built while it was STARTING is sent when it has acquired
`a`, and arrives in the collision wait of the second one, after the ACQUIRED. -/
def crosses : List (GroupMove Bool) :=
  starts true ++ starts false ++ wakes false [97] ++ builds false [97] ++ arrives 1 true false ++
    arrives 1 false false ++ wakes true [97] ++ builds true [97] ++ sends true [97] ++
    arrives 1 true false ++ calls false [.timeout] ++ sets false ++ calls false [.run] ++
    beacons true [97] ++ arrives 1 true false ++ arrives 3 true true ++ calls true [.timeout] ++
    sets true ++ arrives 2 false true ++ arrives 1 true true ++ calls true [.run] ++
    arrives 1 false false ++ calls false [.timeout, .run] ++ sets false ++ calls false [.run] ++
    sends false [97] ++ arrives 1 true false ++ arrives 2 false true ++
    calls true [.timeout, .run] ++ sets true ++ calls true [.run]

/-- Each instance is notified in its collision wait, and both waits return by their timeouts. -/
def returnsLate : List (GroupMove Bool) :=
  starts false ++ starts true ++ arrives 1 false false ++ arrives 1 true true ++
    arrives 1 false true ++ arrives 1 true false ++ wakes false [97] ++ builds false [97] ++
    sends false [97] ++ arrives 1 false true ++ arrives 1 false false ++ calls false [.timeout] ++
    calls true [.timeout] ++ sets false ++ calls false [.run] ++ arrives 1 false true ++
    arrives 1 false false ++ sets true ++ calls true [.run] ++ arrives 1 true true ++
    arrives 1 true false ++ beacons false [97] ++ arrives 1 false true ++
    [.act true .late, .act false .late] ++ calls false [.run] ++ sets false ++
    calls false [.run] ++ calls true [.run] ++ sets true ++ calls true [.run]

/-- At the end of a run that keeps the assumption about the timers there are two holders. -/
lemma exceeded_of_exec {P : Name → Prop} [DecidablePred P] {C : Bool → Lock → Call → Prop}
    [∀ i L, DecidablePred (C i L)] {S : Sys Bool} {ms : List (GroupMove Bool)} {r : Name}
    (hexec : (Lib.exec step (fun G m => G.Calls C m ∧ G.TimerOk P m) (start S) ms).map
      (fun G => (G.sys.holders r).card) = some 2) :
    ∃ G : Group Bool, Lib.Run step (fun G m => G.Calls C m ∧ G.TimerOk P m) (start S) ms G ∧
      1 < (G.sys.holders r).card := by
  obtain ⟨G, hG, hcard⟩ := Option.map_eq_some_iff.mp hexec
  exact ⟨G, .of_exec hG, by omega⟩

/-- In both runs there are two holders at the end. -/
theorem card_holders_acquire_exceeded :
    (∃ G : Group Bool, Lib.Run step (fun G m => G.Calls (fun _ _ c => c.Uses [97]) m ∧
        G.TimerOk (· = [97]) m) (start (pair fun _ => [[97]])) crosses G ∧
      1 < (G.sys.holders [97]).card) ∧
    ∃ G : Group Bool, Lib.Run step (fun G m => G.Calls (fun _ _ c => c.Uses [97]) m ∧
        G.TimerOk (· = [97]) m) (start (pair fun _ => [[97]])) returnsLate G ∧
      1 < (G.sys.holders [97]).card := by
  constructor
  · exact exceeded_of_exec (by decide +kernel)
  · exact exceeded_of_exec (by decide +kernel)

end

/-! ### All resources of an instance together -/

section

variable {counts : Name → UInt32} {S₀ : Sys ι} {G : Group ι} {ms : List (GroupMove ι)}

/-- **Mutual exclusion of `acquire()`.**  Each instance has its own set of resources; instances
that share a resource agree on its count. -/
theorem card_holders_acquireAll_le (h₀ : S₀.Initial)
    (hids : Function.Injective fun i => (S₀.inst i).lock.id)
    (hfit : ∀ i, ∀ n ∈ (S₀.inst i).lock.names, FitsWire n)
    (hcount : ∀ i n R, (S₀.inst i).lock.getResource n = some R → R.count = counts n)
    (hrun : Lib.Run step (fun G m => G.Calls (fun _ _ c => c.UsesAll) m ∧
      G.TimerOk (fun _ => True) m ∧ G.InTurn (fun _ => True) m) (start S₀) ms G) (r : Name) :
    (G.sys.holders r).card ≤ (counts r).toNat := by
  let A (n : Name) : Prop := ∃ i, n ∈ (S₀.inst i).lock.names
  have hA : ∀ n, A n → FitsWire n := by
    rintro n ⟨i, hn⟩
    exact hfit i n hn
  refine card_holders_run (P := fun _ => True) h₀ hids (fun i => hcount i r) hA trivial
    (lawful_of_within ?_) (fun i n => Iff.rfl) hrun
  intro i L c hL hc
  cases c with
  | acquire res =>
    obtain rfl : res = [] := hc
    exact fun n hn => ⟨i, (hL n).mp hn⟩
  | releaseAll => exact fun n hn => ⟨i, (hL n).mp hn⟩
  | setAdquireMaxRetry n => trivial
  | _ => exact hc.elim

/-- The first instance acquires `a` and `b`, the second one, in a single pass, only `b`.  The first
one decides after the STARTING of the second one, which hears ACQUIRED afterwards and gives up. -/
def contendsAll : List (GroupMove Bool) :=
  calls true [.call (.setAdquireMaxRetry 1)] ++ startsAll false [[97], [98]] ++
    startsAll true [[98]] ++ arrives 4 false false ++ arrives 2 true true ++
    arrives 4 false true ++ arrives 2 true false ++ builds false [97] ++ sends false [97] ++
    builds false [98] ++ sends false [98] ++ arrives 2 false true ++ arrives 2 false false ++
    calls false [.timeout] ++ calls true [.timeout] ++ sets false ++ sets false ++
    calls false [.run] ++ arrives 2 false true ++ arrives 2 false false ++ builds true [98] ++
    sends true [98] ++ arrives 1 true false ++ arrives 1 true true ++ calls false [.timeout] ++
    sets true ++ calls true [.run] ++ calls false [.run] ++ sets false ++ calls false [.run] ++
    sets false ++ calls false [.run] ++ arrives 2 false true ++ arrives 1 true false ++
    arrives 1 true true ++ beacons false [97] ++ beacons false [98] ++ arrives 2 false true ++
    calls true [.timeout, .run] ++ resets true ++ calls true [.run, .run, .timeout, .run]

/-- Two instances contend for `b`, and one of them for `a` as well. -/
theorem card_holders_acquireAll_le_contends :
    ∃ G : Group Bool, Lib.Run step (fun G m => G.Calls (fun _ _ c => c.UsesAll) m ∧
        G.TimerOk (fun _ => True) m ∧ G.InTurn (fun _ => True) m)
        (start (pair fun i => if i then [[98]] else [[97], [98]])) contendsAll G ∧
      (G.sys.inst false).ctl = .free (some true) ∧ (G.sys.inst true).ctl = .free (some false) ∧
      ∀ r, (G.sys.holders r).card ≤ 1 := by
  have hpos : ∀ n, 1 ≤ (fun _ => 1 : Name → UInt32) n := fun _ => le_rfl
  have hcount : ∀ i n R,
      ((pair fun i => if i then [[98]] else [[97], [98]]).inst i).lock.getResource n = some R →
        R.count = (fun _ => 1 : Name → UInt32) n := by
    intro i n R hR
    rw [Sys.fresh_unused hpos i n R hR]
  refine decided_of_exec (by decide +kernel) fun G hG => ?_
  exact card_holders_acquireAll_le (Sys.fresh_initial hpos) (by decide) (by decide) hcount hG

/-- As `crosses`, with `acquire()`. -/
def crossesAll : List (GroupMove Bool) :=
  startsAll true [[97]] ++ startsAll false [[97]] ++ builds false [97] ++ arrives 2 true false ++
    arrives 2 true true ++ arrives 2 false false ++ builds true [97] ++ sends true [97] ++
    arrives 1 true false ++ calls false [.timeout] ++ sets false ++ calls false [.run] ++
    beacons true [97] ++ arrives 1 true false ++ calls true [.timeout] ++ sets true ++
    arrives 3 false true ++ arrives 3 true true ++ calls true [.run] ++ arrives 1 false false ++
    calls false [.timeout, .run] ++ sets false ++ calls false [.run] ++ sends false [97] ++
    arrives 1 true false ++ arrives 2 false true ++ calls true [.timeout, .run] ++ sets true ++
    calls true [.run]

/-- There are two holders at the end. -/
theorem card_holders_acquireAll_exceeded : ∃ G : Group Bool,
    Lib.Run step (fun G m => G.Calls (fun _ _ c => c.UsesAll) m ∧ G.TimerOk (fun _ => True) m)
      (start (pair fun _ => [[97]])) crossesAll G ∧
    1 < (G.sys.holders [97]).card :=
  exceeded_of_exec (by decide +kernel)

end

end Group
end DistLock
