/-
The member table of a resource at the granularity of its mutex.

`updateMember` takes `members_m` for the lookup, for the insertion in `addMember` and for the
assignments to the member, each time on its own, and the member itself is used in between; `reset`
takes the mutex once, to delete the members, and `actionPerformed` tests the state of the resource
without it.  The thread of the handler and the calling thread are interleaved section by section
here: a test of a field, a store of a field, or what happens while the mutex is held.

Objects are never lost or deleted twice, but the assignments may hit a member that `reset` has
deleted (`MemberTable.valid_iff`).  If no test of an update comes out differently before it has
ended, the table is the one of the model in which every update is one step, at its last section
(`MemberTable.updates_linearize`).

The loops of `isAcquirable` and `query_lock` over the table do not take the mutex and do not
change the table; they are left out.
-/
import DistLock.Lib.Run
import DistLock.Model.Spec

namespace DistLock

open Lib (OrdMap)

/-- What a packet of another member says about the resource. -/
structure Report where
  id : UInt32
  state : State
  count : UInt32
  deriving DecidableEq

/-- Where the thread of the handler is: it waits for a packet; in `updateMember` it compares the
counts, or the state with `QUERYING`, calls `getMember`, calls it again in `addMember`, inserts a
new member there, or is about to write to the member.  The flag records whether the member is
its own. -/
inductive HandlerPc
  | waiting
  | comparing (rep : Report)
  | querying (rep : Report)
  | looking (rep : Report)
  | adding (rep : Report)
  | inserting (rep : Report)
  | writing (rep : Report) (p : ℕ) (isNew : Bool)
  deriving DecidableEq

/-- The packet that is being worked on. -/
def HandlerPc.report : HandlerPc → Option Report
  | waiting => none
  | comparing rep | querying rep | looking rep | adding rep | inserting rep => some rep
  | writing rep _ _ => some rep

/-- The thread has a pointer to a member. -/
def HandlerPc.holds : HandlerPc → Bool
  | writing _ _ _ => true
  | _ => false

/-- The id of the member that the update has inserted but not yet written to. -/
def HandlerPc.pending : HandlerPc → Option UInt32
  | writing rep _ true => some rep.id
  | _ => none

/-- A resource with pointers to its members, the members that exist, the next address, the
position of the handler's thread, and whether the calling thread is inside `reset`. -/
structure MemberTable where
  name : Name
  state : State
  count : UInt32
  members : OrdMap UInt32 ℕ
  objects : OrdMap ℕ Member
  next : ℕ
  handler : HandlerPc
  clearing : Bool

/-- A step: a packet arrives, or the handler's thread goes on; or the calling thread stores a
state or a count, calls `reset`, which stores `IDLE`, or clears the table there. -/
inductive Section
  | packet (rep : Report)
  | handler
  | assign (s : State)
  | setCount (c : UInt32)
  | reset
  | clear
  deriving DecidableEq

/-- What happens to a resource if nothing is interleaved. -/
inductive MemberOp
  | heard (rep : Report)
  | assign (s : State)
  | setCount (c : UInt32)
  | clear
  deriving DecidableEq

/-- The operation in one step. -/
def Resource.handle (R : Resource) : MemberOp → Resource
  | .heard rep => if R.state = .idle then R else R.updateMember rep.id rep.state rep.count
  | .assign s => { R with state := s }
  | .setCount c => R.setCount c
  | .clear => R.clearMembers

namespace MemberTable

variable {T T' : MemberTable} {e : Section} {rep : Report} {p : ℕ} {isNew : Bool}

/-- `Resource(DistributedLock* p, std::string name)`. -/
def new (name : Name) : MemberTable where
  name := name
  state := .idle
  count := 1
  members := .empty
  objects := .empty
  next := 0
  handler := .waiting
  clearing := false

/-- The assignments to the member at `p`.  A member that has been deleted is not there any more,
and the write goes to freed memory. -/
def write (T : MemberTable) (rep : Report) (p : ℕ) : OrdMap ℕ Member :=
  match T.objects.find? p with
  | some m => T.objects.insert p { m with count := rep.count, state := rep.state }
  | none => T.objects

/-- A section of `updateMember`. -/
def runHandler (T : MemberTable) : Option MemberTable :=
  match T.handler with
  | .waiting => none
  | .comparing rep =>
    some { T with handler := if T.count = rep.count then .looking rep else .querying rep }
  | .querying rep =>
    some { T with handler := if T.state = .querying then .looking rep else .waiting }
  | .looking rep =>
    match T.members.find? rep.id with
    | some p => some { T with handler := .writing rep p false }
    | none => some { T with handler := .adding rep }
  | .adding rep =>
    match T.members.find? rep.id with
    | some p => some { T with handler := .writing rep p false }
    | none => some { T with handler := .inserting rep }
  | .inserting rep =>
    some { T with
      members := T.members.insert rep.id T.next
      objects := T.objects.insert T.next (Member.new rep.id)
      next := T.next + 1
      handler := .writing rep T.next true }
  | .writing rep p _ => some { T with objects := T.write rep p, handler := .waiting }

/-- The members that `reset` leaves: those that are not in the table. -/
def unlisted (T : MemberTable) : OrdMap ℕ Member :=
  T.objects.filterKeys fun p => p ∉ T.members.entries.map (·.2)

/-- One step of the two threads. -/
def step (T : MemberTable) : Section → Option MemberTable
  | .packet rep =>
    match T.handler with
    | .waiting => some { T with handler := if T.state = .idle then .waiting else .comparing rep }
    | _ => none
  | .handler => T.runHandler
  | .assign s => if T.clearing then none else some { T with state := s }
  | .setCount c => if T.clearing then none else some { T with count := c }
  | .reset => if T.clearing then none else some { T with state := .idle, clearing := true }
  | .clear =>
    if T.clearing then
      some { T with members := .empty, objects := T.unlisted, clearing := false }
    else none

/-! ### What a step can do -/

/-- All steps. -/
inductive Effect (T : MemberTable) : Section → MemberTable → Prop
  | ignore (rep : Report) (h : T.handler = .waiting) (hs : T.state = .idle) :
    Effect T (.packet rep) T
  | accept (rep : Report) (h : T.handler = .waiting) (hs : T.state ≠ .idle) :
    Effect T (.packet rep) { T with handler := .comparing rep }
  | same (rep : Report) (h : T.handler = .comparing rep) (hc : T.count = rep.count) :
    Effect T .handler { T with handler := .looking rep }
  | other (rep : Report) (h : T.handler = .comparing rep) (hc : T.count ≠ rep.count) :
    Effect T .handler { T with handler := .querying rep }
  | query (rep : Report) (h : T.handler = .querying rep) (hs : T.state = .querying) :
    Effect T .handler { T with handler := .looking rep }
  | refuse (rep : Report) (h : T.handler = .querying rep) (hs : T.state ≠ .querying) :
    Effect T .handler { T with handler := .waiting }
  | find (rep : Report) (p : ℕ) (h : T.handler = .looking rep ∨ T.handler = .adding rep)
      (hp : T.members.find? rep.id = some p) :
    Effect T .handler { T with handler := .writing rep p false }
  | miss (rep : Report) (h : T.handler = .looking rep) (hp : T.members.find? rep.id = none) :
    Effect T .handler { T with handler := .adding rep }
  | missAgain (rep : Report) (h : T.handler = .adding rep)
      (hp : T.members.find? rep.id = none) :
    Effect T .handler { T with handler := .inserting rep }
  | insert (rep : Report) (h : T.handler = .inserting rep) :
    Effect T .handler { T with
      members := T.members.insert rep.id T.next
      objects := T.objects.insert T.next (Member.new rep.id)
      next := T.next + 1
      handler := .writing rep T.next true }
  | write (rep : Report) (p : ℕ) (isNew : Bool) (h : T.handler = .writing rep p isNew) :
    Effect T .handler { T with objects := T.write rep p, handler := .waiting }
  | assign (s : State) (h : T.clearing = false) : Effect T (.assign s) { T with state := s }
  | setCount (c : UInt32) (h : T.clearing = false) :
    Effect T (.setCount c) { T with count := c }
  | reset (h : T.clearing = false) :
    Effect T .reset { T with state := .idle, clearing := true }
  | clear (h : T.clearing = true) :
    Effect T .clear { T with members := .empty, objects := T.unlisted, clearing := false }

lemma effect_handler (hs : T.runHandler = some T') : T.Effect .handler T' := by
  rw [runHandler] at hs
  cases hh : T.handler with
  | waiting =>
    rw [hh] at hs
    cases hs
  | comparing rep =>
    simp only [hh, Option.some.injEq] at hs
    subst hs
    split_ifs with hc
    · exact .same rep hh hc
    · exact .other rep hh hc
  | querying rep =>
    simp only [hh, Option.some.injEq] at hs
    subst hs
    split_ifs with hq
    · exact .query rep hh hq
    · exact .refuse rep hh hq
  | looking rep =>
    simp only [hh] at hs
    cases hp : T.members.find? rep.id with
    | some p =>
      rw [hp] at hs
      exact Option.some.inj hs ▸ .find rep p (.inl hh) hp
    | none =>
      rw [hp] at hs
      exact Option.some.inj hs ▸ .miss rep hh hp
  | adding rep =>
    simp only [hh] at hs
    cases hp : T.members.find? rep.id with
    | some p =>
      rw [hp] at hs
      exact Option.some.inj hs ▸ .find rep p (.inr hh) hp
    | none =>
      rw [hp] at hs
      exact Option.some.inj hs ▸ .missAgain rep hh hp
  | inserting rep =>
    simp only [hh, Option.some.injEq] at hs
    exact hs ▸ .insert rep hh
  | writing rep p isNew =>
    simp only [hh, Option.some.injEq] at hs
    exact hs ▸ .write rep p isNew hh

lemma effect_step (hs : T.step e = some T') : T.Effect e T' := by
  cases e with
  | packet rep =>
    simp only [step] at hs
    cases hh : T.handler with
    | waiting =>
      simp only [hh, Option.some.injEq] at hs
      subst hs
      by_cases hi : T.state = .idle
      · rw [if_pos hi, ← hh]
        exact .ignore rep hh hi
      · rw [if_neg hi]
        exact .accept rep hh hi
    | _ =>
      rw [hh] at hs
      cases hs
  | handler => exact effect_handler hs
  | assign s =>
    simp only [step] at hs
    split_ifs at hs with h
    exact Option.some.inj hs ▸ .assign s ((Bool.not_eq_true _).mp h)
  | setCount c =>
    simp only [step] at hs
    split_ifs at hs with h
    exact Option.some.inj hs ▸ .setCount c ((Bool.not_eq_true _).mp h)
  | reset =>
    simp only [step] at hs
    split_ifs at hs with h
    exact Option.some.inj hs ▸ .reset ((Bool.not_eq_true _).mp h)
  | clear =>
    simp only [step] at hs
    split_ifs at hs with h
    exact Option.some.inj hs ▸ .clear h

/-! ### The objects -/

/-- The table lists exactly the members that exist, each under its id, and the handler's thread
is about to insert a new one, or to write to one that has its id. -/
structure Sound (T : MemberTable) : Prop where
  listed : ∀ id p, T.members.find? id = some p → ∃ m, T.objects.find? p = some m ∧ m.id = id
  reachable : ∀ p m, T.objects.find? p = some m → T.members.find? m.id = some p
  fresh : ∀ p m, T.objects.find? p = some m → p < T.next
  inserting : ∀ rep, T.handler = .inserting rep → T.members.find? rep.id = none
  writing : ∀ rep p isNew, T.handler = .writing rep p isNew → p < T.next ∧
    ∀ m, T.objects.find? p = some m → m.id = rep.id ∧ (isNew = true → m = Member.new rep.id)

lemma sound_new (name : Name) : (new name).Sound where
  listed _ _ h := by cases h
  reachable _ _ h := by cases h
  fresh _ _ h := by cases h
  inserting _ h := by cases h
  writing _ _ _ h := by cases h

/-- All members are listed, so `reset` deletes them all. -/
lemma Sound.unlisted_eq (h : T.Sound) : T.unlisted = .empty := by
  refine OrdMap.ext_find? fun p => ?_
  rw [unlisted, OrdMap.find?_filterKeys, OrdMap.find?_empty]
  split_ifs with hp
  · cases hm : T.objects.find? p with
    | none => rfl
    | some m =>
      have hmem := List.mem_map_of_mem (f := fun e => e.2)
        (OrdMap.mem_entries_iff.mpr (h.reachable p m hm))
      exact absurd hmem (of_decide_eq_true hp)
  · rfl

/-- What the assignments leave at an address. -/
lemma find?_write (rep : Report) (p q : ℕ) :
    (T.write rep p).find? q =
      if q = p then
        (T.objects.find? p).map fun m => { m with count := rep.count, state := rep.state }
      else T.objects.find? q := by
  rw [write]
  cases hp : T.objects.find? p with
  | none =>
    split_ifs with hq
    · rw [hq, hp]
      rfl
    · rfl
  | some m => exact OrdMap.find?_insert

/-- Only the position of the handler's thread changes. -/
lemma Sound.move (h : T.Sound) {pc : HandlerPc}
    (hins : ∀ rep, pc = .inserting rep → T.members.find? rep.id = none)
    (hwrite : ∀ rep p isNew, pc = .writing rep p isNew →
      isNew = false ∧ T.members.find? rep.id = some p) : Sound { T with handler := pc } where
  listed := h.listed
  reachable := h.reachable
  fresh := h.fresh
  inserting := hins
  writing rep p isNew hpc := by
    obtain ⟨rfl, hp⟩ := hwrite rep p isNew hpc
    obtain ⟨m, hm, hid⟩ := h.listed _ _ hp
    refine ⟨h.fresh p m hm, fun m' hm' => ?_⟩
    obtain rfl := Option.some.inj (hm.symm.trans hm')
    exact ⟨hid, fun hnew => absurd hnew Bool.false_ne_true⟩

/-- Any step keeps the table and the objects together. -/
lemma sound_step (h : T.Sound) (hs : T.step e = some T') : T'.Sound := by
  have hmove : ∀ {pc : HandlerPc}, (∀ rep, pc ≠ .inserting rep) →
      (∀ rep p isNew, pc ≠ .writing rep p isNew) → Sound { T with handler := pc } :=
    fun hi hw => h.move (fun rep hpc => absurd hpc (hi rep))
      (fun rep p isNew hpc => absurd hpc (hw rep p isNew))
  cases effect_step hs with
  | ignore => exact h
  | accept | same | other | query | refuse | miss => exact hmove (by simp) (by simp)
  | find rep p _ hp =>
    refine h.move (by simp) fun rep' p' isNew hpc => ?_
    obtain ⟨rfl, rfl, rfl⟩ := HandlerPc.writing.inj hpc
    exact ⟨rfl, hp⟩
  | missAgain rep _ hp =>
    refine h.move (fun rep' hpc => ?_) (by simp)
    rwa [← HandlerPc.inserting.inj hpc]
  | insert rep hh =>
    have hnone := h.inserting rep hh
    constructor
    case listed =>
      intro id p hp
      dsimp only at hp ⊢
      rw [OrdMap.find?_insert] at hp
      split_ifs at hp with hid
      · obtain rfl := Option.some.inj hp
        exact ⟨_, OrdMap.find?_insert_self, hid.symm⟩
      · obtain ⟨m, hm, hid⟩ := h.listed id p hp
        have hne : p ≠ T.next := (h.fresh p m hm).ne
        exact ⟨m, by rw [OrdMap.find?_insert_of_ne hne, hm], hid⟩
    case reachable =>
      intro p m hm
      dsimp only at hm ⊢
      rw [OrdMap.find?_insert] at hm
      split_ifs at hm with hp
      · obtain rfl := Option.some.inj hm
        rw [hp]
        exact OrdMap.find?_insert_self
      · have hfind := h.reachable p m hm
        have hne : m.id ≠ rep.id := fun hid => by
          rw [hid, hnone] at hfind
          cases hfind
        rw [OrdMap.find?_insert_of_ne hne, hfind]
    case fresh =>
      intro p m hm
      dsimp only at hm ⊢
      rw [OrdMap.find?_insert] at hm
      split_ifs at hm with hp
      · rw [hp]
        exact Nat.lt_succ_self _
      · exact Nat.lt_succ_of_lt (h.fresh p m hm)
    case inserting =>
      intro rep' hpc
      cases hpc
    case writing =>
      intro rep' p isNew hpc
      obtain ⟨rfl, rfl, rfl⟩ := HandlerPc.writing.inj hpc
      refine ⟨Nat.lt_succ_self _, fun m hm => ?_⟩
      obtain rfl := Option.some.inj (OrdMap.find?_insert_self.symm.trans hm)
      exact ⟨rfl, fun _ => rfl⟩
  | write rep p isNew hh =>
    obtain ⟨-, hwrite⟩ := h.writing rep p isNew hh
    -- an object keeps its id
    have hkeep : ∀ q m, (T.write rep p).find? q = some m →
        ∃ m₀, T.objects.find? q = some m₀ ∧ m₀.id = m.id := by
      intro q m hq
      rw [find?_write] at hq
      split_ifs at hq with heq
      · obtain ⟨m₀, hm₀, rfl⟩ := Option.map_eq_some_iff.mp hq
        exact ⟨m₀, heq ▸ hm₀, rfl⟩
      · exact ⟨m, hq, rfl⟩
    constructor
    case listed =>
      intro id q hq
      obtain ⟨m, hm, hid⟩ := h.listed id q hq
      dsimp only
      rw [find?_write]
      split_ifs with heq
      · rw [← heq, hm]
        exact ⟨_, rfl, hid⟩
      · exact ⟨m, hm, hid⟩
    case reachable =>
      intro q m hq
      obtain ⟨m₀, hm₀, hid⟩ := hkeep q m hq
      rw [← hid]
      exact h.reachable q m₀ hm₀
    case fresh =>
      intro q m hq
      obtain ⟨m₀, hm₀, -⟩ := hkeep q m hq
      exact h.fresh q m₀ hm₀
    case inserting =>
      intro rep' hpc
      cases hpc
    case writing =>
      intro rep' q isNew' hpc
      cases hpc
  | assign | setCount | reset => exact ⟨h.listed, h.reachable, h.fresh, h.inserting, h.writing⟩
  | clear =>
    rw [h.unlisted_eq]
    refine ⟨fun _ _ hp => (by cases hp), fun _ _ hm => (by cases hm), fun _ _ hm => (by cases hm),
      fun _ _ => rfl, fun rep p isNew hpc => ⟨(h.writing rep p isNew hpc).1, fun _ hm => ?_⟩⟩
    cases hm

/-! ### Members that are written to after they have been deleted -/

/-- The member that the handler's thread is going to write to exists. -/
def Valid (T : MemberTable) : Prop :=
  ∀ rep p isNew, T.handler = .writing rep p isNew → T.objects.find? p ≠ none

/-- The table is cleared while the handler's thread has a pointer into it. -/
def Cuts (T : MemberTable) (e : Section) : Prop := e = .clear ∧ T.handler.holds = true

instance (T : MemberTable) (e : Section) : Decidable (T.Cuts e) :=
  inferInstanceAs (Decidable (_ ∧ _))

lemma holds_iff {pc : HandlerPc} :
    pc.holds = true ↔ ∃ rep p isNew, pc = .writing rep p isNew := by
  cases pc <;> simp [HandlerPc.holds]

lemma valid_step (h : T.Sound) (hv : T.Valid) (hs : T.step e = some T') :
    T'.Valid ↔ ¬ T.Cuts e := by
  have hno : e ≠ .clear → T'.Valid → (T'.Valid ↔ ¬ T.Cuts e) :=
    fun he hv' => iff_of_true hv' fun hcut => he hcut.1
  have hmove : ∀ {pc : HandlerPc}, (∀ rep p isNew, pc ≠ .writing rep p isNew) →
      Valid { T with handler := pc } :=
    fun hpc rep p isNew h => absurd h (hpc rep p isNew)
  cases effect_step hs with
  | ignore => exact hno (by simp) hv
  | accept | same | other | query | refuse | miss | missAgain =>
    exact hno (by simp) (hmove (by simp))
  | find rep p _ hp =>
    refine hno (by simp) fun rep' p' isNew hpc => ?_
    obtain ⟨-, rfl, -⟩ := HandlerPc.writing.inj hpc
    obtain ⟨m, hm, -⟩ := h.listed _ _ hp
    dsimp only
    rw [hm]
    exact Option.some_ne_none m
  | insert rep _ =>
    refine hno (by simp) fun rep' p isNew hpc => ?_
    obtain ⟨-, rfl, -⟩ := HandlerPc.writing.inj hpc
    dsimp only
    rw [OrdMap.find?_insert_self]
    exact Option.some_ne_none _
  | write => exact hno (by simp) fun _ _ _ hpc => (by cases hpc)
  | assign | setCount | reset => exact hno (by simp) hv
  | clear _ =>
    rw [h.unlisted_eq]
    refine ⟨fun hv' hcut => ?_, fun hcut rep p isNew hpc => ?_⟩
    · obtain ⟨rep, p, isNew, hpc⟩ := holds_iff.mp hcut.2
      exact hv' rep p isNew hpc rfl
    · exact absurd ⟨rfl, holds_iff.mpr ⟨rep, p, isNew, hpc⟩⟩ hcut

/-- **The pointer in `updateMember` is not protected.**  However the sections are interleaved, the
table lists exactly the members that have been created and not deleted, so none is lost or deleted
twice.  But the member that is written to may have been deleted; this never happens if and only if
`reset` never clears the table while the handler's thread has a pointer into it. -/
theorem valid_iff {name : Name} {es : List Section}
    (hrun : Lib.Run step (fun _ _ => True) (new name) es T) :
    (∀ id p, T.members.find? id = some p ↔ ∃ m, T.objects.find? p = some m ∧ m.id = id) ∧
      ((∀ es₁ T₁, es₁ <+: es → Lib.Run step (fun _ _ => True) (new name) es₁ T₁ → T₁.Valid) ↔
        Lib.Run step (fun T e => True ∧ ¬ T.Cuts e) (new name) es T) := by
  have hstep : ∀ T e T', T.Sound → True → step T e = some T' → T'.Sound :=
    fun _ _ _ h _ hs => sound_step h hs
  have hsound : T.Sound := hrun.invariant hstep (sound_new name)
  refine ⟨fun id p => ⟨hsound.listed id p, ?_⟩, ?_⟩
  · rintro ⟨m, hm, rfl⟩
    exact hsound.reachable p m hm
  · exact hrun.forall_prefix_iff hstep (fun _ _ _ h hv _ hs => valid_step h hv hs)
      (sound_new name) fun _ _ _ h => (by cases h)

/-- A beacon of a known member arrives while a pass of `acquire` fails. -/
def cutUpdate : List Section :=
  [.assign .acquiring, .packet ⟨2, .acquired, 1⟩, .handler, .handler, .handler, .handler, .handler,
    .packet ⟨2, .acquired, 1⟩, .handler, .handler, .reset, .clear]

/-- The handler's thread is left with a pointer to a member that has been deleted. -/
theorem valid_iff_cut : ∃ T, Lib.Run step (fun _ _ => True) (new [97]) cutUpdate T ∧ ¬ T.Valid ∧
    ¬ Lib.Run step (fun T e => True ∧ ¬ T.Cuts e) (new [97]) cutUpdate T := by
  have hexec : (Lib.exec step (fun _ _ => True) (new [97]) cutUpdate).map
      (fun T => (T.handler, T.objects.find? 0)) =
        some (.writing ⟨2, .acquired, 1⟩ 0 false, none) := by decide
  obtain ⟨T, hT, hend⟩ := Option.map_eq_some_iff.mp hexec
  obtain ⟨hh, hnone⟩ := Prod.mk.inj hend
  have hrun : Lib.Run step (fun _ _ => True) (new [97]) cutUpdate T := .of_exec hT
  have hcut : ¬ T.Valid := fun hv => hv _ _ _ hh hnone
  exact ⟨T, hrun, hcut, fun h => hcut ((valid_iff hrun).2.mpr h _ _ List.prefix_rfl hrun)⟩

/-! ### Updates in one step -/

/-- How the tests of an update come out. -/
structure Tests where
  idle : Bool
  same : Bool
  querying : Bool
  deriving DecidableEq

def tests (T : MemberTable) (rep : Report) : Tests where
  idle := T.state = .idle
  same := T.count = rep.count
  querying := T.state = .querying

/-- No test of the update that is under way comes out differently after the step. -/
def Undisturbed (T : MemberTable) (e : Section) : Prop :=
  ∀ rep ∈ T.handler.report, ∀ T' ∈ T.step e, T'.tests rep = T.tests rep

instance (T : MemberTable) (e : Section) : Decidable (T.Undisturbed e) :=
  inferInstanceAs (Decidable (∀ rep ∈ T.handler.report, ∀ T' ∈ T.step e, _))

/-- The tests that have been made would come out as they did. -/
def Meets (T : MemberTable) : HandlerPc → Prop
  | .waiting => True
  | .comparing rep => (T.tests rep).idle = false
  | .querying rep => (T.tests rep).idle = false ∧ (T.tests rep).same = false
  | .looking rep | .adding rep | .inserting rep | .writing rep _ _ =>
    (T.tests rep).idle = false ∧ ((T.tests rep).same = true ∨ (T.tests rep).querying = true)

/-- What holds if the updates are not disturbed. -/
structure Steady (T : MemberTable) : Prop where
  sound : T.Sound
  valid : T.Valid
  meets : T.Meets T.handler
  clearing : T.clearing = true → T.state = .idle ∧ T.handler = .waiting

/-- The content of a member. -/
def content (T : MemberTable) (p : ℕ) : Member := (T.objects.find? p).getD (Member.new 0)

/-- The resource without the member that is about to be written to for the first time. -/
def view (T : MemberTable) : Resource where
  name := T.name
  running := true
  state := T.state
  count := T.count
  members := (T.members.filterKeys fun id => T.handler.pending ≠ some id).mapValues T.content

/-- The operation that takes place with a step: an update takes place when the member is written
to, or when the packet is refused. -/
def takesPlace (T : MemberTable) : Section → Option MemberOp
  | .packet rep => if T.state = .idle then some (.heard rep) else none
  | .handler =>
    match T.handler with
    | .writing rep _ _ => some (.heard rep)
    | .querying rep => if T.state = .querying then none else some (.heard rep)
    | _ => none
  | .assign s => some (.assign s)
  | .setCount c => some (.setCount c)
  | .reset => some (.assign .idle)
  | .clear => some .clear

lemma meets_congr {pc : HandlerPc} (h : ∀ rep ∈ pc.report, T'.tests rep = T.tests rep)
    (hm : T.Meets pc) : T'.Meets pc := by
  cases pc with
  | waiting => trivial
  | comparing rep | querying rep | looking rep | adding rep | inserting rep =>
    rw [Meets, h rep rfl]
    exact hm
  | writing rep p isNew =>
    rw [Meets, h rep rfl]
    exact hm

/-- A packet is worked on only while the resource is not idle. -/
lemma Steady.state_ne (h : T.Steady) (hw : T.handler ≠ .waiting) : T.state ≠ .idle := by
  have hm := h.meets
  cases hh : T.handler with
  | waiting => exact absurd hh hw
  | comparing rep =>
    rw [hh] at hm
    exact of_decide_eq_false hm
  | _ =>
    rw [hh] at hm
    exact of_decide_eq_false hm.1

lemma report_ne_none {pc : HandlerPc} (h : pc ≠ .waiting) : ∃ rep, pc.report = some rep := by
  cases pc with
  | waiting => exact absurd rfl h
  | _ => exact ⟨_, rfl⟩

lemma steady_step (h : T.Steady) (hu : T.Undisturbed e) (hs : T.step e = some T') :
    T'.Steady := by
  have hm := h.meets
  have hbusy : T.handler ≠ .waiting → T.clearing = false := by
    intro hw
    cases hc : T.clearing with
    | true => exact absurd (h.clearing hc).2 hw
    | false => rfl
  refine ⟨sound_step h.sound hs, (valid_step h.sound h.valid hs).mpr ?_, ?_, ?_⟩
  · rintro ⟨rfl, hholds⟩
    cases effect_step hs with
    | clear hc =>
      rw [(h.clearing hc).2] at hholds
      cases hholds
  · cases effect_step hs with
    | ignore => exact hm
    | accept rep _ hi => exact decide_eq_false hi
    | same rep hh hc =>
      rw [hh] at hm
      exact ⟨hm, .inl (decide_eq_true hc)⟩
    | other rep hh hc =>
      rw [hh] at hm
      exact ⟨hm, decide_eq_false hc⟩
    | query rep hh hq =>
      rw [hh] at hm
      exact ⟨hm.1, .inr (decide_eq_true hq)⟩
    | refuse | write => trivial
    | find rep p hh _ =>
      rcases hh with hh | hh
      · rw [hh] at hm
        exact hm
      · rw [hh] at hm
        exact hm
    | miss rep hh | missAgain rep hh | insert rep hh =>
      rw [hh] at hm
      exact hm
    | assign | setCount | reset => exact meets_congr (fun rep hrep => hu rep hrep _ hs) hm
    | clear => exact hm
  · cases effect_step hs with
    | ignore => exact h.clearing
    | accept rep _ hi => exact fun hc => absurd (h.clearing hc).1 hi
    | same rep hh | other rep hh | query rep hh | refuse rep hh | miss rep hh | missAgain rep hh
    | insert rep hh =>
      intro hc
      rw [hbusy (by simp [hh])] at hc
      cases hc
    | write rep p isNew hh =>
      intro hc
      rw [hbusy (by simp [hh])] at hc
      cases hc
    | find rep p hh =>
      intro hc
      rw [hbusy (by rcases hh with hh | hh <;> simp [hh])] at hc
      cases hc
    | assign s hf | setCount c hf =>
      intro hc
      rw [hf] at hc
      cases hc
    | reset _ =>
      refine fun _ => ⟨rfl, ?_⟩
      by_contra hw
      -- the test of the state would come out differently
      obtain ⟨rep, hrep⟩ := report_ne_none hw
      have hidle := congrArg Tests.idle (hu rep hrep _ hs)
      exact h.state_ne hw (of_decide_eq_true (hidle.symm.trans rfl))
    | clear => exact fun hc => (by cases hc)

/-! ### The table without the member that is pending -/

lemma find?_view {id : UInt32} (h : T.handler.pending ≠ some id) :
    T.view.members.find? id = (T.members.find? id).map T.content := by
  rw [view, OrdMap.find?_mapValues, OrdMap.find?_filterKeys, if_pos (decide_eq_true h)]

lemma find?_view_pending {id : UInt32} (h : T.handler.pending = some id) :
    T.view.members.find? id = none := by
  rw [view, OrdMap.find?_mapValues, OrdMap.find?_filterKeys, if_neg (by simp [h])]
  rfl

lemma view_move {pc : HandlerPc} (h : pc.pending = T.handler.pending) :
    view { T with handler := pc } = T.view := by
  rw [view, view, h]
  rfl

lemma content_of {m : Member} (h : T.objects.find? p = some m) : T.content p = m := by
  rw [content, h]
  rfl

/-- The new member is not visible yet. -/
lemma Sound.view_insert (h : T.Sound) (hh : T.handler = .inserting rep)
    (hT' : T' = { T with
      members := T.members.insert rep.id T.next
      objects := T.objects.insert T.next (Member.new rep.id)
      next := T.next + 1
      handler := .writing rep T.next true }) : T'.view = T.view := by
  have hpend' : T'.handler.pending = some rep.id := by
    rw [hT']
    rfl
  have hmembers : T'.view.members = T.view.members := by
    refine OrdMap.ext_find? fun id => ?_
    have hpend : T.handler.pending ≠ some id := by
      rw [hh]
      exact (Option.some_ne_none id).symm
    rw [find?_view hpend]
    by_cases hid : rep.id = id
    · rw [find?_view_pending (hpend'.trans (congrArg some hid)), ← hid, h.inserting rep hh]
      rfl
    · rw [find?_view fun heq => hid (Option.some.inj (hpend'.symm.trans heq)), hT']
      dsimp only
      rw [OrdMap.find?_insert_of_ne (Ne.symm hid)]
      cases hq : T.members.find? id with
      | none => rfl
      | some q =>
        obtain ⟨m, hm, -⟩ := h.listed id q hq
        have hne : q ≠ T.next := (h.fresh q m hm).ne
        rw [Option.map_some, Option.map_some, content, content]
        dsimp only
        rw [OrdMap.find?_insert_of_ne hne]
  rw [hT'] at hmembers ⊢
  exact congrArg (fun ms => { T.view with members := ms }) hmembers

/-- The write makes the whole update visible. -/
lemma Steady.view_write (h : T.Steady) (hh : T.handler = .writing rep p isNew)
    (hT' : T' = { T with objects := T.write rep p, handler := .waiting }) :
    T.view.handle (.heard rep) = T'.view := by
  have hm := h.meets
  rw [hh] at hm
  have hidle : T.view.state ≠ .idle := of_decide_eq_false hm.1
  have hcond : T.view.count = rep.count ∨ T.view.state = .querying :=
    hm.2.imp of_decide_eq_true of_decide_eq_true
  obtain ⟨m, hobj⟩ := Option.ne_none_iff_exists'.mp (h.valid rep p isNew hh)
  obtain ⟨hid, hnew⟩ := (h.sound.writing rep p isNew hh).2 m hobj
  have hp : T.members.find? rep.id = some p := hid ▸ h.sound.reachable p m hobj
  -- only the entry that is written through the pointer differs
  have hmembers : (T.view.handle (.heard rep)).members = T'.view.members := by
    rw [Resource.handle, if_neg hidle, Resource.updateMember_eq hcond]
    refine OrdMap.ext_find? fun id => ?_
    have hpend' : T'.handler.pending ≠ some id := by
      rw [hT']
      exact (Option.some_ne_none id).symm
    rw [find?_view hpend', OrdMap.find?_insert, hT']
    dsimp only
    split_ifs with heq
    · -- the member itself
      have hold : (T.view.getMember rep.id).getD (Member.new rep.id) = m := by
        rw [Resource.getMember]
        cases isNew with
        | true =>
          rw [find?_view_pending (by rw [hh]; rfl), hnew rfl]
          rfl
        | false =>
          rw [find?_view (by rw [hh]; exact (Option.some_ne_none _).symm), hp]
          exact content_of hobj
      rw [hold, heq, hp, Option.map_some, content]
      dsimp only
      rw [find?_write, if_pos rfl, hobj]
      rfl
    · -- another member
      have hpend : T.handler.pending ≠ some id := by
        rw [hh]
        cases isNew with
        | true => exact fun hs => heq (Option.some.inj hs).symm
        | false => exact (Option.some_ne_none id).symm
      rw [find?_view hpend]
      cases hq : T.members.find? id with
      | none => rfl
      | some q =>
        obtain ⟨m', hm', hid'⟩ := h.sound.listed id q hq
        have hne : q ≠ p := by
          rintro rfl
          obtain rfl := Option.some.inj (hobj.symm.trans hm')
          exact heq (hid'.symm.trans hid)
        rw [Option.map_some, Option.map_some, content, content]
        dsimp only
        rw [find?_write, if_neg hne]
  rw [Resource.handle, if_neg hidle, Resource.updateMember_eq hcond] at hmembers ⊢
  rw [hT'] at hmembers ⊢
  exact congrArg (fun ms => { T.view with members := ms }) hmembers

/-- A step is the operation that takes place with it, or cannot be seen. -/
lemma view_step (h : T.Steady) (hu : T.Undisturbed e) (hs : T.step e = some T') :
    (T.takesPlace e).elim (T'.view = T.view) fun op => some (T.view.handle op) = some T'.view := by
  have hm := h.meets
  cases effect_step hs with
  | ignore rep hh hi =>
    rw [takesPlace, if_pos hi]
    exact congrArg some (if_pos hi)
  | accept rep hh hi =>
    rw [takesPlace, if_neg hi]
    exact view_move (by rw [hh]; rfl)
  | same rep hh | other rep hh | miss rep hh | missAgain rep hh =>
    rw [takesPlace, hh]
    exact view_move (by rw [hh]; rfl)
  | query rep hh hq =>
    simp only [takesPlace, hh, if_pos hq]
    exact view_move (by rw [hh]; rfl)
  | refuse rep hh hq =>
    rw [hh] at hm
    have hnot : ¬ (T.view.count = rep.count ∨ T.view.state = .querying) :=
      not_or.mpr ⟨of_decide_eq_false hm.2, hq⟩
    simp only [takesPlace, hh, if_neg hq]
    rw [view_move (by rw [hh]; rfl)]
    refine congrArg some ?_
    rw [Resource.handle, Resource.updateMember_of_not hnot, ite_self]
  | find rep p hh _ =>
    have hpend : T.handler.pending = none := by rcases hh with hh | hh <;> rw [hh] <;> rfl
    have hnone : T.takesPlace .handler = none := by
      rcases hh with hh | hh <;> rw [takesPlace, hh]
    rw [hnone]
    exact view_move hpend.symm
  | insert rep hh =>
    rw [takesPlace, hh]
    exact h.sound.view_insert hh rfl
  | write rep p isNew hh =>
    rw [takesPlace, hh]
    exact congrArg some (h.view_write hh rfl)
  | assign | setCount | reset => rfl
  | clear _ => exact congrArg some (congrArg (fun ms => { T.view with members := ms })
      (OrdMap.ext_find? fun id => by rw [OrdMap.find?_mapValues, OrdMap.find?_filterKeys]; simp))

/-- **Updates take place in one step unless a test changes meanwhile.**  In every interleaving in
which no step makes a test of the update that is under way come out differently, the resource is
at every moment the one on which the operations have been performed in one step each, in the order
in which they take place; the new member that is about to be written to is not counted.  All writes
then go to members that exist. -/
theorem updates_linearize {name : Name} {es : List Section} {ops : List MemberOp}
    (hrun : Lib.Run (Lib.tracedStep step takesPlace) (fun s e => s.1.Undisturbed e)
      (new name, []) es (T, ops)) :
    T.view = ops.foldl Resource.handle (Resource.new name) ∧ T.Valid ∧
      (T.handler = .waiting →
        ∀ id, T.view.getMember id = (T.members.find? id).bind T.objects.find?) := by
  have hnew : (new name).Steady :=
    ⟨sound_new name, fun _ _ _ h => (by cases h), trivial, fun h => (by cases h)⟩
  have hstep : ∀ T e T', T.Steady → T.Undisturbed e → step T e = some T' → T'.Steady :=
    fun _ _ _ h hu hs => steady_step h hu hs
  have hsteady : T.Steady := hrun.of_traced.invariant hstep hnew
  have hview : ops.foldlM (fun R op => some (Resource.handle R op)) (Resource.new name) =
      some T.view :=
    hrun.view_eq hstep (fun _ _ _ h hu hs => view_step h hu hs) hnew rfl
  refine ⟨?_, hsteady.valid, fun hh id => ?_⟩
  · exact Option.some.inj (hview.symm.trans List.foldlM_pure)
  · rw [Resource.getMember, find?_view (by rw [hh]; exact (Option.some_ne_none id).symm)]
    cases hp : T.members.find? id with
    | none => rfl
    | some p =>
      obtain ⟨m, hm, -⟩ := hsteady.sound.listed id p hp
      rw [Option.map_some, Option.bind_some, content_of hm, hm]

/-- The beacon of a holder arrives while the resource becomes `ACQUIRING`. -/
def undisturbedUpdate : List Section :=
  [.assign .starting, .packet ⟨2, .acquired, 1⟩, .handler, .handler, .assign .acquiring, .handler,
    .handler, .handler]

/-- The update takes place behind the assignment. -/
theorem updates_linearize_acquiring : ∃ T,
    Lib.Run (Lib.tracedStep step takesPlace) (fun s e => s.1.Undisturbed e)
      (new [97], []) undisturbedUpdate
      (T, [.assign .starting, .assign .acquiring, .heard ⟨2, .acquired, 1⟩]) ∧
    T.view.state = .acquiring ∧ T.view.getMember 2 = some ⟨2, 1, .acquired⟩ := by
  have hexec : (Lib.exec (Lib.tracedStep step takesPlace) (fun s e => s.1.Undisturbed e)
      (new [97], []) undisturbedUpdate).map (fun s => s.2) =
        some [.assign .starting, .assign .acquiring, .heard ⟨2, .acquired, 1⟩] := by decide
  obtain ⟨⟨T, ops⟩, hT, rfl⟩ := Option.map_eq_some_iff.mp hexec
  have hrun := Lib.Run.of_exec hT
  obtain ⟨hview, -⟩ := updates_linearize hrun
  refine ⟨T, hrun, ?_⟩
  rw [hview]
  decide

end MemberTable
end DistLock
