/-
The communication handler that the instances of one process share: `getCommHandlerInstance`
with the static variables `s_ch` and `s_ch_count`, and the constructor and the destructor of
`DistributedLock`.

Objects are named by numbers: an instance by an arbitrary one, a handler by its position among
the handlers that have been created.  `s_ch_count` counts the instances, so that a
`std::atomic<int>` holds it as long as there are fewer than `2 ^ 31` of them
(`Process.count_fits`).  The resources of an instance do not matter here.
-/
import Mathlib.Algebra.Group.Nat.Even
import Mathlib.Data.Finset.Card
import DistLock.Lib.Run

namespace DistLock

open Lib (Run)

/-- A `CommHandler`: the listeners of its packets, and how often it has been deleted. -/
structure CommHandler where
  alList : List ℕ
  deletions : ℕ
  deriving DecidableEq

namespace CommHandler

/-- `CommHandler(std::string bcast_addr, int port)`, when no exception is thrown. -/
def new : CommHandler where
  alList := []
  deletions := 0

/-- `Observable::addActionListener`. -/
def addActionListener (H : CommHandler) (dl : ℕ) : CommHandler :=
  { H with alList := H.alList ++ [dl] }

/-- `Observable::removeActionListener`: the first occurrence is erased. -/
def removeActionListener (H : CommHandler) (dl : ℕ) : CommHandler :=
  { H with alList := H.alList.erase dl }

/-- `~CommHandler`: `stop` removes all listeners. -/
def delete (H : CommHandler) : CommHandler where
  alList := []
  deletions := H.deletions + 1

end CommHandler

/-- What the instances of a process share, and the field `ch` of each of them. -/
structure Process where
  sCh : Option ℕ
  sChCount : ℤ
  handlers : List CommHandler
  insts : Finset ℕ
  ch : ℕ → ℕ

/-- The creation or the deletion of one instance; `opens` tells whether the constructor of a new
handler returns or throws. -/
inductive InstEvent
  | construct (dl : ℕ) (opens : Bool)
  | destroy (dl : ℕ)
  deriving DecidableEq

namespace Process

/-- The static variables when the process starts. -/
def start : Process where
  sCh := none
  sChCount := 0
  handlers := []
  insts := ∅
  ch := fun _ => 0

/-- An operation on the object of a handler. -/
def modify (P : Process) (h : ℕ) (f : CommHandler → CommHandler) : Process :=
  { P with handlers := P.handlers.modify h f }

/-- `DistributedLock::getCommHandlerInstance`; `none` is the exception. -/
def getCommHandlerInstance (P : Process) (opens : Bool) : Option (Process × ℕ) :=
  match P.sCh with
  | some h => some ({ P with sChCount := P.sChCount + 1 }, h)
  | none =>
    if opens then
      some ({ P with
        sCh := some P.handlers.length
        handlers := P.handlers ++ [CommHandler.new]
        sChCount := P.sChCount + 1 }, P.handlers.length)
    else none

/-- `DistributedLock::DistributedLock`: an exception leaves no instance. -/
def construct (P : Process) (dl : ℕ) (opens : Bool) : Process :=
  match P.getCommHandlerInstance opens with
  | none => P
  | some (P, h) =>
    { P.modify h (·.addActionListener dl) with
      insts := insert dl P.insts
      ch := Function.update P.ch dl h }

/-- `this->ch->removeActionListener(this)`. -/
def removeListener (P : Process) (dl : ℕ) : Process :=
  P.modify (P.ch dl) (·.removeActionListener dl)

/-- `DistributedLock::s_ch_count--`. -/
def decrement (P : Process) : Process := { P with sChCount := P.sChCount - 1 }

/-- `delete(this->ch)`. -/
def deleteHandler (P : Process) (dl : ℕ) : Process := P.modify (P.ch dl) (·.delete)

/-- `DistributedLock::~DistributedLock`, run without interruption. -/
def destroy (P : Process) (dl : ℕ) : Process :=
  let P := (P.removeListener dl).decrement
  let P := if P.sChCount = 0 then P.deleteHandler dl else P
  { P with insts := P.insts.erase dl }

/-- One step of a process in which instances are made and deleted one after the other. -/
def step (P : Process) : InstEvent → Option Process
  | .construct dl opens => if dl ∈ P.insts then none else some (P.construct dl opens)
  | .destroy dl => if dl ∈ P.insts then some (P.destroy dl) else none

/-- The handler has been created and not yet deleted. -/
def Alive (P : Process) (h : ℕ) : Prop := ∃ H ∈ P.handlers[h]?, H.deletions = 0

instance (P : Process) (h : ℕ) : Decidable (P.Alive h) :=
  decidable_of_iff ((P.handlers[h]?).any (·.deletions = 0) = true)
    (by simp [Alive, Option.any_eq_true])

/-- Every instance has a handler that is alive, and `s_ch_count` is the number of instances. -/
structure Sound (P : Process) : Prop where
  alive : ∀ dl ∈ P.insts, P.Alive (P.ch dl)
  count : P.sChCount = P.insts.card

/-- `getCommHandlerInstance` does not hand out a handler that has been deleted. -/
def HandsOutAlive (P : Process) : InstEvent → Prop
  | .construct _ opens =>
    ∀ P' h, P.getCommHandlerInstance opens = some (P', h) → P'.Alive h
  | .destroy _ => True

/-- An instance is made although there is none and `s_ch` is already set. -/
def Regrows (P : Process) : InstEvent → Prop
  | .construct _ _ => P.insts = ∅ ∧ P.sCh ≠ none
  | .destroy _ => False

instance (P : Process) (e : InstEvent) : Decidable (P.Regrows e) :=
  match e with
  | .construct _ _ => inferInstanceAs (Decidable (P.insts = ∅ ∧ P.sCh ≠ none))
  | .destroy _ => inferInstanceAs (Decidable False)

/-! ### What the operations do -/

section modify

variable {P : Process} {h j : ℕ} {f : CommHandler → CommHandler}

@[simp] lemma modify_sCh : (P.modify h f).sCh = P.sCh := rfl

@[simp] lemma modify_sChCount : (P.modify h f).sChCount = P.sChCount := rfl

@[simp] lemma modify_insts : (P.modify h f).insts = P.insts := rfl

@[simp] lemma modify_ch : (P.modify h f).ch = P.ch := rfl

lemma getElem?_modify :
    (P.modify h f).handlers[j]? = if h = j then (P.handlers[j]?).map f else P.handlers[j]? := by
  show (P.handlers.modify h f)[j]? = _
  rw [List.getElem?_modify]
  split_ifs <;> simp

/-- Only `delete` makes a difference to the lifetime of a handler. -/
lemma alive_modify (hf : ∀ H, (f H).deletions = H.deletions) :
    (P.modify h f).Alive j ↔ P.Alive j := by
  rw [Alive, Alive, getElem?_modify]
  split_ifs with hj
  · simp [hf]
  · rfl

end modify

section operations

variable {P P' Q : Process} {dl dl' h : ℕ} {opens : Bool} {e : InstEvent}

/-- The handler that is handed out is the one in `s_ch`, which may just have been created. -/
lemma getCommHandlerInstance_inv (hg : P.getCommHandlerInstance opens = some (Q, h)) :
    Q.sCh = some h ∧ Q.sChCount = P.sChCount + 1 ∧ Q.insts = P.insts ∧ Q.ch = P.ch ∧
      (P.sCh = some h ∧ Q.handlers = P.handlers ∨
        P.sCh = none ∧ h = P.handlers.length ∧ Q.handlers = P.handlers ++ [CommHandler.new]) := by
  rw [getCommHandlerInstance] at hg
  split at hg
  · next h' hs =>
    obtain ⟨rfl, rfl⟩ := Prod.mk.inj (Option.some.inj hg)
    exact ⟨hs, rfl, rfl, rfl, .inl ⟨hs, rfl⟩⟩
  · next hs =>
    split at hg
    · obtain ⟨rfl, rfl⟩ := Prod.mk.inj (Option.some.inj hg)
      exact ⟨rfl, rfl, rfl, rfl, .inr ⟨hs, rfl, rfl⟩⟩
    · cases hg

/-- A new handler is alive. -/
lemma alive_of_new (hQ : Q.handlers = P.handlers ++ [CommHandler.new]) :
    Q.Alive P.handlers.length := by
  refine ⟨CommHandler.new, ?_, rfl⟩
  rw [hQ]
  simp

/-- The constructor either throws and changes nothing, or registers the new instance. -/
lemma construct_cases (P : Process) (dl : ℕ) (opens : Bool) :
    P.sCh = none ∧ P.construct dl opens = P ∨
      ∃ Q h, P.getCommHandlerInstance opens = some (Q, h) ∧
        P.construct dl opens = { Q.modify h (·.addActionListener dl) with
          insts := insert dl Q.insts
          ch := Function.update Q.ch dl h } := by
  rw [construct]
  cases hg : P.getCommHandlerInstance opens with
  | none =>
    refine .inl ⟨?_, rfl⟩
    rw [getCommHandlerInstance] at hg
    split at hg
    · cases hg
    · assumption
  | some r => exact .inr ⟨r.1, r.2, rfl, rfl⟩

/-- The destructor in terms of the number of instances that are left. -/
lemma destroy_eq (P : Process) (dl : ℕ) :
    P.destroy dl =
      if P.sChCount = 1 then
        { (P.removeListener dl).decrement.deleteHandler dl with insts := P.insts.erase dl }
      else { (P.removeListener dl).decrement with insts := P.insts.erase dl } := by
  have hcount : (P.removeListener dl).decrement.sChCount = 0 ↔ P.sChCount = 1 := by
    show P.sChCount - 1 = 0 ↔ _
    omega
  simp only [destroy, hcount]
  split_ifs <;> rfl

end operations

/-! ### The invariant -/

/-- What holds after any sequence of constructions and destructions: `s_ch_count` is right, all
instances use the handler in `s_ch`, and that handler has been deleted once there is no
instance. -/
structure Consistent (P : Process) : Prop where
  count : P.sChCount = P.insts.card
  ch_eq : ∀ dl ∈ P.insts, P.sCh = some (P.ch dl)
  dead : P.insts = ∅ → ∀ h, P.sCh = some h → ¬ P.Alive h

lemma Consistent.start : Process.start.Consistent where
  count := rfl
  ch_eq := fun _ hdl => absurd hdl (Finset.notMem_empty _)
  dead := fun _ _ hh => by cases hh

section invariant

variable {P P' : Process} {dl : ℕ} {opens : Bool} {e : InstEvent}

lemma Consistent.construct (hP : P.Consistent) (hdl : dl ∉ P.insts) :
    (P.construct dl opens).Consistent := by
  obtain ⟨-, heq⟩ | ⟨Q, h, hg, heq⟩ := P.construct_cases dl opens
  · rwa [heq]
  · obtain ⟨hsCh, hcount, hinsts, hch, hcase⟩ := getCommHandlerInstance_inv hg
    rw [heq]
    refine ⟨?_, fun dl' hdl' => ?_, fun hempty => ?_⟩
    · show Q.sChCount = ((insert dl Q.insts).card : ℤ)
      rw [hinsts, Finset.card_insert_of_notMem hdl, hcount, hP.count]
      omega
    · show Q.sCh = some (Function.update Q.ch dl h dl')
      rw [hsCh]
      by_cases hne : dl' = dl
      · rw [hne, Function.update_self]
      · have hmem : dl' ∈ P.insts := by
          rw [← hinsts]
          exact Finset.mem_of_mem_insert_of_ne hdl' hne
        have hsome := hP.ch_eq dl' hmem
        rw [Function.update_of_ne hne, hch]
        -- an instance exists already, so no handler has been created now
        obtain ⟨hs, -⟩ | ⟨hs, -⟩ := hcase
        · rw [← hs, hsome]
        · rw [hs] at hsome
          cases hsome
    · exact absurd hempty (Finset.insert_ne_empty dl Q.insts)

lemma Consistent.destroy (hP : P.Consistent) (hdl : dl ∈ P.insts) :
    (P.destroy dl).Consistent := by
  have hcard : (P.insts.erase dl).card + 1 = P.insts.card := Finset.card_erase_add_one hdl
  have hcount := hP.count
  have hch : ∀ dl' ∈ P.insts.erase dl, P.sCh = some (P.ch dl') := fun dl' hdl' =>
    hP.ch_eq dl' (Finset.mem_of_mem_erase hdl')
  have hleft : ((P.removeListener dl).decrement.sChCount : ℤ) = (P.insts.erase dl).card := by
    show P.sChCount - 1 = _
    omega
  rw [destroy_eq]
  split_ifs with h1
  · refine ⟨hleft, hch, fun _ h hh => ?_⟩
    obtain rfl : P.ch dl = h := Option.some.inj ((hP.ch_eq dl hdl).symm.trans hh)
    rintro ⟨H, hH, hdel⟩
    change ((P.removeListener dl).decrement.modify (P.ch dl) (·.delete)).handlers[P.ch dl]? =
      some H at hH
    rw [getElem?_modify, if_pos rfl] at hH
    obtain ⟨H', -, rfl⟩ := Option.map_eq_some_iff.mp hH
    exact Nat.succ_ne_zero _ hdel
  · refine ⟨hleft, hch, fun hempty => ?_⟩
    change P.insts.erase dl = ∅ at hempty
    rw [hempty, Finset.card_empty] at hcard
    omega

lemma Consistent.step (hP : P.Consistent) (hs : P.step e = some P') : P'.Consistent := by
  cases e with
  | construct dl opens =>
    rw [Process.step] at hs
    split_ifs at hs with hdl
    obtain rfl := Option.some.inj hs
    exact hP.construct hdl
  | destroy dl =>
    rw [Process.step] at hs
    split_ifs at hs with hdl
    obtain rfl := Option.some.inj hs
    exact hP.destroy hdl

end invariant

/-- `s_ch_count` does not overflow with fewer than `2 ^ 31` instances. -/
theorem count_fits {P : Process} {es : List InstEvent}
    (h : Run step (fun _ _ => True) start es P) (hfew : P.insts.card < 2 ^ 31) :
    (Int32.ofInt P.sChCount).toInt = P.sChCount := by
  have hP : P.Consistent :=
    h.invariant (I := Consistent) (fun _ _ _ hP _ hs => hP.step hs) Consistent.start
  rw [Int32.toInt_ofInt, hP.count]
  have hsize : (Int32.size : ℤ) = 4294967296 := rfl
  exact Int.bmod_eq_of_le_mul_two (by omega) (by omega)

/-! ### When the shared handler is alive -/

section sound

variable {P P' Q : Process} {dl h : ℕ} {opens : Bool} {e : InstEvent} {es : List InstEvent}

/-- What is handed out is alive unless the last instance has gone. -/
lemma alive_handed_iff (hP : P.Consistent) (hS : P.Sound)
    (hg : P.getCommHandlerInstance opens = some (Q, h)) :
    Q.Alive h ↔ ¬ (P.insts = ∅ ∧ P.sCh ≠ none) := by
  obtain ⟨-, -, -, -, ⟨hs, hhs⟩ | ⟨hs, rfl, hhs⟩⟩ := getCommHandlerInstance_inv hg
  · have hsame : Q.Alive h ↔ P.Alive h := by rw [Alive, Alive, hhs]
    rw [hsame]
    constructor
    · rintro halive ⟨hempty, -⟩
      exact hP.dead hempty h hs halive
    · intro hnot
      have hne : P.insts ≠ ∅ := fun hempty => hnot ⟨hempty, by simp [hs]⟩
      obtain ⟨dl, hdl⟩ := Finset.nonempty_iff_ne_empty.mpr hne
      -- the handler is the one of some instance that exists
      obtain rfl : P.ch dl = h := Option.some.inj ((hP.ch_eq dl hdl).symm.trans hs)
      exact hS.alive dl hdl
  · exact ⟨fun _ hc => hc.2 hs, fun _ => alive_of_new hhs⟩

lemma sound_construct_iff (hP : P.Consistent) (hS : P.Sound) (hdl : dl ∉ P.insts) :
    (P.construct dl opens).Sound ↔ ¬ (P.insts = ∅ ∧ P.sCh ≠ none) := by
  have hcons : (P.construct dl opens).Consistent := hP.construct hdl
  obtain ⟨hs, heq⟩ | ⟨Q, h, hg, heq⟩ := P.construct_cases dl opens
  · rw [heq]
    exact ⟨fun _ hc => hc.2 hs, fun _ => hS⟩
  · rw [← alive_handed_iff hP hS hg]
    have halive : ∀ j, (P.construct dl opens).Alive j ↔ Q.Alive j := by
      intro j
      rw [heq]
      exact alive_modify fun _ => rfl
    have hself : (P.construct dl opens).ch dl = h := by
      rw [heq]
      exact Function.update_self dl h Q.ch
    have hmem : dl ∈ (P.construct dl opens).insts := by
      rw [heq]
      exact Finset.mem_insert_self dl Q.insts
    constructor
    · intro hS'
      have hdl' := hS'.alive dl hmem
      rwa [halive, hself] at hdl'
    · intro hh
      refine ⟨fun dl' hdl' => ?_, hcons.count⟩
      -- all instances share the handler of the new one
      have hch := (hcons.ch_eq dl' hdl').symm.trans (hcons.ch_eq dl hmem)
      rw [Option.some.inj hch, hself, halive]
      exact hh

/-- As long as an instance is left, the destructor does not delete the handler. -/
lemma sound_destroy (hP : P.Consistent) (hS : P.Sound) (hdl : dl ∈ P.insts) :
    (P.destroy dl).Sound := by
  refine ⟨fun dl' hdl' => ?_, (hP.destroy hdl).count⟩
  have hcard : (P.insts.erase dl).card + 1 = P.insts.card := Finset.card_erase_add_one hdl
  have hcount := hP.count
  rw [destroy_eq] at hdl' ⊢
  split_ifs at hdl' ⊢ with h1
  · change dl' ∈ P.insts.erase dl at hdl'
    have hpos := Finset.card_pos.mpr ⟨dl', hdl'⟩
    omega
  · have halive := hS.alive dl' (Finset.mem_of_mem_erase hdl')
    have hremove : (P.removeListener dl).Alive (P.ch dl') :=
      (alive_modify (f := (·.removeActionListener dl)) fun _ => rfl).mpr halive
    exact hremove

lemma sound_step_iff (hP : P.Consistent) (hS : P.Sound) (hs : P.step e = some P') :
    P'.Sound ↔ ¬ P.Regrows e := by
  cases e with
  | construct dl opens =>
    rw [step] at hs
    split_ifs at hs with hdl
    obtain rfl := Option.some.inj hs
    exact sound_construct_iff hP hS hdl
  | destroy dl =>
    rw [step] at hs
    split_ifs at hs with hdl
    obtain rfl := Option.some.inj hs
    exact iff_of_true (sound_destroy hP hS hdl) (fun h => h)

/-- **The shared handler is alive.**  In every sequence of constructions and destructions, all
instances have a handler that is alive, `s_ch_count` is their number and no deleted handler is
handed out, if and only if no instance is made after the last one has gone. -/
theorem handler_alive_iff (h : Run step (fun _ _ => True) start es P) :
    ((∀ es₁ P₁, es₁ <+: es → Run step (fun _ _ => True) start es₁ P₁ → P₁.Sound) ∧
        Run step HandsOutAlive start es P) ↔
      Run step (fun P e => ¬ P.Regrows e) start es P := by
  have hinv : ∀ (P : Process) e P', P.Consistent → True → P.step e = some P' → P'.Consistent :=
    fun _ _ _ hP _ hs => hP.step hs
  have hstart : start.Sound := ⟨fun _ hdl => absurd hdl (Finset.notMem_empty _), rfl⟩
  have hiff := Run.forall_prefix_iff hinv
    (fun P e P' hP hS _ hs => sound_step_iff hP hS hs) h Consistent.start hstart
  constructor
  · intro hall
    exact (hiff.mp hall.1).mono fun _ _ hc => hc.2
  · intro hrun
    refine ⟨hiff.mpr (hrun.mono fun _ _ hc => ⟨trivial, hc⟩), ?_⟩
    have hboth : ∀ (P : Process) e P', P.Consistent ∧ P.Sound → ¬ P.Regrows e →
        P.step e = some P' → P'.Consistent ∧ P'.Sound := fun _ _ _ hP hc hs =>
      ⟨hP.1.step hs, (sound_step_iff hP.1 hP.2 hs).mpr hc⟩
    refine (hrun.guard_invariant hboth ⟨Consistent.start, hstart⟩).mono ?_
    rintro P e ⟨hc, hP, hS⟩
    cases e with
    | construct dl opens => exact fun Q h hg => (alive_handed_iff hP hS hg).mpr hc
    | destroy dl => trivial

/-- Two instances at the same time. -/
theorem handler_alive_two :
    ∃ P, (∀ es₁ P₁, es₁ <+: [.construct 1 true, .construct 2 true, .destroy 1] →
        Run step (fun _ _ => True) start es₁ P₁ → P₁.Sound) ∧
      Run step HandsOutAlive start [.construct 1 true, .construct 2 true, .destroy 1] P := by
  have hrun : ∃ P, Run step (fun P e => ¬ P.Regrows e) start
      [.construct 1 true, .construct 2 true, .destroy 1] P := ⟨_, Run.of_exec rfl⟩
  obtain ⟨P, hrun⟩ := hrun
  exact ⟨P, (handler_alive_iff (hrun.mono fun _ _ _ => trivial)).mpr hrun⟩

/-- An instance that is made after the last one has gone is handed the deleted handler. -/
theorem handler_dangling :
    ∃ P P', Run step (fun _ _ => True) start [.construct 1 true, .destroy 1] P ∧
      P.step (.construct 2 true) = some P' ∧ ¬ P.HandsOutAlive (.construct 2 true) ∧
        ¬ P'.Sound := by
  refine ⟨_, _, Run.of_exec rfl, rfl, fun hh => ?_, fun hS => ?_⟩
  · exact absurd (hh _ _ rfl) (by decide)
  · exact absurd (hS.alive 2 (by decide)) (by decide)

end sound

end Process
end DistLock
