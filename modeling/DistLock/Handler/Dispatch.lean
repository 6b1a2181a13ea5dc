/-
One event on its way to the listeners of a handler (`Observable.h`).

`_actionPerformed` walks `al_list` by an index of 32 bits, one listener at a time, while other
threads add listeners at the end and erase them wherever they stand.  A listener that is
registered once all the time receives the event exactly once, unless a listener in front of the
index is erased when the index points at it: then everything moves up and the index passes it
(`received_once_iff`).
-/
import DistLock.Handler.Shared
import Mathlib.Data.List.Count

namespace DistLock

open Lib (Run)

/-- A dispatch in `Observable::_actionPerformed`: the handler, the loop variable, who has received
the event so far, and whether the loop has ended. -/
structure Dispatch where
  handler : CommHandler
  i : UInt32
  received : List ℕ
  ended : Bool
  deriving DecidableEq

/-- One turn of the loop, or a call by another thread. -/
inductive DispatchEvent
  | turn
  | add (al : ℕ)
  | remove (al : ℕ)
  deriving DecidableEq

namespace Dispatch

/-- The event is about to be dispatched. -/
def start (H : CommHandler) : Dispatch where
  handler := H
  i := 0
  received := []
  ended := false

/-- One turn of the loop of `_actionPerformed`. -/
def turn (D : Dispatch) : Dispatch :=
  if h : D.i.toNat < D.handler.alList.length then
    { D with received := D.received ++ [D.handler.alList[D.i.toNat]], i := D.i + 1 }
  else { D with ended := true }

/-- What an event does. -/
def act (D : Dispatch) : DispatchEvent → Dispatch
  | .turn => D.turn
  | .add al => { D with handler := D.handler.addActionListener al }
  | .remove al => { D with handler := D.handler.removeActionListener al }

/-- A step until the end of the dispatch. -/
def step (D : Dispatch) (e : DispatchEvent) : Option Dispatch :=
  if D.ended then none else some (D.act e)

/-- The index does not wrap: it is below `2 ^ 32 - 1` when a listener is called. -/
def NoWrap (D : Dispatch) : DispatchEvent → Prop
  | .turn => D.i.toNat < D.handler.alList.length → D.i.toNat + 1 < 2 ^ 32
  | .add _ | .remove _ => True

/-- The listener `al` stands at the index, and a listener in front of it is erased. -/
def Skips (al : ℕ) (D : Dispatch) : DispatchEvent → Prop
  | .remove al' =>
    al' ∈ D.handler.alList.take D.i.toNat ∧ D.handler.alList[D.i.toNat]? = some al
  | .turn | .add _ => False

/-- The listener is registered exactly once, from the state `D` on and all along the events. -/
def Stays (D : Dispatch) (es : List DispatchEvent) (al : ℕ) : Prop :=
  ∀ es₁ D₁, es₁ <+: es → Run step NoWrap D es₁ D₁ → D₁.handler.alList.count al = 1

/-! ### Where a listener stands -/

/-- `al` is registered once, after `front`, and has received the event `n` times. -/
structure StandsAt (al : ℕ) (n : ℕ) (D : Dispatch) (front back : List ℕ) : Prop where
  eq : D.handler.alList = front ++ al :: back
  front : al ∉ front
  back : al ∉ back
  received : D.received.count al = n

/-- The index has yet to come to `al`. -/
def Pending (al : ℕ) (D : Dispatch) : Prop :=
  ∃ front back, D.StandsAt al 0 front back ∧ D.i.toNat ≤ front.length

/-- The index has passed `al`, which has received the event `n` times. -/
def Passed (al n : ℕ) (D : Dispatch) : Prop :=
  ∃ front back, D.StandsAt al n front back ∧ front.length < D.i.toNat

variable {D D' : Dispatch} {al n : ℕ} {e : DispatchEvent} {es : List DispatchEvent}
  {front back : List ℕ}

lemma step_inv (hs : D.step e = some D') : D.ended = false ∧ D' = D.act e := by
  rw [step] at hs
  split_ifs at hs with hended
  exact ⟨by simpa using hended, (Option.some.inj hs).symm⟩

lemma stays_nil : D.Stays [] al ↔ D.handler.alList.count al = 1 := by
  refine ⟨fun h => h [] D List.prefix_rfl (.nil D), fun h es₁ D₁ hes hrun => ?_⟩
  obtain rfl := List.prefix_nil.mp hes
  cases hrun
  exact h

lemma stays_cons (hwrap : D.NoWrap e) (hs : D.step e = some D') :
    D.Stays (e :: es) al ↔ D.handler.alList.count al = 1 ∧ D'.Stays es al :=
  Run.forall_prefix_cons hwrap hs

/-- A listener that stays is there. -/
lemma Stays.count_eq (h : D.Stays es al) : D.handler.alList.count al = 1 :=
  h [] D List.nil_prefix (.nil D)

lemma exists_split {l : List ℕ} (h : l.count al = 1) :
    ∃ front back, l = front ++ al :: back ∧ al ∉ front ∧ al ∉ back := by
  have hmem : al ∈ l := List.count_pos_iff.mp (by omega)
  obtain ⟨front, back, rfl⟩ := List.append_of_mem hmem
  rw [List.count_append, List.count_cons_self] at h
  exact ⟨front, back, rfl, List.count_eq_zero.mp (by omega), List.count_eq_zero.mp (by omega)⟩

lemma pending_start {H : CommHandler} (h : H.alList.count al = 1) : (start H).Pending al := by
  obtain ⟨front, back, hl, hfront, hback⟩ := exists_split h
  exact ⟨front, back, ⟨hl, hfront, hback, rfl⟩, Nat.zero_le _⟩

/-- The listeners that are added stand behind. -/
lemma StandsAt.add (h : D.StandsAt al n front back) {al' : ℕ} (hne : al' ≠ al) :
    (D.act (.add al')).StandsAt al n front (back ++ [al']) where
  eq := by
    show D.handler.alList ++ [al'] = _
    rw [h.eq, List.append_assoc, List.cons_append]
  front := h.front
  back := by simp [h.back, hne.symm]
  received := h.received

/-- An erased listener leaves the front or the back. -/
lemma StandsAt.remove (h : D.StandsAt al n front back) {al' : ℕ} (hne : al' ≠ al) :
    al' ∈ front ∧ (D.act (.remove al')).StandsAt al n (front.erase al') back ∨
      al' ∉ front ∧ (D.act (.remove al')).StandsAt al n front (back.erase al') := by
  by_cases hmem : al' ∈ front
  · refine .inl ⟨hmem, ?_, fun hal => h.front (List.mem_of_mem_erase hal), h.back, h.received⟩
    show D.handler.alList.erase al' = _
    rw [h.eq, List.erase_append_left _ hmem]
  · refine .inr ⟨hmem, ?_, h.front, fun hal => h.back (List.mem_of_mem_erase hal), h.received⟩
    show D.handler.alList.erase al' = _
    rw [h.eq, List.erase_append_right _ hmem, List.erase_cons_tail (by simpa using hne.symm)]

/-- While `al` is registered once, only other listeners are added and removed. -/
lemma StandsAt.ne_of_count (h : D.StandsAt al n front back)
    (hcount : (D.act e).handler.alList.count al = 1) : e ≠ .add al ∧ e ≠ .remove al := by
  have hone : D.handler.alList.count al = 1 := by
    rw [h.eq, List.count_append, List.count_cons_self, List.count_eq_zero.mpr h.front,
      List.count_eq_zero.mpr h.back]
  constructor
  · rintro rfl
    change (D.handler.alList ++ [al]).count al = 1 at hcount
    rw [List.count_append, hone, List.count_singleton_self] at hcount
    omega
  · rintro rfl
    change (D.handler.alList.erase al).count al = 1 at hcount
    rw [List.count_erase_self, hone] at hcount
    omega

/-! ### One step -/

/-- The listener at the index is `al` exactly when nothing but its front is behind the index. -/
lemma StandsAt.getElem?_eq_iff (h : D.StandsAt al n front back) :
    D.handler.alList[D.i.toNat]? = some al ↔ D.i.toNat = front.length := by
  rw [h.eq]
  rcases lt_trichotomy D.i.toNat front.length with hlt | heq | hgt
  · rw [List.getElem?_append_left hlt]
    refine iff_of_false (fun hsome => ?_) hlt.ne
    exact h.front (List.mem_of_getElem? hsome)
  · rw [heq]
    exact iff_of_true (by simp) rfl
  · obtain ⟨k, hk⟩ := Nat.exists_eq_add_of_lt hgt
    rw [hk, List.getElem?_append_right (by omega)]
    refine iff_of_false (fun hsome => ?_) (by omega)
    rw [show front.length + k + 1 - front.length = k + 1 by omega, List.getElem?_cons_succ] at hsome
    exact h.back (List.mem_of_getElem? hsome)

lemma turn_of_lt (hi : D.i.toNat < D.handler.alList.length) :
    D.turn = { D with
      received := D.received ++ [D.handler.alList[D.i.toNat]]
      i := D.i + 1 } :=
  dif_pos hi

lemma turn_of_le (hi : D.handler.alList.length ≤ D.i.toNat) : D.turn = { D with ended := true } :=
  dif_neg (not_lt.mpr hi)

/-- A turn calls the listener at the index. -/
lemma StandsAt.turn (h : D.StandsAt al n front back) (hwrap : D.NoWrap .turn) :
    (D.turn).StandsAt al (n + if D.i.toNat = front.length then 1 else 0) front back ∧
      (D.turn.i.toNat = D.i.toNat + 1 ∨ D.turn.i = D.i ∧ front.length < D.i.toNat) := by
  have hiff := h.getElem?_eq_iff
  have hlen : D.handler.alList.length = front.length + (back.length + 1) := by
    rw [h.eq, List.length_append, List.length_cons]
  rcases Nat.lt_or_ge D.i.toNat D.handler.alList.length with hi | hi
  · rw [List.getElem?_eq_getElem hi, Option.some_inj] at hiff
    rw [turn_of_lt hi]
    refine ⟨⟨h.eq, h.front, h.back, ?_⟩, .inl (BitVec.toNat_add_of_lt (hwrap hi))⟩
    rw [List.count_append, h.received, List.count_singleton]
    simp only [beq_iff_eq, hiff]
  · rw [turn_of_le hi, if_neg (by omega)]
    exact ⟨⟨h.eq, h.front, h.back, h.received⟩, .inr ⟨rfl, by omega⟩⟩

/-- The index does not come back to a listener that it has passed. -/
lemma passed_act (h : D.Passed al n) (hwrap : D.NoWrap e)
    (hcount : (D.act e).handler.alList.count al = 1) :
    (D.act e).Passed al n ∧ ¬ Skips al D e := by
  obtain ⟨front, back, hat, hlt⟩ := h
  obtain ⟨hadd, hremove⟩ := hat.ne_of_count hcount
  cases e with
  | turn =>
    obtain ⟨hturn, hi⟩ := hat.turn hwrap
    rw [if_neg hlt.ne', Nat.add_zero] at hturn
    refine ⟨⟨front, back, hturn, ?_⟩, id⟩
    show front.length < D.turn.i.toNat
    rcases hi with hi | ⟨hi, -⟩
    · omega
    · rwa [hi]
  | add al' => exact ⟨⟨front, _, hat.add fun hal => hadd (hal ▸ rfl), hlt⟩, id⟩
  | remove al' =>
    refine ⟨?_, fun hskip => hlt.ne' (hat.getElem?_eq_iff.mp hskip.2)⟩
    rcases hat.remove fun hal => hremove (hal ▸ rfl) with ⟨-, hat'⟩ | ⟨-, hat'⟩
    · exact ⟨_, back, hat', lt_of_le_of_lt (List.length_erase_le ..) hlt⟩
    · exact ⟨front, _, hat', hlt⟩

/-- The index passes a listener without calling it exactly when it is skipped. -/
lemma pending_act (h : D.Pending al) (hwrap : D.NoWrap e)
    (hcount : (D.act e).handler.alList.count al = 1) :
    Skips al D e ∧ (D.act e).Passed al 0 ∨
      ¬ Skips al D e ∧ ((D.act e).Pending al ∨ (D.act e).Passed al 1) := by
  obtain ⟨front, back, hat, hle⟩ := h
  obtain ⟨hadd, hremove⟩ := hat.ne_of_count hcount
  cases e with
  | turn =>
    obtain ⟨hturn, hi | ⟨-, hlt⟩⟩ := hat.turn hwrap
    · refine .inr ⟨id, ?_⟩
      split_ifs at hturn with heq
      · exact .inr ⟨front, back, hturn, by change _ < D.turn.i.toNat; omega⟩
      · exact .inl ⟨front, back, hturn, by change D.turn.i.toNat ≤ _; omega⟩
    · omega
  | add al' => exact .inr ⟨id, .inl ⟨front, _, hat.add fun hal => hadd (hal ▸ rfl), hle⟩⟩
  | remove al' =>
    -- the listeners in front of the index stand in front of `al`
    have htake : D.handler.alList.take D.i.toNat = front.take D.i.toNat := by
      rw [hat.eq, List.take_append_of_le_length hle]
    rcases hat.remove fun hal => hremove (hal ▸ rfl) with ⟨hmem, hat'⟩ | ⟨hmem, hat'⟩
    · have hlen : (front.erase al').length = front.length - 1 := List.length_erase_of_mem hmem
      have hpos : 0 < front.length := List.length_pos_of_mem hmem
      by_cases heq : D.i.toNat = front.length
      · refine .inl ⟨⟨?_, hat.getElem?_eq_iff.mpr heq⟩, _, back, hat', ?_⟩
        · rwa [htake, heq, List.take_length]
        · show _ < D.i.toNat
          omega
      · refine .inr ⟨fun hskip => heq (hat.getElem?_eq_iff.mp hskip.2), .inl ⟨_, back, hat', ?_⟩⟩
        show D.i.toNat ≤ _
        omega
    · refine .inr ⟨fun hskip => hmem ?_, .inl ⟨front, _, hat', hle⟩⟩
      exact List.mem_of_mem_take (htake ▸ hskip.1)

/-! ### The whole dispatch -/

/-- The loop ends behind the last listener. -/
lemma length_le_of_step (hs : D.step e = some D') (hend : D'.ended = true) :
    D'.handler.alList.length ≤ D'.i.toNat := by
  obtain ⟨hended, rfl⟩ := step_inv hs
  cases e with
  | turn =>
    rcases Nat.lt_or_ge D.i.toNat D.handler.alList.length with hi | hi
    · change D.turn.ended = true at hend
      rw [turn_of_lt hi] at hend
      exact absurd hend (by simp [hended])
    · show D.turn.handler.alList.length ≤ D.turn.i.toNat
      rwa [turn_of_le hi]
  | add | remove => exact absurd (hended.symm.trans hend) (by decide)

/-- What has been passed stays passed, and is not skipped. -/
lemma passed_run (h : Run step NoWrap D es D') (hstays : D.Stays es al) (hpassed : D.Passed al n) :
    D'.Passed al n ∧ Run step (fun D e => ¬ Skips al D e) D es D' := by
  induction h with
  | nil D => exact ⟨hpassed, .nil D⟩
  | cons hwrap hs hrest ih =>
    obtain ⟨-, hstays'⟩ := (stays_cons hwrap hs).mp hstays
    have hcount := hstays'.count_eq
    obtain ⟨-, rfl⟩ := step_inv hs
    obtain ⟨hact, hskip⟩ := passed_act hpassed hwrap hcount
    obtain ⟨hfinal, hrun⟩ := ih hstays' hact
    exact ⟨hfinal, .cons hskip hs hrun⟩

lemma Passed.count_eq (h : D.Passed al n) : D.received.count al = n := by
  obtain ⟨front, back, hat, -⟩ := h
  exact hat.received

/-- At the end, a listener that was pending has received the event if and only if it was never
skipped. -/
lemma pending_run (h : Run step NoWrap D es D') (hstays : D.Stays es al) (hpending : D.Pending al)
    (hopen : D.ended = false) (hend : D'.ended = true) :
    D'.received.count al = 1 ↔ Run step (fun D e => ¬ Skips al D e) D es D' := by
  induction h with
  | nil D => exact absurd (hopen.symm.trans hend) (by decide)
  | @cons D D₁ D' e es hwrap hs hrest ih =>
    obtain ⟨-, hstays'⟩ := (stays_cons hwrap hs).mp hstays
    have hcount := hstays'.count_eq
    have hact := (step_inv hs).2
    rcases pending_act hpending hwrap (hact ▸ hcount) with ⟨hskip, hpassed⟩ | ⟨hskip, hgo⟩
    · have hfinal := (passed_run hrest hstays' (hact ▸ hpassed)).1.count_eq
      refine iff_of_false (by omega) fun hrun => ?_
      cases hrun with
      | cons hskip' => exact hskip' hskip
    · have hcons : Run step (fun D e => ¬ Skips al D e) D (e :: es) D' ↔
          Run step (fun D e => ¬ Skips al D e) D₁ es D' := by
        refine ⟨fun hrun => ?_, fun hrun => .cons hskip hs hrun⟩
        cases hrun with
        | cons _ hs' hrun =>
          obtain rfl := Option.some.inj (hs.symm.trans hs')
          exact hrun
      rw [hcons]
      rcases hgo with hpending' | hpassed
      · cases hopen₁ : D₁.ended with
        | false => exact ih hstays' (hact ▸ hpending') hopen₁ hend
        | true =>
          -- the loop cannot have ended in front of the listener
          have hlen := length_le_of_step hs hopen₁
          obtain ⟨front, back, hat, hle⟩ := hact ▸ hpending'
          rw [hat.eq, List.length_append, List.length_cons] at hlen
          omega
      · obtain ⟨hfinal, hrun⟩ := passed_run hrest hstays' (hact ▸ hpassed)
        exact iff_of_true hfinal.count_eq hrun

/-- **No listener misses an event**: in a dispatch whose index does not wrap, the listeners that
are registered exactly once all the time receive the event exactly once, if and only if none of
them is skipped. -/
theorem received_once_iff {H : CommHandler} {es : List DispatchEvent} {D : Dispatch}
    (h : Run step NoWrap (start H) es D) (hend : D.ended = true) :
    (∀ al, (start H).Stays es al → D.received.count al = 1) ↔
      ∀ al, (start H).Stays es al → Run step (fun D e => ¬ Skips al D e) (start H) es D := by
  refine forall_congr' fun al => forall_congr' fun hstays => ?_
  exact pending_run h hstays (pending_start hstays.count_eq) rfl hend

/-- Of three listeners the last one is erased and another one is added while the loop is at the
first one; the first one is erased when the index stands behind the second one. -/
def busy : List DispatchEvent := [.turn, .add 4, .remove 3, .turn, .remove 1, .turn]

/-- The second listener, which stays, receives the event once. -/
theorem received_once_busy :
    ∃ D, Run step NoWrap (start { alList := [1, 2, 3], deletions := 0 }) busy D ∧
      D.ended = true ∧ (start { alList := [1, 2, 3], deletions := 0 }).Stays busy 2 ∧
        D.received.count 2 = 1 := by
  have hrun : Run step NoWrap (start { alList := [1, 2, 3], deletions := 0 }) busy
      ⟨{ alList := [2, 4], deletions := 0 }, 2, [1, 2], true⟩ :=
    .cons (fun _ => by decide) rfl <| .cons trivial rfl <| .cons trivial rfl <|
      .cons (fun _ => by decide) rfl <| .cons trivial rfl <| .cons (fun _ => by decide) rfl <|
        .nil _
  have hstays : (start { alList := [1, 2, 3], deletions := 0 }).Stays busy 2 := by
    refine (stays_cons (e := .turn) (fun _ => by decide) rfl).mpr ⟨rfl, ?_⟩
    refine (stays_cons (e := .add 4) trivial rfl).mpr ⟨rfl, ?_⟩
    refine (stays_cons (e := .remove 3) trivial rfl).mpr ⟨rfl, ?_⟩
    refine (stays_cons (e := .turn) (fun _ => by decide) rfl).mpr ⟨rfl, ?_⟩
    refine (stays_cons (e := .remove 1) trivial rfl).mpr ⟨rfl, ?_⟩
    refine (stays_cons (e := .turn) (fun _ => by decide) rfl).mpr ⟨rfl, ?_⟩
    exact stays_nil.mpr rfl
  refine ⟨_, hrun, rfl, hstays, (received_once_iff hrun rfl).mpr (fun al hal => ?_) 2 hstays⟩
  -- the listener at the index when the first one is erased has been added meanwhile
  have hne : al ≠ 4 := by
    rintro rfl
    exact absurd hal.count_eq (by decide)
  refine .cons id rfl <| .cons id rfl <| .cons (fun h => absurd h.1 (by decide)) rfl <|
    .cons id rfl <| .cons (fun h => hne ?_) rfl <| .cons id rfl <| .nil _
  exact (Option.some.inj h.2).symm

/-- The first of two listeners receives the event and is erased.  Then the loop ends, and the
second one, which has been there all the time, has missed it. -/
theorem not_received_once :
    ∃ D, Run step NoWrap (start { alList := [1, 2], deletions := 0 }) [.turn, .remove 1, .turn] D ∧
      D.ended = true ∧
        (start { alList := [1, 2], deletions := 0 }).Stays [.turn, .remove 1, .turn] 2 ∧
          D.received.count 2 = 0 := by
  have hrun : Run step NoWrap (start { alList := [1, 2], deletions := 0 })
      [.turn, .remove 1, .turn] ⟨{ alList := [2], deletions := 0 }, 1, [1], true⟩ :=
    .cons (fun _ => by decide) rfl <| .cons trivial rfl <| .cons (fun _ => by decide) rfl <| .nil _
  refine ⟨_, hrun, rfl, ?_, rfl⟩
  refine (stays_cons (e := .turn) (fun _ => by decide) rfl).mpr ⟨rfl, ?_⟩
  refine (stays_cons (e := .remove 1) trivial rfl).mpr ⟨rfl, ?_⟩
  refine (stays_cons (e := .turn) (fun _ => by decide) rfl).mpr ⟨rfl, ?_⟩
  exact stays_nil.mpr rfl

end Dispatch
end DistLock
