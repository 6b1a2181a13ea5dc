/-
Admission by announcement, with processes that leave without a word.

A process may end at any moment, in the middle of its claim or with a permit in its hands.  The
others do not hear of it, and what it has sent before is still on its way.  The permits are safe
nevertheless (`card_holders_le_of_moves`): a process that has gone only counts as a holder for
those who have not noticed yet.
-/
import DistLock.Lib.Claim

namespace Lib.Claim

variable {ι : Type*} [Fintype ι] [DecidableEq ι] {k : ℕ} {c c' c₀ : Cfg ι} {i : ι}

/-- The process `i` leaves. -/
def Cfg.leave (c : Cfg ι) (i : ι) : Cfg ι :=
  { c with
    clock := c.clock + 1
    phase := Function.update c.phase i .out
    said := Function.update c.said i .out
    stage := Function.update c.stage i .outside }

/-- A process that is not listening goes out without saying so. -/
lemma Inv.vanish (h : Inv k c) (hi : c.stage i = .outside) :
    Inv k { c with
      phase := Function.update c.phase i .out
      said := Function.update c.said i .out } := by
  -- who leaves has no window of its own, so that only the fields about holders change
  have hne : ∀ {l o}, (c.stage l).Open o → l ≠ i := fun hl => hl.ne_of_outside hi
  have hold : ∀ {j}, Function.update c.phase i .out j = .holding → c.phase j = .holding := by
    intro j hj
    rcases eq_or_ne j i with rfl | hji
    · rw [Function.update_self] at hj
      cases hj
    · rwa [Function.update_of_ne hji] at hj
  have hsaid : ∀ {j}, Function.update c.phase i .out j = .holding →
      Function.update c.said i .out j = c.said j := by
    intro j hj
    refine Function.update_of_ne ?_ ..
    rintro rfl
    rw [Function.update_self] at hj
    cases hj
  have hcard : ({ c with phase := Function.update c.phase i .out } : Cfg ι).holders.card ≤
      c.holders.card :=
    Finset.card_le_card fun j hj => Cfg.mem_holders.mpr (hold (Cfg.mem_holders.mp hj))
  exact
    { chan_sorted := h.chan_sorted
      chan_lt := h.chan_lt
      heard_lt := h.heard_lt
      heard_chan := h.heard_chan
      since_lt := fun l hl => by
        rcases eq_or_ne l i with rfl | hli
        · exact absurd (Function.update_self ..) hl
        · exact h.since_lt l (by simpa [hli] using hl)
      open_lt := h.open_lt
      open_claiming := fun l o hl => by
        simpa [hne hl] using h.open_claiming l o hl
      open_since := h.open_since
      open_inj := h.open_inj
      past_lt := h.past_lt
      hold_since := fun l j o hl hj => h.hold_since l j o hl (hold hj)
      mute_chan := h.mute_chan
      mute_heard := h.mute_heard
      hold_chan := fun l j o hl hj => h.hold_chan l j o hl (hold hj)
      hold_order := fun l j o hl hj => h.hold_order l j o hl (hold hj)
      hold_heard := fun l j o hl hj => h.hold_heard l j o hl (hold hj)
      open_said := fun l o hl => by
        simpa [hne hl] using h.open_said l o hl
      hold_said := fun j hj => (h.hold_said j (hold hj)).imp (hsaid hj).trans (hsaid hj).trans
      said_chan := fun l j o hl hj m hm hlt hp =>
        (hsaid hj).trans (h.said_chan l j o hl (hold hj) m hm hlt hp)
      said_heard := fun l j o hl hj m hm hlt =>
        (hsaid hj).trans (h.said_heard l j o hl (hold hj) m hm hlt)
      past_heard := fun l j o hl hj => h.past_heard l j o hl (hold hj)
      granted_card := fun l o hl => hcard.trans_lt (h.granted_card l o hl)
      card_le := hcard.trans h.card_le }

lemma Inv.leave (h : Inv k c) (i : ι) : Inv k (c.leave i) :=
  (h.quit i).tick.vanish (Function.update_self ..)

/-- One step of the protocol, or a process leaves. -/
inductive Move (k : ℕ) (c : Cfg ι) : Cfg ι → Prop
  | step {c' : Cfg ι} (hs : Step k c c') : Move k c c'
  | leave (i : ι) : Move k c (c.leave i)

theorem inv_move (h : Inv k c) (hm : Move k c c') : Inv k c' := by
  cases hm with
  | step hs => exact inv_step h hs
  | leave i => exact h.leave i

/-- **At most `k` processes hold a permit, even if processes leave.** -/
theorem card_holders_le_of_moves (h₀ : c₀.Initial) (h : Relation.ReflTransGen (Move k) c₀ c) :
    c.holders.card ≤ k := by
  have hinv : Inv k c := by
    induction h with
    | refl => exact inv_initial h₀
    | tail _ hm ih => exact inv_move ih hm
  exact hinv.card_le

end Lib.Claim
