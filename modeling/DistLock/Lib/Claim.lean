/-
Admission by announcement.

A finite group of processes shares `k` permits without any memory in common.  A process that
wants a permit announces its claim to all others, listens for a while, and takes the permit
if it heard of fewer than `k` holders.  Every process repeats its current phase from time to
time; messages of one sender arrive in the order in which they were sent.  A process need not
announce a phase as soon as it is in it: until it does it may still repeat the one before, but it
does not listen before its claim has been announced.

The only assumption about time is the guard of `Step.close`: a process stops listening only
after it has heard, from every other process that was active during the whole of its
listening window, a message that was sent inside the window.  Under this assumption at most
`k` processes hold a permit (`card_holders_le`).

The argument orders the windows by their opening times.  Of two processes that claim at the
same time, the one whose window opened later hears the claim of the earlier one inside its
window and gives up, unless the earlier one has already become a holder; in that case it
counts it.
-/
import Mathlib.Data.Fintype.Card
import Mathlib.Data.Finset.Card
import Mathlib.Logic.Function.Basic
import Mathlib.Logic.Relation

namespace Lib.Claim

/-- What a process announces to the others. -/
inductive Phase
  | out
  | trying
  | claiming
  | holding
  deriving DecidableEq

/-- A process is active from its first announcement until it gives up or releases. -/
def Phase.Active (p : Phase) : Prop := p ≠ .out

instance (p : Phase) : Decidable p.Active := inferInstanceAs (Decidable (p ≠ .out))

/-- Where a claiming process stands with respect to its listening window, together with the
time at which the window was opened. -/
inductive Stage
  | outside
  | waiting (o : ℕ)
  | passed (o : ℕ)
  | granted (o : ℕ)
  deriving DecidableEq

/-- The window that was opened at `o` is still open, or it has been closed by the timer and
the process has not yet acted on it. -/
def Stage.Open : Stage → ℕ → Prop
  | .outside, _ => False
  | .waiting o, o' => o = o'
  | .passed o, o' => o = o'
  | .granted o, o' => o = o'

/-- The window that was opened at `o` has been closed by the timer. -/
def Stage.Past : Stage → ℕ → Prop
  | .outside, _ => False
  | .waiting _, _ => False
  | .passed o, o' => o = o'
  | .granted o, o' => o = o'

lemma Stage.Past.toOpen {st : Stage} {o : ℕ} (h : st.Past o) : st.Open o := by
  cases st <;> simp_all [Stage.Past, Stage.Open]

lemma Stage.Open.waiting_or_past {st : Stage} {o : ℕ} (h : st.Open o) :
    st = .waiting o ∨ st.Past o := by
  cases st <;> simp_all [Stage.Past, Stage.Open]

/-- A state of the group.  Messages carry the time at which they were sent; `chan j i` holds
those on their way from `j` to `i`, oldest first, and `heard i j` is the last one that
arrived.  `since i` is the time at which `i` last became active, and `said i` the phase that it
has announced last. -/
@[ext]
structure Cfg (ι : Type*) where
  clock : ℕ
  phase : ι → Phase
  said : ι → Phase
  since : ι → ℕ
  stage : ι → Stage
  chan : ι → ι → List (ℕ × Phase)
  heard : ι → ι → Option (ℕ × Phase)

variable {ι : Type*}

/-- Before anything has happened. -/
structure Cfg.Initial (c : Cfg ι) : Prop where
  phase : ∀ i, c.phase i = .out
  stage : ∀ i, c.stage i = .outside
  chan : ∀ j i, c.chan j i = []
  heard : ∀ i j, c.heard i j = none

variable [Fintype ι]

/-- The holders of a permit. -/
def Cfg.holders (c : Cfg ι) : Finset ι := Finset.univ.filter fun i => c.phase i = .holding

@[simp] lemma Cfg.mem_holders {c : Cfg ι} {i : ι} : i ∈ c.holders ↔ c.phase i = .holding := by
  simp [Cfg.holders]

/-! ### The invariant -/

/-- The bookkeeping of times: messages arrive in the order of their stamps, everything that
has happened lies before the clock, and a process that listens has been claiming since
before its window opened. -/
structure Timed {ι : Type*} (c : Cfg ι) : Prop where
  chan_sorted : ∀ j i, (c.chan j i).Pairwise fun m m' => m.1 < m'.1
  chan_lt : ∀ j i, ∀ m ∈ c.chan j i, m.1 < c.clock
  heard_lt : ∀ i j, ∀ m ∈ c.heard i j, m.1 < c.clock
  heard_chan : ∀ i j, ∀ m ∈ c.heard i j, ∀ m' ∈ c.chan j i, m.1 < m'.1
  since_lt : ∀ i, (c.phase i).Active → c.since i < c.clock
  open_lt : ∀ i o, (c.stage i).Open o → o < c.clock
  open_claiming : ∀ i o, (c.stage i).Open o → c.phase i = .claiming
  open_since : ∀ i o, (c.stage i).Open o → c.since i < o
  open_inj : ∀ i j o, (c.stage i).Open o → (c.stage j).Open o → i = j

/-- What the order of the windows says about the messages.

* `past_lt`: a window that the timer has closed was opened before all other open ones;
* `mute`: inside its window a listener has heard nothing of a claimant whose window is older,
  and what that claimant has sent since is still on its way;
* `hold_*`: the same for a holder, which may in addition be heard as a holder;
* `said_*`: once a holder has announced inside a window that it holds, it says nothing else;
* `past_heard`: a process that has passed its window knows all holders. -/
structure Inv (k : ℕ) (c : Cfg ι) : Prop extends Timed c where
  past_lt : ∀ i j o o', (c.stage j).Past o → (c.stage i).Open o' → i ≠ j → o < o'
  hold_since : ∀ i j o, (c.stage i).Open o → c.phase j = .holding → c.since j < o
  mute_chan : ∀ i j o o', c.stage i = .waiting o → (c.stage j).Open o' → o' < o →
    ∀ m ∈ c.chan j i, o < m.1 → m.2 = .claiming
  mute_heard : ∀ i j o o', c.stage i = .waiting o → (c.stage j).Open o' → o' < o →
    ∀ m ∈ c.heard i j, m.1 ≤ o
  hold_chan : ∀ i j o, (c.stage i).Open o → c.phase j = .holding →
    ∀ m ∈ c.chan j i, o < m.1 → m.2 = .claiming ∨ m.2 = .holding
  hold_order : ∀ i j o, (c.stage i).Open o → c.phase j = .holding →
    ∀ m ∈ c.chan j i, ∀ m' ∈ c.chan j i, o < m.1 → m.1 < m'.1 → m.2 = .holding →
      m'.2 = .holding
  hold_heard : ∀ i j o, (c.stage i).Open o → c.phase j = .holding →
    ∀ m ∈ c.heard i j, o < m.1 → m.2 = .holding ∧ ∀ m' ∈ c.chan j i, m'.2 = .holding
  open_said : ∀ i o, (c.stage i).Open o → c.said i = .claiming
  hold_said : ∀ j, c.phase j = .holding → c.said j = .claiming ∨ c.said j = .holding
  said_chan : ∀ i j o, (c.stage i).Open o → c.phase j = .holding →
    ∀ m ∈ c.chan j i, o < m.1 → m.2 = .holding → c.said j = .holding
  said_heard : ∀ i j o, (c.stage i).Open o → c.phase j = .holding →
    ∀ m ∈ c.heard i j, o < m.1 → c.said j = .holding
  past_heard : ∀ i j o, (c.stage i).Past o → c.phase j = .holding →
    ∃ m ∈ c.heard i j, o < m.1
  granted_card : ∀ i o, c.stage i = .granted o → c.holders.card < k
  card_le : c.holders.card ≤ k

variable {k : ℕ} {c : Cfg ι}

lemma inv_initial (h : c.Initial) : Inv k c := by
  constructor
  · constructor <;> simp [h.phase, h.stage, h.chan, h.heard, Phase.Active, Stage.Open]
  all_goals simp [h.phase, h.stage, h.chan, h.heard, Stage.Open, Stage.Past, Cfg.holders]

lemma Inv.tick (h : Inv k c) : Inv k { c with clock := c.clock + 1 } where
  __ := h
  chan_lt j i m hm := Nat.lt_succ_of_lt (h.chan_lt j i m hm)
  heard_lt i j m hm := Nat.lt_succ_of_lt (h.heard_lt i j m hm)
  since_lt i hi := Nat.lt_succ_of_lt (h.since_lt i hi)
  open_lt i o hi := Nat.lt_succ_of_lt (h.open_lt i o hi)

/-! ### The steps -/

variable [DecidableEq ι]

/-- The channels after `i` has sent `p` to everybody else, if it does so. -/
def Cfg.post (c : Cfg ι) (b : Bool) (i : ι) (p : Phase) (j l : ι) : List (ℕ × Phase) :=
  if b ∧ j = i ∧ l ≠ j then c.chan j l ++ [(c.clock, p)] else c.chan j l

/-- What has been announced last after `i` has sent `p`, if it does so. -/
def Cfg.tells (c : Cfg ι) (b : Bool) (i : ι) (p : Phase) : ι → Phase :=
  if b then Function.update c.said i p else c.said

omit [Fintype ι] in
lemma Cfg.mem_post {c : Cfg ι} {b : Bool} {i j l : ι} {p : Phase} {m : ℕ × Phase}
    (h : m ∈ c.post b i p j l) : m ∈ c.chan j l ∨ (b = true ∧ j = i ∧ m = (c.clock, p)) := by
  rw [Cfg.post] at h
  split_ifs at h with hj
  · rcases List.mem_append.mp h with h | h
    · exact .inl h
    · exact .inr ⟨hj.1, hj.2.1, by simpa using h⟩
  · exact .inl h

omit [Fintype ι] in
/-- Only the channels from `i` have a new message. -/
lemma Cfg.mem_chan_of_mem_post {c : Cfg ι} {b : Bool} {i j l : ι} {p : Phase} {m : ℕ × Phase}
    (hj : j ≠ i) (h : m ∈ c.post b i p j l) : m ∈ c.chan j l :=
  (Cfg.mem_post h).resolve_right fun hm => hj hm.2.1

omit [Fintype ι] in
lemma Cfg.tells_of_ne {c : Cfg ι} {b : Bool} {i j : ι} {p : Phase} (hj : j ≠ i) :
    c.tells b i p j = c.said j := by
  rw [Cfg.tells]
  split_ifs
  · exact Function.update_of_ne hj ..
  · rfl

/-- The holders that `i` has heard of since `o`. -/
def Cfg.heardHolders (c : Cfg ι) (i : ι) (o : ℕ) : Finset ι :=
  Finset.univ.filter fun j => ∃ m ∈ c.heard i j, o < m.1 ∧ m.2 = .holding

/-- One step of one process or of the network. -/
inductive Step (k : ℕ) (c : Cfg ι) : Cfg ι → Prop
  /-- Nothing that the protocol can see happens. -/
  | skip : Step k c { c with clock := c.clock + 1 }
  /-- A process abandons its window. -/
  | quit (i : ι) :
    Step k c { c with clock := c.clock + 1, stage := Function.update c.stage i .outside }
  /-- A process announces its current phase. -/
  | renew (i : ι) :
    Step k c { c with
      clock := c.clock + 1
      said := Function.update c.said i (c.phase i)
      chan := c.post true i (c.phase i) }
  /-- A process repeats what it has announced last. -/
  | echo (i : ι) :
    Step k c { c with clock := c.clock + 1, chan := c.post true i (c.said i) }
  /-- A process moves to a phase other than holding, and may announce it at once. -/
  | assign (i : ι) (p : Phase) (b : Bool) (hi : c.stage i = .outside) (hp : p ≠ .holding) :
    Step k c { c with
      clock := c.clock + 1
      phase := Function.update c.phase i p
      said := c.tells b i p
      since := Function.update c.since i
        (if p.Active ∧ ¬ (c.phase i).Active then c.clock else c.since i)
      chan := c.post b i p }
  /-- A process that has announced its claim starts to listen. -/
  | listen (i : ι) (hi : c.stage i = .outside) (hp : c.phase i = .claiming)
      (hs : c.said i = .claiming) :
    Step k c { c with
      clock := c.clock + 1
      stage := Function.update c.stage i (.waiting c.clock) }
  /-- The timer closes a window; this is where the network and the timers are trusted. -/
  | close (i : ι) (o : ℕ) (hi : c.stage i = .waiting o)
      (hheard : ∀ j, j ≠ i → (c.phase j).Active → c.since j ≤ o →
        ∃ m ∈ c.heard i j, o < m.1) :
    Step k c { c with
      clock := c.clock + 1
      stage := Function.update c.stage i (.passed o) }
  /-- A process finds that it has heard of fewer than `k` holders. -/
  | grant (i : ι) (o : ℕ) (hi : c.stage i = .passed o) (hk : (c.heardHolders i o).card < k) :
    Step k c { c with
      clock := c.clock + 1
      stage := Function.update c.stage i (.granted o) }
  /-- A process takes its permit, and may announce it at once. -/
  | enter (i : ι) (o : ℕ) (b : Bool) (hi : c.stage i = .granted o) :
    Step k c { c with
      clock := c.clock + 1
      phase := Function.update c.phase i .holding
      said := c.tells b i .holding
      stage := Function.update c.stage i .outside
      chan := c.post b i .holding }
  /-- The oldest message from `j` arrives at `i`.  A claim ends the window of a process that
  is listening; otherwise the receiver may or may not abandon its window. -/
  | deliver (j i : ι) (m : ℕ × Phase) (rest : List (ℕ × Phase)) (st : Stage)
      (hm : c.chan j i = m :: rest) (hst : st = c.stage i ∨ st = .outside)
      (hclaim : m.2 = .claiming → ∀ o, c.stage i = .waiting o → st = .outside) :
    Step k c { c with
      clock := c.clock + 1
      stage := Function.update c.stage i st
      chan := fun j' i' => if j' = j ∧ i' = i then rest else c.chan j' i'
      heard := fun i' j' => if i' = i ∧ j' = j then some m else c.heard i' j' }

/-! ### Every step keeps the invariant -/

omit [Fintype ι] in
/-- What holds of a window after one process has opened, closed or used its own. -/
lemma update_cases {P : Stage → Prop} {i j : ι} {st : Stage}
    (h : P (Function.update c.stage i st j)) : (j = i ∧ P st) ∨ (j ≠ i ∧ P (c.stage j)) := by
  rcases eq_or_ne j i with rfl | hj
  · exact .inl ⟨rfl, by rwa [Function.update_self] at h⟩
  · exact .inr ⟨hj, by rwa [Function.update_of_ne hj] at h⟩

omit [Fintype ι] [DecidableEq ι] in
lemma Stage.Open.ne_of_outside {l i : ι} {o : ℕ} (hl : (c.stage l).Open o)
    (hi : c.stage i = .outside) : l ≠ i := by
  rintro rfl
  rw [hi] at hl
  exact hl.elim

omit [Fintype ι] in
lemma open_update {i j : ι} {st : Stage} {o : ℕ} (h : (Function.update c.stage i st j).Open o) :
    (j = i ∧ st.Open o) ∨ (j ≠ i ∧ (c.stage j).Open o) :=
  update_cases (P := (Stage.Open · o)) h

omit [Fintype ι] in
lemma past_update {i j : ι} {st : Stage} {o : ℕ} (h : (Function.update c.stage i st j).Past o) :
    (j = i ∧ st.Past o) ∨ (j ≠ i ∧ (c.stage j).Past o) :=
  update_cases (P := (Stage.Past · o)) h

omit [Fintype ι] in
lemma waiting_update {i j : ι} {st : Stage} {o : ℕ}
    (h : Function.update c.stage i st j = .waiting o) :
    (j = i ∧ st = .waiting o) ∨ (j ≠ i ∧ c.stage j = .waiting o) :=
  update_cases (P := (· = .waiting o)) h

omit [Fintype ι] in
lemma granted_update {i j : ι} {st : Stage} {o : ℕ}
    (h : Function.update c.stage i st j = .granted o) :
    (j = i ∧ st = .granted o) ∨ (j ≠ i ∧ c.stage j = .granted o) :=
  update_cases (P := (· = .granted o)) h

/-- A window is opened after all messages on their way have been sent. -/
lemma Inv.listen (h : Inv k c) {i : ι} (hi : c.stage i = .outside) (hp : c.phase i = .claiming)
    (hs : c.said i = .claiming) :
    Inv k { c with
      clock := c.clock + 1
      stage := Function.update c.stage i (.waiting c.clock) } where
  chan_sorted := h.chan_sorted
  chan_lt j l m hm := Nat.lt_succ_of_lt (h.chan_lt j l m hm)
  heard_lt l j m hm := Nat.lt_succ_of_lt (h.heard_lt l j m hm)
  heard_chan := h.heard_chan
  since_lt l hl := Nat.lt_succ_of_lt (h.since_lt l hl)
  open_lt l o hl := by
    rcases open_update hl with ⟨rfl, rfl⟩ | ⟨-, hl₁⟩
    · exact Nat.lt_succ_self _
    · exact Nat.lt_succ_of_lt (h.open_lt l o hl₁)
  open_claiming l o hl := by
    rcases open_update hl with ⟨rfl, -⟩ | ⟨-, hl₁⟩
    · exact hp
    · exact h.open_claiming l o hl₁
  open_since l o hl := by
    rcases open_update hl with ⟨rfl, rfl⟩ | ⟨-, hl₁⟩
    · exact h.since_lt l (by simp [Phase.Active, hp])
    · exact h.open_since l o hl₁
  open_inj l j o hl hj := by
    rcases open_update hl with ⟨rfl, hl₁⟩ | ⟨-, hl₁⟩ <;>
      rcases open_update hj with ⟨rfl, hj₁⟩ | ⟨-, hj₁⟩
    · rfl
    · exact absurd (h.open_lt j o hj₁) (hl₁ ▸ lt_irrefl _)
    · exact absurd (h.open_lt l o hl₁) (hj₁ ▸ lt_irrefl _)
    · exact h.open_inj l j o hl₁ hj₁
  past_lt l j o o' hj hl hlj := by
    rcases past_update hj with ⟨-, hj₁⟩ | ⟨-, hj₁⟩
    · exact hj₁.elim
    rcases open_update hl with ⟨rfl, rfl⟩ | ⟨-, hl₁⟩
    · exact h.open_lt j o hj₁.toOpen
    · exact h.past_lt l j o o' hj₁ hl₁ hlj
  hold_since l j o hl hj := by
    rcases open_update hl with ⟨rfl, rfl⟩ | ⟨-, hl₁⟩
    · exact h.since_lt j (by rw [hj]; decide)
    · exact h.hold_since l j o hl₁ hj
  mute_chan l j o o' hl hj ho m hm hlt := by
    rcases waiting_update hl with ⟨rfl, hl₁⟩ | ⟨-, hl₁⟩
    · -- no message has been sent inside the window that opens now
      obtain rfl : c.clock = o := by simpa using hl₁
      exact absurd (h.chan_lt _ _ m hm) hlt.asymm
    rcases open_update hj with ⟨rfl, hj₁⟩ | ⟨-, hj₁⟩
    · -- and this window is not the older one of the two
      exact absurd (h.open_lt l o (by rw [hl₁]; rfl)) (hj₁ ▸ ho).asymm
    · exact h.mute_chan l j o o' hl₁ hj₁ ho m hm hlt
  mute_heard l j o o' hl hj ho m hm := by
    rcases waiting_update hl with ⟨rfl, hl₁⟩ | ⟨-, hl₁⟩
    · obtain rfl : c.clock = o := by simpa using hl₁
      exact (h.heard_lt _ _ m hm).le
    rcases open_update hj with ⟨rfl, hj₁⟩ | ⟨-, hj₁⟩
    · exact absurd (h.open_lt l o (by rw [hl₁]; rfl)) (hj₁ ▸ ho).asymm
    · exact h.mute_heard l j o o' hl₁ hj₁ ho m hm
  hold_chan l j o hl hj m hm hlt := by
    rcases open_update hl with ⟨rfl, rfl⟩ | ⟨-, hl₁⟩
    · exact absurd (h.chan_lt _ _ m hm) hlt.asymm
    · exact h.hold_chan l j o hl₁ hj m hm hlt
  hold_order l j o hl hj m hm m' hm' hlt := by
    rcases open_update hl with ⟨rfl, rfl⟩ | ⟨-, hl₁⟩
    · exact absurd (h.chan_lt _ _ m hm) hlt.asymm
    · exact h.hold_order l j o hl₁ hj m hm m' hm' hlt
  hold_heard l j o hl hj m hm hlt := by
    rcases open_update hl with ⟨rfl, rfl⟩ | ⟨-, hl₁⟩
    · exact absurd (h.heard_lt _ _ m hm) hlt.asymm
    · exact h.hold_heard l j o hl₁ hj m hm hlt
  open_said l o hl := by
    rcases open_update hl with ⟨rfl, -⟩ | ⟨-, hl₁⟩
    · exact hs
    · exact h.open_said l o hl₁
  hold_said := h.hold_said
  said_chan l j o hl hj m hm hlt := by
    rcases open_update hl with ⟨rfl, rfl⟩ | ⟨-, hl₁⟩
    · exact absurd (h.chan_lt _ _ m hm) hlt.asymm
    · exact h.said_chan l j o hl₁ hj m hm hlt
  said_heard l j o hl hj m hm hlt := by
    rcases open_update hl with ⟨rfl, rfl⟩ | ⟨-, hl₁⟩
    · exact absurd (h.heard_lt _ _ m hm) hlt.asymm
    · exact h.said_heard l j o hl₁ hj m hm hlt
  past_heard l j o hl hj := by
    rcases past_update hl with ⟨-, hl₁⟩ | ⟨-, hl₁⟩
    · exact hl₁.elim
    · exact h.past_heard l j o hl₁ hj
  granted_card l o hl := by
    rcases granted_update hl with ⟨-, hl₁⟩ | ⟨-, hl₁⟩
    · exact absurd hl₁ (by simp)
    · exact h.granted_card l o hl₁
  card_le := h.card_le

/-- A process may move on within its window as long as the timer's promises hold for it. -/
lemma Inv.advance (h : Inv k c) {i : ι} {st : Stage}
    (hopen : ∀ o, st.Open o → (c.stage i).Open o)
    (hwait : ∀ o, st = .waiting o → c.stage i = .waiting o)
    (hpast : ∀ o, st.Past o → (∀ l o', (c.stage l).Open o' → l ≠ i → o < o') ∧
      ∀ j, c.phase j = .holding → ∃ m ∈ c.heard i j, o < m.1)
    (hgrant : ∀ o, st = .granted o → c.holders.card < k) :
    Inv k { c with stage := Function.update c.stage i st } := by
  have hopen' : ∀ l o, (Function.update c.stage i st l).Open o → (c.stage l).Open o := by
    intro l o hl
    rcases open_update hl with ⟨rfl, h₁⟩ | ⟨-, h₁⟩
    · exact hopen o h₁
    · exact h₁
  have hwait' : ∀ l o, Function.update c.stage i st l = .waiting o → c.stage l = .waiting o := by
    intro l o hl
    rcases waiting_update hl with ⟨rfl, h₁⟩ | ⟨-, h₁⟩
    · exact hwait o h₁
    · exact h₁
  exact
    { chan_sorted := h.chan_sorted
      chan_lt := h.chan_lt
      heard_lt := h.heard_lt
      heard_chan := h.heard_chan
      since_lt := h.since_lt
      open_lt := fun l o hl => h.open_lt l o (hopen' l o hl)
      open_claiming := fun l o hl => h.open_claiming l o (hopen' l o hl)
      open_since := fun l o hl => h.open_since l o (hopen' l o hl)
      open_inj := fun l j o hl hj => h.open_inj l j o (hopen' l o hl) (hopen' j o hj)
      past_lt := fun l j o o' hj hl hlj => by
        rcases past_update hj with ⟨rfl, h₁⟩ | ⟨-, h₁⟩
        · exact (hpast o h₁).1 l o' (hopen' l o' hl) hlj
        · exact h.past_lt l j o o' h₁ (hopen' l o' hl) hlj
      hold_since := fun l j o hl => h.hold_since l j o (hopen' l o hl)
      mute_chan := fun l j o o' hl hj => h.mute_chan l j o o' (hwait' l o hl) (hopen' j o' hj)
      mute_heard := fun l j o o' hl hj => h.mute_heard l j o o' (hwait' l o hl) (hopen' j o' hj)
      hold_chan := fun l j o hl => h.hold_chan l j o (hopen' l o hl)
      hold_order := fun l j o hl => h.hold_order l j o (hopen' l o hl)
      hold_heard := fun l j o hl => h.hold_heard l j o (hopen' l o hl)
      open_said := fun l o hl => h.open_said l o (hopen' l o hl)
      hold_said := h.hold_said
      said_chan := fun l j o hl => h.said_chan l j o (hopen' l o hl)
      said_heard := fun l j o hl => h.said_heard l j o (hopen' l o hl)
      past_heard := fun l j o hl hj => by
        rcases past_update hl with ⟨rfl, h₁⟩ | ⟨-, h₁⟩
        · exact (hpast o h₁).2 j hj
        · exact h.past_heard l j o h₁ hj
      granted_card := fun l o hl => by
        rcases granted_update hl with ⟨rfl, h₁⟩ | ⟨-, h₁⟩
        · exact hgrant o h₁
        · exact h.granted_card l o h₁
      card_le := h.card_le }

lemma Inv.quit (h : Inv k c) (i : ι) :
    Inv k { c with stage := Function.update c.stage i .outside } :=
  h.advance (fun _ ho => ho.elim) (fun _ ho => absurd ho (by simp)) (fun _ ho => ho.elim)
    (fun _ ho => absurd ho (by simp))

/-- When the timer closes a window, no older window is open: its owner would have been heard
claiming inside this one. -/
lemma Inv.close (h : Inv k c) {i : ι} {o : ℕ} (hi : c.stage i = .waiting o)
    (hheard : ∀ j, j ≠ i → (c.phase j).Active → c.since j ≤ o → ∃ m ∈ c.heard i j, o < m.1) :
    Inv k { c with stage := Function.update c.stage i (.passed o) } := by
  have hio : (c.stage i).Open o := by rw [hi]; rfl
  refine h.advance (fun o' ho => ?_) (fun _ ho => absurd ho (by simp)) (fun o' ho => ?_)
    (fun _ ho => absurd ho (by simp))
  · obtain rfl : o = o' := ho
    exact hio
  · obtain rfl : o = o' := ho
    refine ⟨fun l o' hl hli => ?_, fun j hj => ?_⟩
    · -- the owner of an older window is muted, but it must have been heard
      by_contra hlt
      have hne : o' ≠ o := fun he => hli (h.open_inj l i o (he ▸ hl) hio)
      have hlt' : o' < o := lt_of_le_of_ne (not_lt.mp hlt) hne
      have hclaim : c.phase l = .claiming := h.open_claiming l o' hl
      obtain ⟨m, hm, hom⟩ := hheard l hli (by rw [hclaim]; decide)
        ((h.open_since l o' hl).trans hlt').le
      exact absurd (h.mute_heard i l o o' hi hl hlt' m hm) (not_le.mpr hom)
    · -- a holder has been active since before the window, so it has been heard
      refine hheard j ?_ (by rw [hj]; decide) (h.hold_since i j o hio hj).le
      rintro rfl
      exact absurd ((h.open_claiming j o hio).symm.trans hj) (by decide)

omit [DecidableEq ι] in
/-- All holders have been heard of by a process that has passed its window. -/
lemma Inv.holders_subset (h : Inv k c) {i : ι} {o : ℕ} (hi : (c.stage i).Past o) :
    c.holders ⊆ c.heardHolders i o := by
  intro j hj
  have hj : c.phase j = .holding := Cfg.mem_holders.mp hj
  obtain ⟨m, hm, hom⟩ := h.past_heard i j o hi hj
  simp only [Cfg.heardHolders, Finset.mem_filter, Finset.mem_univ, true_and]
  exact ⟨m, hm, hom, (h.hold_heard i j o hi.toOpen hj m hm hom).1⟩

lemma Inv.grant (h : Inv k c) {i : ι} {o : ℕ} (hi : c.stage i = .passed o)
    (hk : (c.heardHolders i o).card < k) :
    Inv k { c with stage := Function.update c.stage i (.granted o) } := by
  have hio : (c.stage i).Past o := by rw [hi]; rfl
  refine h.advance (fun o' ho => ?_) (fun _ ho => absurd ho (by simp)) (fun o' ho => ?_)
    (fun _ _ => (Finset.card_le_card (h.holders_subset hio)).trans_lt hk)
  · obtain rfl : o = o' := ho
    exact hio.toOpen
  · obtain rfl : o = o' := ho
    exact ⟨fun l o' hl hli => h.past_lt l i o o' hio hl hli, fun j => h.past_heard i j o hio⟩

/-! ### Announcements -/

omit [Fintype ι] in
lemma Timed.post (h : Timed c) (b : Bool) (i : ι) (p : Phase) :
    Timed { c with clock := c.clock + 1, chan := c.post b i p } where
  chan_sorted j l := by
    show (c.post b i p j l).Pairwise _
    rw [Cfg.post]
    split_ifs
    · refine List.pairwise_append.mpr ⟨h.chan_sorted j l, List.pairwise_singleton _ _, ?_⟩
      intro m hm m' hm'
      obtain rfl : m' = (c.clock, p) := by simpa using hm'
      exact h.chan_lt j l m hm
    · exact h.chan_sorted j l
  chan_lt j l m hm := by
    rcases Cfg.mem_post hm with hm | ⟨-, -, rfl⟩
    · exact Nat.lt_succ_of_lt (h.chan_lt j l m hm)
    · exact Nat.lt_succ_self _
  heard_lt l j m hm := Nat.lt_succ_of_lt (h.heard_lt l j m hm)
  heard_chan l j m hm m' hm' := by
    rcases Cfg.mem_post hm' with hm' | ⟨-, -, rfl⟩
    · exact h.heard_chan l j m hm m' hm'
    · exact h.heard_lt l j m hm
  since_lt l hl := Nat.lt_succ_of_lt (h.since_lt l hl)
  open_lt l o hl := Nat.lt_succ_of_lt (h.open_lt l o hl)
  open_claiming := h.open_claiming
  open_since := h.open_since
  open_inj := h.open_inj

/-- What has been announced last may be repeated. -/
lemma Inv.echo (h : Inv k c) (i : ι) :
    Inv k { c with clock := c.clock + 1, chan := c.post true i (c.said i) } where
  toTimed := h.toTimed.post true i (c.said i)
  past_lt := h.past_lt
  hold_since := h.hold_since
  mute_chan l j o o' hl hj ho m hm hlt := by
    rcases Cfg.mem_post hm with hm | ⟨-, rfl, rfl⟩
    · exact h.mute_chan l j o o' hl hj ho m hm hlt
    · exact h.open_said j o' hj
  mute_heard := h.mute_heard
  hold_chan l j o hl hj m hm hlt := by
    rcases Cfg.mem_post hm with hm | ⟨-, rfl, rfl⟩
    · exact h.hold_chan l j o hl hj m hm hlt
    · exact h.hold_said j hj
  hold_order l j o hl hj m hm m' hm' hlt hmm' hp := by
    rcases Cfg.mem_post hm' with h₁ | ⟨-, rfl, rfl⟩ <;>
      rcases Cfg.mem_post hm with h₂ | ⟨-, h₂, rfl⟩
    · exact h.hold_order l j o hl hj m h₂ m' h₁ hlt hmm' hp
    · -- the new message is the last one
      exact absurd (h.chan_lt j l m' h₁) hmm'.asymm
    · exact h.said_chan l j o hl hj m h₂ hlt hp
    · exact absurd hmm' (lt_irrefl _)
  hold_heard l j o hl hj m hm hlt := by
    refine ⟨(h.hold_heard l j o hl hj m hm hlt).1, fun m' hm' => ?_⟩
    rcases Cfg.mem_post hm' with hm' | ⟨-, rfl, rfl⟩
    · exact (h.hold_heard l j o hl hj m hm hlt).2 m' hm'
    · exact h.said_heard l j o hl hj m hm hlt
  open_said := h.open_said
  hold_said := h.hold_said
  said_chan l j o hl hj m hm hlt hp := by
    rcases Cfg.mem_post hm with hm | ⟨-, rfl, rfl⟩
    · exact h.said_chan l j o hl hj m hm hlt hp
    · exact hp
  said_heard := h.said_heard
  past_heard := h.past_heard
  granted_card := h.granted_card
  card_le := h.card_le

/-- The current phase may be announced. -/
lemma Inv.say (h : Inv k c) (i : ι) :
    Inv k { c with said := Function.update c.said i (c.phase i) } := by
  have hsaid : ∀ {j}, j ≠ i → Function.update c.said i (c.phase i) j = c.said j :=
    fun hj => Function.update_of_ne hj ..
  exact
    { h with
      open_said := fun l o hl => by
        rcases eq_or_ne l i with rfl | hli
        · exact (Function.update_self ..).trans (h.open_claiming l o hl)
        · exact (hsaid hli).trans (h.open_said l o hl)
      hold_said := fun j hj => by
        rcases eq_or_ne j i with rfl | hji
        · exact .inr ((Function.update_self ..).trans hj)
        · exact (h.hold_said j hj).imp (hsaid hji).trans (hsaid hji).trans
      said_chan := fun l j o hl hj m hm hlt hp => by
        rcases eq_or_ne j i with rfl | hji
        · exact (Function.update_self ..).trans hj
        · exact (hsaid hji).trans (h.said_chan l j o hl hj m hm hlt hp)
      said_heard := fun l j o hl hj m hm hlt => by
        rcases eq_or_ne j i with rfl | hji
        · exact (Function.update_self ..).trans hj
        · exact (hsaid hji).trans (h.said_heard l j o hl hj m hm hlt) }

lemma Inv.renew (h : Inv k c) (i : ι) :
    Inv k { c with
      clock := c.clock + 1
      said := Function.update c.said i (c.phase i)
      chan := c.post true i (c.phase i) } := by
  have hecho := (h.say i).echo i
  rwa [show ({ c with said := Function.update c.said i (c.phase i) } : Cfg ι).said i = c.phase i
    from Function.update_self ..] at hecho

/-- A process without an open window is neither listened to as a claimant nor as a holder. -/
lemma Inv.assign (h : Inv k c) {i : ι} {p : Phase} {b : Bool} (hi : c.stage i = .outside)
    (hp : p ≠ .holding) :
    Inv k { c with
      clock := c.clock + 1
      phase := Function.update c.phase i p
      said := c.tells b i p
      since := Function.update c.since i
        (if p.Active ∧ ¬ (c.phase i).Active then c.clock else c.since i)
      chan := c.post b i p } := by
  have hne : ∀ {l o}, (c.stage l).Open o → l ≠ i := fun hl => hl.ne_of_outside hi
  have hold : ∀ {j}, Function.update c.phase i p j = .holding → j ≠ i ∧ c.phase j = .holding := by
    intro j hj
    rcases eq_or_ne j i with rfl | hji
    · exact absurd (by rwa [Function.update_self] at hj) hp
    · exact ⟨hji, by rwa [Function.update_of_ne hji] at hj⟩
  have hcard : ({ c with phase := Function.update c.phase i p } : Cfg ι).holders ⊆ c.holders := by
    intro j hj
    exact Cfg.mem_holders.mpr (hold (Cfg.mem_holders.mp hj)).2
  have ht := h.toTimed.post b i p
  exact
    { chan_sorted := ht.chan_sorted
      chan_lt := ht.chan_lt
      heard_lt := ht.heard_lt
      heard_chan := ht.heard_chan
      since_lt := fun l hl => by
        rcases eq_or_ne l i with rfl | hli
        · have hl : p.Active := by simpa using hl
          by_cases hact : (c.phase l).Active
          · simpa [hl, hact] using Nat.lt_succ_of_lt (h.since_lt l hact)
          · simp [hl, hact]
        · have hl : (c.phase l).Active := by simpa [hli] using hl
          simpa [hli] using Nat.lt_succ_of_lt (h.since_lt l hl)
      open_lt := ht.open_lt
      open_claiming := fun l o hl => by
        simpa [hne hl] using h.open_claiming l o hl
      open_since := fun l o hl => by
        simpa [hne hl] using h.open_since l o hl
      open_inj := ht.open_inj
      past_lt := h.past_lt
      hold_since := fun l j o hl hj => by
        simpa [(hold hj).1] using h.hold_since l j o hl (hold hj).2
      mute_chan := fun l j o o' hl hj ho m hm =>
        h.mute_chan l j o o' hl hj ho m (Cfg.mem_chan_of_mem_post (hne hj) hm)
      mute_heard := h.mute_heard
      hold_chan := fun l j o hl hj m hm =>
        h.hold_chan l j o hl (hold hj).2 m (Cfg.mem_chan_of_mem_post (hold hj).1 hm)
      hold_order := fun l j o hl hj m hm m' hm' =>
        h.hold_order l j o hl (hold hj).2 m (Cfg.mem_chan_of_mem_post (hold hj).1 hm) m'
          (Cfg.mem_chan_of_mem_post (hold hj).1 hm')
      hold_heard := fun l j o hl hj m hm hlt =>
        ⟨(h.hold_heard l j o hl (hold hj).2 m hm hlt).1, fun m' hm' =>
          (h.hold_heard l j o hl (hold hj).2 m hm hlt).2 m'
            (Cfg.mem_chan_of_mem_post (hold hj).1 hm')⟩
      open_said := fun l o hl => (Cfg.tells_of_ne (hne hl)).trans (h.open_said l o hl)
      hold_said := fun j hj =>
        (h.hold_said j (hold hj).2).imp (Cfg.tells_of_ne (hold hj).1).trans
          (Cfg.tells_of_ne (hold hj).1).trans
      said_chan := fun l j o hl hj m hm hlt hm' =>
        (Cfg.tells_of_ne (hold hj).1).trans
          (h.said_chan l j o hl (hold hj).2 m (Cfg.mem_chan_of_mem_post (hold hj).1 hm) hlt hm')
      said_heard := fun l j o hl hj m hm hlt =>
        (Cfg.tells_of_ne (hold hj).1).trans (h.said_heard l j o hl (hold hj).2 m hm hlt)
      past_heard := fun l j o hl hj => h.past_heard l j o hl (hold hj).2
      granted_card := fun l o hl => (Finset.card_le_card hcard).trans_lt (h.granted_card l o hl)
      card_le := (Finset.card_le_card hcard).trans h.card_le }

/-- A process without a window becomes a holder.  The others may still listen, provided that
their windows are younger than its claim and they have heard nothing of it since. -/
lemma Inv.hold (h : Inv k c) {i : ι} {b : Bool} (hi : c.stage i = .outside)
    (hact : (c.phase i).Active) (hsaid : c.said i = .claiming) (hcard : c.holders.card < k)
    (hopen : ∀ l o, (c.stage l).Open o → c.stage l = .waiting o ∧ c.since i < o ∧
      (∀ m ∈ c.chan i l, o < m.1 → m.2 = .claiming) ∧ ∀ m ∈ c.heard l i, m.1 ≤ o) :
    Inv k { c with
      clock := c.clock + 1
      phase := Function.update c.phase i .holding
      said := c.tells b i .holding
      chan := c.post b i .holding } := by
  have hne : ∀ {l o}, (c.stage l).Open o → l ≠ i := fun hl => hl.ne_of_outside hi
  have hpast : ∀ {l o}, ¬ (c.stage l).Past o := by
    intro l o hl
    rw [(hopen l o hl.toOpen).1] at hl
    exact hl
  have hphase : ∀ {j}, Function.update c.phase i .holding j = .holding →
      j = i ∨ (j ≠ i ∧ c.phase j = .holding) := by
    intro j hj
    rcases eq_or_ne j i with hji | hji
    · exact .inl hji
    · exact .inr ⟨hji, by rwa [Function.update_of_ne hji] at hj⟩
  have hholders : ({ c with phase := Function.update c.phase i .holding } : Cfg ι).holders ⊆
      insert i c.holders := by
    intro j hj
    rcases hphase (Cfg.mem_holders.mp hj) with rfl | ⟨-, hj⟩
    · exact Finset.mem_insert_self _ _
    · exact Finset.mem_insert_of_mem (Cfg.mem_holders.mpr hj)
  have ht := h.toTimed.post b i .holding
  exact
    { chan_sorted := ht.chan_sorted
      chan_lt := ht.chan_lt
      heard_lt := ht.heard_lt
      heard_chan := ht.heard_chan
      since_lt := fun l hl => by
        rcases eq_or_ne l i with rfl | hli
        · exact ht.since_lt l hact
        · exact ht.since_lt l (by simpa [hli] using hl)
      open_lt := ht.open_lt
      open_claiming := fun l o hl => by
        simpa [hne hl] using h.open_claiming l o hl
      open_since := h.open_since
      open_inj := h.open_inj
      past_lt := fun _ _ _ _ hj => (hpast hj).elim
      hold_since := fun l j o hl hj => by
        rcases hphase hj with rfl | ⟨-, hj⟩
        · exact (hopen l o hl).2.1
        · exact h.hold_since l j o hl hj
      mute_chan := fun l j o o' hl hj ho m hm =>
        h.mute_chan l j o o' hl hj ho m (Cfg.mem_chan_of_mem_post (hne hj) hm)
      mute_heard := h.mute_heard
      hold_chan := fun l j o hl hj m hm hlt => by
        rcases hphase hj with rfl | ⟨hji, hj⟩
        · rcases Cfg.mem_post hm with hm | ⟨-, -, rfl⟩
          · exact .inl ((hopen l o hl).2.2.1 m hm hlt)
          · exact .inr rfl
        · exact h.hold_chan l j o hl hj m (Cfg.mem_chan_of_mem_post hji hm) hlt
      hold_order := fun l j o hl hj m hm m' hm' hlt hmm' hp => by
        rcases hphase hj with rfl | ⟨hji, hj⟩
        · -- the only announcement of the new holder as a holder is the one just sent
          rcases Cfg.mem_post hm' with hm' | ⟨-, -, rfl⟩
          · rcases Cfg.mem_post hm with hm | ⟨-, -, rfl⟩
            · exact absurd (hp.symm.trans ((hopen l o hl).2.2.1 m hm hlt)) (by decide)
            · exact absurd (h.chan_lt j l m' hm') hmm'.asymm
          · rfl
        · exact h.hold_order l j o hl hj m (Cfg.mem_chan_of_mem_post hji hm) m'
            (Cfg.mem_chan_of_mem_post hji hm') hlt hmm' hp
      hold_heard := fun l j o hl hj m hm hlt => by
        rcases hphase hj with rfl | ⟨hji, hj⟩
        · exact absurd ((hopen l o hl).2.2.2 m hm) (not_le.mpr hlt)
        · refine ⟨(h.hold_heard l j o hl hj m hm hlt).1, fun m' hm' => ?_⟩
          exact (h.hold_heard l j o hl hj m hm hlt).2 m' (Cfg.mem_chan_of_mem_post hji hm')
      open_said := fun l o hl => (Cfg.tells_of_ne (hne hl)).trans (h.open_said l o hl)
      hold_said := fun j hj => by
        rcases hphase hj with rfl | ⟨hji, hj⟩
        · show c.tells b j .holding j = _ ∨ c.tells b j .holding j = _
          rw [Cfg.tells]
          split_ifs
          · exact .inr (Function.update_self ..)
          · exact .inl hsaid
        · exact (h.hold_said j hj).imp (Cfg.tells_of_ne hji).trans (Cfg.tells_of_ne hji).trans
      said_chan := fun l j o hl hj m hm hlt hp => by
        rcases hphase hj with rfl | ⟨hji, hj⟩
        · rcases Cfg.mem_post hm with hm | ⟨hb, -, rfl⟩
          · exact absurd (hp.symm.trans ((hopen l o hl).2.2.1 m hm hlt)) (by decide)
          · show c.tells b j .holding j = .holding
            rw [Cfg.tells, if_pos hb, Function.update_self]
        · exact (Cfg.tells_of_ne hji).trans
            (h.said_chan l j o hl hj m (Cfg.mem_chan_of_mem_post hji hm) hlt hp)
      said_heard := fun l j o hl hj m hm hlt => by
        rcases hphase hj with rfl | ⟨hji, hj⟩
        · exact absurd ((hopen l o hl).2.2.2 m hm) (not_le.mpr hlt)
        · exact (Cfg.tells_of_ne hji).trans (h.said_heard l j o hl hj m hm hlt)
      past_heard := fun _ _ _ hl => (hpast hl).elim
      granted_card := fun l o hl => (hpast (l := l) (o := o) (by rw [hl]; rfl)).elim
      card_le := (Finset.card_le_card hholders).trans
        ((Finset.card_insert_le _ _).trans hcard) }

/-- A process that has been granted a permit takes it.  No other process has passed its
window, and those that still listen have opened theirs later. -/
lemma Inv.enter (h : Inv k c) {i : ι} {o : ℕ} {b : Bool} (hi : c.stage i = .granted o) :
    Inv k { c with
      clock := c.clock + 1
      phase := Function.update c.phase i .holding
      said := c.tells b i .holding
      stage := Function.update c.stage i .outside
      chan := c.post b i .holding } := by
  have hio : (c.stage i).Past o := by rw [hi]; rfl
  have hclaim : c.phase i = .claiming := h.open_claiming i o hio.toOpen
  have hact : (c.phase i).Active := by
    rw [hclaim]
    decide
  refine (h.quit i).hold (Function.update_self ..) hact (h.open_said i o hio.toOpen)
    (h.granted_card i o hi) fun l o' hl => ?_
  rcases open_update hl with ⟨-, hl⟩ | ⟨hli, hl⟩
  · exact hl.elim
  have hlt : o < o' := h.past_lt l i o o' hio hl hli
  have hw : c.stage l = .waiting o' := by
    refine hl.waiting_or_past.resolve_right fun hpast => ?_
    exact hlt.asymm (h.past_lt i l o' o hpast hio.toOpen hli.symm)
  refine ⟨?_, (h.open_since i o hio.toOpen).trans hlt,
    h.mute_chan l i o' o hw hio.toOpen hlt, h.mute_heard l i o' o hw hio.toOpen hlt⟩
  show Function.update c.stage i .outside l = _
  rw [Function.update_of_ne hli, hw]

/-! ### Deliveries -/

/-- The oldest message from `j` arrives at `i`.  A listener that stays in its window does not
hear a claim, so what it hears of a holder is that it holds. -/
lemma Inv.pop (h : Inv k c) {j i : ι} {m : ℕ × Phase} {rest : List (ℕ × Phase)}
    (hm : c.chan j i = m :: rest) (hclaim : ∀ o, c.stage i = .waiting o → m.2 ≠ .claiming) :
    Inv k { c with
      chan := fun j' i' => if j' = j ∧ i' = i then rest else c.chan j' i'
      heard := fun i' j' => if i' = i ∧ j' = j then some m else c.heard i' j' } := by
  have hmem : m ∈ c.chan j i := by rw [hm]; exact List.mem_cons_self
  have hsorted : (m :: rest).Pairwise fun m m' => m.1 < m'.1 := hm ▸ h.chan_sorted j i
  have hsub : ∀ {j' i' m'}, (m' ∈ if j' = j ∧ i' = i then rest else c.chan j' i') →
      m' ∈ c.chan j' i' := by
    intro j' i' m' hm'
    split_ifs at hm' with hif
    · obtain ⟨rfl, rfl⟩ := hif
      rw [hm]
      exact List.mem_cons_of_mem m hm'
    · exact hm'
  have hrest : ∀ {m'}, (m' ∈ if j = j ∧ i = i then rest else c.chan j i) → m.1 < m'.1 := by
    intro m' hm'
    exact (List.pairwise_cons.mp hsorted).1 m' (by simpa using hm')
  have hheard : ∀ {i' j' m'}, (m' ∈ if i' = i ∧ j' = j then some m else c.heard i' j') →
      (i' = i ∧ j' = j ∧ m' = m) ∨ m' ∈ c.heard i' j' := by
    intro i' j' m' hm'
    split_ifs at hm' with hif
    · exact .inl ⟨hif.1, hif.2, by simpa using hm'.symm⟩
    · exact .inr hm'
  -- what the receiver of the head knows about a holder
  have hhold : ∀ o, (c.stage i).Open o → c.phase j = .holding → o < m.1 → m.2 = .holding := by
    intro o hi hj hlt
    rcases hi.waiting_or_past with hw | hpast
    · -- a holder sends nothing else but claims, and those are excluded
      exact (h.hold_chan i j o hi hj m hmem hlt).resolve_left (hclaim o hw)
    · -- the holder has been heard as such before, so all that follows says the same
      obtain ⟨m₀, hm₀, hlt₀⟩ := h.past_heard i j o hpast hj
      exact (h.hold_heard i j o hi hj m₀ hm₀ hlt₀).2 m hmem
  exact
    { chan_sorted := fun j' i' => by
        show List.Pairwise _ (if j' = j ∧ i' = i then rest else c.chan j' i')
        split_ifs
        · exact (List.pairwise_cons.mp hsorted).2
        · exact h.chan_sorted j' i'
      chan_lt := fun j' i' m' hm' => h.chan_lt j' i' m' (hsub hm')
      heard_lt := fun i' j' m' hm' => by
        rcases hheard hm' with ⟨rfl, rfl, rfl⟩ | hm'
        · exact h.chan_lt j' i' m' hmem
        · exact h.heard_lt i' j' m' hm'
      heard_chan := fun i' j' m' hm' m'' hm'' => by
        rcases hheard hm' with ⟨rfl, rfl, rfl⟩ | hm'
        · exact hrest hm''
        · exact h.heard_chan i' j' m' hm' m'' (hsub hm'')
      since_lt := h.since_lt
      open_lt := h.open_lt
      open_claiming := h.open_claiming
      open_since := h.open_since
      open_inj := h.open_inj
      past_lt := h.past_lt
      hold_since := h.hold_since
      mute_chan := fun l j' o o' hl hj ho m' hm' =>
        h.mute_chan l j' o o' hl hj ho m' (hsub hm')
      mute_heard := fun l j' o o' hl hj ho m' hm' => by
        rcases hheard hm' with ⟨rfl, rfl, rfl⟩ | hm'
        · -- a message from inside the window would be a claim
          by_contra hlt
          exact hclaim o hl (h.mute_chan l j' o o' hl hj ho m' hmem (not_le.mp hlt))
        · exact h.mute_heard l j' o o' hl hj ho m' hm'
      hold_chan := fun l j' o hl hj m' hm' => h.hold_chan l j' o hl hj m' (hsub hm')
      hold_order := fun l j' o hl hj m' hm' m'' hm'' =>
        h.hold_order l j' o hl hj m' (hsub hm') m'' (hsub hm'')
      hold_heard := fun l j' o hl hj m' hm' hlt => by
        rcases hheard hm' with ⟨rfl, rfl, rfl⟩ | hm'
        · have hp := hhold o hl hj hlt
          exact ⟨hp, fun m'' hm'' =>
            h.hold_order l j' o hl hj m' hmem m'' (hsub hm'') hlt (hrest hm'') hp⟩
        · exact ⟨(h.hold_heard l j' o hl hj m' hm' hlt).1, fun m'' hm'' =>
            (h.hold_heard l j' o hl hj m' hm' hlt).2 m'' (hsub hm'')⟩
      open_said := h.open_said
      hold_said := h.hold_said
      said_chan := fun l j' o hl hj m' hm' => h.said_chan l j' o hl hj m' (hsub hm')
      said_heard := fun l j' o hl hj m' hm' hlt => by
        rcases hheard hm' with ⟨rfl, rfl, rfl⟩ | hm'
        · exact h.said_chan l j' o hl hj m' hmem hlt (hhold o hl hj hlt)
        · exact h.said_heard l j' o hl hj m' hm' hlt
      -- the head is newer than whatever the receiver has heard before
      past_heard := fun l j' o hl hj => by
        obtain ⟨m₀, hm₀, hlt₀⟩ := h.past_heard l j' o hl hj
        by_cases hif : l = i ∧ j' = j
        · obtain ⟨rfl, rfl⟩ := hif
          exact ⟨m, by simp, hlt₀.trans (h.heard_chan l j' m₀ hm₀ m hmem)⟩
        · exact ⟨m₀, by simpa [hif] using hm₀, hlt₀⟩
      granted_card := h.granted_card
      card_le := h.card_le }

/-- Every step keeps the invariant. -/
theorem inv_step {c' : Cfg ι} (h : Inv k c) (hs : Step k c c') : Inv k c' := by
  cases hs with
  | skip => exact h.tick
  | quit i => exact (h.quit i).tick
  | renew i => exact h.renew i
  | echo i => exact h.echo i
  | assign i p b hi hp => exact h.assign hi hp
  | listen i hi hp hs => exact h.listen hi hp hs
  | close i o hi hheard => exact (h.close hi hheard).tick
  | grant i o hi hk => exact (h.grant hi hk).tick
  | enter i o b hi => exact h.enter hi
  | deliver j i m rest st hm hst hclaim =>
    rcases hst with rfl | rfl
    · rw [Function.update_eq_self]
      refine (h.pop hm fun o ho hp => ?_).tick
      exact absurd (ho.symm.trans (hclaim hp o ho)) (by simp)
    · refine ((h.quit i).pop hm fun o ho => ?_).tick
      exact absurd ho (by simp)

/-- **At most `k` processes hold a permit in every reachable state.** -/
theorem card_holders_le {c₀ : Cfg ι} (h₀ : c₀.Initial)
    (h : Relation.ReflTransGen (Step k) c₀ c) : c.holders.card ≤ k := by
  have hinv : Inv k c := by
    induction h with
    | refl => exact inv_initial h₀
    | tail _ hs ih => exact inv_step ih hs
  exact hinv.card_le

end Lib.Claim
