/-
The listening budget of `query_lock` (`DistributedLock.cc`).

Whenever a packet interrupts the long listening, the elapsed time is cut to whole milliseconds and
subtracted from `long_listen_time`.  The subtraction is made in floating point, where an elapsed
time above the budget gives a negative number, and converting this back to an unsigned number is
undefined.  What is cut off is never subtracted, so the loop may listen for longer than its budget.
The budget is accounted for if and only if the durations avoid both (`accounted_iff`).
-/
import DistLock.Acquire.Follows

namespace DistLock
namespace Budget

/-- `long_listen_time`, from the `beacon_time` of the constructor. -/
def longListenTime (beaconTime : UInt32) : UInt64 := beaconTime.toUInt64 * 2 * maxBackoff

/-- `duration_cast<milliseconds>`, of microseconds. -/
def millis (d : ℕ) : ℕ := d / 1000

/-- `long_listen_time - elapsed`, which floating point computes exactly, converted back to an
unsigned number. -/
def subtract (b : UInt64) (elapsed : ℕ) : Option UInt64 :=
  let left : ℤ := b.toNat - elapsed
  if left < 0 then none else some (UInt64.ofNat left.toNat)

/-- `long_listen_time` after interruptions, each after `d` microseconds of listening.  The loop
ends at zero. -/
def after : UInt64 → List ℕ → Option UInt64
  | b, [] => some b
  | b, d :: ds => if b > 0 then (subtract b (millis d)).bind fun b' => after b' ds else some b

/-- The milliseconds that are subtracted in all. -/
def spent (ds : List ℕ) : ℕ := (ds.map millis).sum

/-- However far the loop has come, `long_listen_time` has not wrapped and is at most its initial
value, and when the durations sum up to one millisecond more than the initial value, the loop
has ended. -/
def Accounted (beaconTime : UInt32) (ds : List ℕ) : Prop :=
  ∀ es, es <+: ds → ∃ b, after (longListenTime beaconTime) es = some b ∧
    b ≤ longListenTime beaconTime ∧
    (1000 * (longListenTime beaconTime).toNat + 1000 ≤ es.sum → b = 0)

/-- The milliseconds do not jump over the budget `T`. -/
def NoJump (T : ℕ) (ds : List ℕ) : Prop :=
  ∀ es d, es ++ [d] <+: ds → spent es < T → spent (es ++ [d]) ≤ T

/-- As long as the milliseconds have not used up the budget, the durations are less than one
millisecond ahead of it. -/
def Exhausts (T : ℕ) (ds : List ℕ) : Prop :=
  ∀ es, es <+: ds → spent es < T → es.sum < 1000 * T + 1000

/-! ### The value of the loop variable -/

@[simp] lemma spent_nil : spent [] = 0 := rfl

@[simp] lemma spent_cons (d : ℕ) (ds : List ℕ) : spent (d :: ds) = millis d + spent ds := rfl

lemma subtract_of_le {b : UInt64} {n : ℕ} (h : n ≤ b.toNat) :
    ∃ b', subtract b n = some b' ∧ b'.toNat = b.toNat - n := by
  have hb := b.toNat_lt
  refine ⟨UInt64.ofNat (b.toNat - n), ?_, ?_⟩
  · rw [subtract, if_neg (by omega)]
    congr 2
    omega
  · rw [UInt64.toNat_ofNat']
    omega

/-- A difference below zero has no value. -/
lemma subtract_of_lt {b : UInt64} {n : ℕ} (h : b.toNat < n) : subtract b n = none := by
  rw [subtract, if_pos (by omega)]

lemma subtract_some {b b' : UInt64} {n : ℕ} (h : subtract b n = some b') :
    n ≤ b.toNat ∧ b'.toNat = b.toNat - n := by
  rcases Nat.lt_or_ge b.toNat n with hlt | hle
  · rw [subtract_of_lt hlt] at h
    cases h
  · obtain ⟨b'', hsub, hval⟩ := subtract_of_le hle
    obtain rfl := Option.some.inj (h.symm.trans hsub)
    exact ⟨hle, hval⟩

lemma pos_iff {b : UInt64} : b > 0 ↔ 0 < b.toNat := UInt64.lt_iff_toNat_lt

/-- The first duration either uses up the budget, or leaves a smaller one for the rest. -/
lemma noJump_cons {T d : ℕ} {ds : List ℕ} (hT : 0 < T) :
    NoJump T (d :: ds) ↔ millis d ≤ T ∧ NoJump (T - millis d) ds := by
  constructor
  · intro h
    have hd : millis d ≤ T := by
      have := h [] d (List.cons_prefix_cons.mpr ⟨rfl, List.nil_prefix⟩) (by simpa using hT)
      simpa using this
    refine ⟨hd, fun es e hes hlt => ?_⟩
    have := h (d :: es) e (List.cons_prefix_cons.mpr ⟨rfl, hes⟩) (by rw [spent_cons]; omega)
    rw [List.cons_append, spent_cons] at this
    omega
  · rintro ⟨hd, h⟩ es e hes hlt
    cases es with
    | nil =>
      obtain ⟨rfl, -⟩ := List.cons_prefix_cons.mp hes
      simpa using hd
    | cons d' es =>
      obtain ⟨rfl, hrest⟩ := List.cons_prefix_cons.mp hes
      rw [spent_cons] at hlt
      have := h es e hrest (by omega)
      rw [List.cons_append, spent_cons]
      omega

/-- Without a jump, the loop variable is what the subtracted milliseconds leave. -/
lemma after_of_noJump {b : UInt64} {ds : List ℕ} (h : NoJump b.toNat ds) :
    ∃ b', after b ds = some b' ∧ b'.toNat = b.toNat - spent ds := by
  induction ds generalizing b with
  | nil => exact ⟨b, rfl, rfl⟩
  | cons d ds ih =>
    rw [after]
    split_ifs with hb
    · obtain ⟨hd, hrest⟩ := (noJump_cons (pos_iff.mp hb)).mp h
      obtain ⟨b₁, hsub, hb₁⟩ := subtract_of_le hd
      obtain ⟨b', hafter, hb'⟩ := ih (b := b₁) (hb₁ ▸ hrest)
      refine ⟨b', by rw [hsub, Option.bind_some, hafter], ?_⟩
      rw [hb', hb₁, spent_cons]
      omega
    · -- the loop has ended
      have hzero : b.toNat = 0 := Nat.eq_zero_of_not_pos fun hpos => hb (pos_iff.mpr hpos)
      exact ⟨b, rfl, by omega⟩

/-- A jump makes the loop variable wrap. -/
lemma noJump_of_after {b b' : UInt64} {ds : List ℕ} (h : after b ds = some b') :
    NoJump b.toNat ds := by
  induction ds generalizing b with
  | nil =>
    intro es d hes
    simp at hes
  | cons d ds ih =>
    rw [after] at h
    split_ifs at h with hb
    · obtain ⟨b₁, hsub, h⟩ := Option.bind_eq_some_iff.mp h
      obtain ⟨hd, hb₁⟩ := subtract_some hsub
      exact (noJump_cons (pos_iff.mp hb)).mpr ⟨hd, hb₁ ▸ ih h⟩
    · intro es e hes hlt
      have hpos : 0 < b.toNat := by omega
      exact absurd (pos_iff.mpr hpos) hb

lemma NoJump.of_prefix {T : ℕ} {es ds : List ℕ} (h : NoJump T ds) (hes : es <+: ds) :
    NoJump T es := fun fs d hfs => h fs d (hfs.trans hes)

/-- **The listening budget is accounted for** if and only if the durations, cut to milliseconds, do
not jump over it, and use it up before the durations themselves are one millisecond ahead. -/
theorem accounted_iff (beaconTime : UInt32) (ds : List ℕ) :
    Accounted beaconTime ds ↔
      NoJump (longListenTime beaconTime).toNat ds ∧
        Exhausts (longListenTime beaconTime).toNat ds := by
  constructor
  · intro h
    obtain ⟨b, hafter, -⟩ := h ds List.prefix_rfl
    have hjump := noJump_of_after hafter
    refine ⟨hjump, fun es hes hlt => ?_⟩
    obtain ⟨b', hb', -, hended⟩ := h es hes
    obtain ⟨b'', hb'', hval⟩ := after_of_noJump (hjump.of_prefix hes)
    obtain rfl := Option.some.inj (hb'.symm.trans hb'')
    -- otherwise the budget would be used up, and the listening would have ended
    by_contra hsum
    rw [hended (not_lt.mp hsum), UInt64.toNat_zero] at hval
    omega
  · rintro ⟨hjump, hexhausts⟩ es hes
    obtain ⟨b, hafter, hval⟩ := after_of_noJump (hjump.of_prefix hes)
    refine ⟨b, hafter, UInt64.le_iff_toNat_le.mpr (by omega), fun hsum => ?_⟩
    have hspent : (longListenTime beaconTime).toNat ≤ spent es := by
      by_contra hlt
      have := hexhausts es hes (not_le.mp hlt)
      omega
    exact UInt64.toNat_inj.mp (by rw [hval, UInt64.toNat_zero]; omega)

/-- A listening that is measured one millisecond too long wraps the variable, and fourteen
listenings of just under a millisecond leave a budget of twelve as it was. -/
theorem not_accounted :
    ¬ Accounted 1 [13000] ∧ ¬ Accounted 1 (List.replicate 14 999) := by
  constructor
  · intro h
    obtain ⟨b, hb, -⟩ := h [13000] List.prefix_rfl
    have hnone : after (longListenTime 1) [13000] = none := by decide
    rw [hnone] at hb
    cases hb
  · intro h
    obtain ⟨b, hb, -, hended⟩ := h (List.replicate 14 999) List.prefix_rfl
    have hafter : after (longListenTime 1) (List.replicate 14 999) = some 12 := by decide
    rw [hafter] at hb
    obtain rfl := Option.some.inj hb
    exact absurd (hended (by decide)) (by decide)

/-! ### The loop of the machine -/

/-- One interrupted listening of the machine. -/
lemma runs_longListening {L : Lock} {q : Query} {res : Name} {b n : UInt64} (hb : b > 0)
    (hn : n ≤ b) :
    (⟨L, .query q res (.long b)⟩ : Inst).Runs ⟨L, .query q res (.long (b - n))⟩ [] := by
  have hlisten : (⟨L, .query q res (.long b)⟩ : Inst).run =
      some (⟨L, .query q res (.longListening b)⟩, []) := by
    show (if b > 0 then _ else _) = _
    rw [if_pos hb]
  have helapsed : (⟨L, .query q res (.longWoken b)⟩ : Inst).step (.elapsed n) =
      some (⟨L, .query q res (.long (b - n))⟩, []) := by
    show Option.map _ (if n ≤ b then _ else _) = _
    rw [if_pos hn]
    rfl
  have hwake : (⟨L, .query q res (.longListening b)⟩ : Inst).step .wake =
      some (⟨L, .query q res (.longWoken b)⟩, []) := rfl
  exact (Inst.runs_of_run hlisten).trans
    ((Inst.runs_of_step rfl hwake).trans (Inst.runs_of_step rfl helapsed))

/-- **The machine has a run for every accounted sequence of interruptions.** -/
theorem after_runs {L : Lock} {q : Query} {res : Name} {b b' : UInt64} {ds : List ℕ}
    (h : after b ds = some b') :
    (⟨L, .query q res (.long b)⟩ : Inst).Runs ⟨L, .query q res (.long b')⟩ [] := by
  induction ds generalizing b with
  | nil =>
    obtain rfl := Option.some.inj h
    exact .refl _
  | cons d ds ih =>
    rw [after] at h
    split_ifs at h with hb
    · obtain ⟨b₁, hsub, h⟩ := Option.bind_eq_some_iff.mp h
      obtain ⟨hd, hb₁⟩ := subtract_some hsub
      have hlt := b.toNat_lt
      have hn : (UInt64.ofNat (millis d)).toNat = millis d := by
        rw [UInt64.toNat_ofNat']
        omega
      have hle : UInt64.ofNat (millis d) ≤ b := UInt64.le_iff_toNat_le.mpr (by omega)
      have hsub₁ : b - UInt64.ofNat (millis d) = b₁ := by
        apply UInt64.toNat_inj.mp
        rw [UInt64.toNat_sub_of_le _ _ hle, hn, hb₁]
      exact (hsub₁ ▸ runs_longListening hb hle).trans (ih h)
    · obtain rfl := Option.some.inj h
      exact .refl _

end Budget
end DistLock
