/-
Runs of a partial step function.

A system is given by a step function `step : σ → ε → Option σ` and a guard `ok` that says
which events its environment may choose in a state.  A run is a finite sequence of
admissible events; an invariant is proved for one step and holds along every run, and a
simulation of the single steps lifts to the runs.
-/
import Mathlib.Data.Nat.Notation
import Mathlib.Logic.Relation

namespace Lib

variable {σ ε τ : Type*}

/-- `Run step ok s es s'`: the events `es` lead from `s` to `s'`, and each of them is
admissible in the state in which it happens. -/
inductive Run (step : σ → ε → Option σ) (ok : σ → ε → Prop) : σ → List ε → σ → Prop
  | nil (s : σ) : Run step ok s [] s
  | cons {s s₁ s' : σ} {e : ε} {es : List ε} (he : ok s e) (hs : step s e = some s₁)
      (h : Run step ok s₁ es s') : Run step ok s (e :: es) s'

namespace Run

variable {step : σ → ε → Option σ} {ok : σ → ε → Prop} {s s' s'' : σ} {es fs : List ε} {e : ε}

/-- What holds initially and is preserved by every admissible step holds after every run. -/
theorem invariant {I : σ → Prop}
    (hstep : ∀ s e s', I s → ok s e → step s e = some s' → I s')
    (h : Run step ok s es s') (h₀ : I s) : I s' := by
  induction h with
  | nil => exact h₀
  | cons he hs _ ih => exact ih (hstep _ _ _ h₀ he hs)

/-- A run may be guarded by whatever holds of each of its events. -/
theorem guard {P : ε → Prop} (h : Run step ok s es s') (hP : ∀ e ∈ es, P e) :
    Run step (fun s e => ok s e ∧ P e) s es s' := by
  induction h with
  | nil => exact nil _
  | cons he hs _ ih =>
    exact cons ⟨he, hP _ List.mem_cons_self⟩ hs (ih fun e he => hP e (List.mem_cons_of_mem _ he))

theorem append (h : Run step ok s es s') (h' : Run step ok s' fs s'') :
    Run step ok s (es ++ fs) s'' := by
  induction h with
  | nil => exact h'
  | cons he hs _ ih => exact cons he hs (ih h')

/-- A run splits wherever its list of events does. -/
theorem append_inv (h : Run step ok s (es ++ fs) s') :
    ∃ s₁, Run step ok s es s₁ ∧ Run step ok s₁ fs s' := by
  induction es generalizing s with
  | nil => exact ⟨s, nil s, h⟩
  | cons e es ih =>
    cases h with
    | cons he hs h =>
      obtain ⟨s₁, h₁, h₂⟩ := ih h
      exact ⟨s₁, cons he hs h₁, h₂⟩

/-- The steps are functions, so a list of events leads to one state only. -/
theorem unique {ok' : σ → ε → Prop} (h : Run step ok s es s') (h' : Run step ok' s es s'') :
    s' = s'' := by
  induction h with
  | nil =>
    cases h'
    rfl
  | cons _ hs _ ih =>
    cases h' with
    | cons _ hs' h' =>
      obtain rfl := Option.some.inj (hs.symm.trans hs')
      exact ih h'

/-- A weaker guard admits the same run. -/
theorem mono {ok' : σ → ε → Prop} (hok : ∀ s e, ok s e → ok' s e) (h : Run step ok s es s') :
    Run step ok' s es s' := by
  induction h with
  | nil => exact nil _
  | cons he hs _ ih => exact cons (hok _ _ he) hs ih

/-- An invariant may be used as a guard. -/
theorem guard_invariant {I : σ → Prop}
    (hstep : ∀ s e s', I s → ok s e → step s e = some s' → I s')
    (h : Run step ok s es s') (h₀ : I s) : Run step (fun s e => ok s e ∧ I s) s es s' := by
  induction h with
  | nil => exact nil _
  | cons he hs _ ih => exact cons ⟨he, h₀⟩ hs (ih (hstep _ _ _ h₀ he hs))

/-- What holds all along a run holds now and all along the rest. -/
theorem forall_prefix_cons {P : σ → Prop} {s₁ : σ} (he : ok s e) (hs : step s e = some s₁) :
    (∀ es₁ s₂, es₁ <+: e :: es → Run step ok s es₁ s₂ → P s₂) ↔
      P s ∧ ∀ es₁ s₂, es₁ <+: es → Run step ok s₁ es₁ s₂ → P s₂ := by
  constructor
  · intro h
    refine ⟨h [] s List.nil_prefix (nil s), fun es₁ s₂ hes h₁ => ?_⟩
    exact h (e :: es₁) s₂ (List.cons_prefix_cons.mpr ⟨rfl, hes⟩) (cons he hs h₁)
  · rintro ⟨hP, h⟩ es₁ s₂ hes h₁
    cases h₁ with
    | nil => exact hP
    | cons _ hs₁ h₁ =>
      -- the steps are functions, so both runs are in the same state
      obtain ⟨rfl, hpre⟩ := List.cons_prefix_cons.mp hes
      obtain rfl := Option.some.inj (hs.symm.trans hs₁)
      exact h _ s₂ hpre h₁

/-- If what holds is kept by exactly those steps that meet a condition, then it holds all along
a run if and only if every step of the run meets the condition. -/
theorem forall_prefix_iff {I P : σ → Prop} {C : σ → ε → Prop}
    (hI : ∀ s e s', I s → ok s e → step s e = some s' → I s')
    (hstep : ∀ s e s', I s → P s → ok s e → step s e = some s' → (P s' ↔ C s e))
    (h : Run step ok s es s') (h₀ : I s) (hP : P s) :
    (∀ es₁ s₁, es₁ <+: es → Run step ok s es₁ s₁ → P s₁) ↔
      Run step (fun s e => ok s e ∧ C s e) s es s' := by
  induction h with
  | nil s =>
    refine ⟨fun _ => nil s, fun _ es₁ s₁ hes h₁ => ?_⟩
    obtain rfl := List.prefix_nil.mp hes
    cases h₁
    exact hP
  | @cons s s₁ s' e es he hs _ ih =>
    have hP' := hstep _ _ _ h₀ hP he hs
    rw [forall_prefix_cons he hs, and_iff_right hP]
    constructor
    · intro hall
      have hP₁ : P s₁ := hall [] s₁ List.nil_prefix (nil s₁)
      exact cons ⟨he, hP'.mp hP₁⟩ hs ((ih (hI _ _ _ h₀ he hs) hP₁).mp hall)
    · intro hC
      cases hC with
      | cons heC hsC hC =>
        obtain rfl := Option.some.inj (hs.symm.trans hsC)
        exact (ih (hI _ _ _ h₀ he hs) (hP'.mpr heC.2)).mpr hC

/-- What does not hold at the beginning of a run, but at its end, begins to hold with one of its
steps. -/
theorem exists_step {P : σ → Prop} (h : Run step ok s es s') (h₀ : ¬ P s) (hP : P s') :
    ∃ es₁ e es₂ s₁ s₂, es = es₁ ++ e :: es₂ ∧ Run step ok s es₁ s₁ ∧ ¬ P s₁ ∧ ok s₁ e ∧
      step s₁ e = some s₂ ∧ P s₂ ∧ Run step ok s₂ es₂ s' := by
  induction h with
  | nil => exact absurd hP h₀
  | @cons s s₁ s' e es he hs h ih =>
    by_cases hP₁ : P s₁
    · exact ⟨[], e, es, s, s₁, rfl, nil s, h₀, he, hs, hP₁, h⟩
    · obtain ⟨es₁, e', es₂, s₂, s₃, rfl, h₁, hn, he', hs', hP', h₂⟩ := ih hP₁ hP
      exact ⟨e :: es₁, e', es₂, s₂, s₃, rfl, cons he hs h₁, hn, he', hs', hP', h₂⟩

/-- If the events of one kind make a measure smaller and the others do not make it larger, then
the measure bounds how many events of this kind there are. -/
theorem countP_add_le {I : σ → Prop} {μ : σ → ℕ} (own : ε → Bool)
    (hstep : ∀ s e s', I s → ok s e → step s e = some s' → I s' ∧ μ s' + (own e).toNat ≤ μ s)
    (h : Run step ok s es s') (h₀ : I s) : I s' ∧ es.countP own + μ s' ≤ μ s := by
  induction h with
  | nil => exact ⟨h₀, Nat.le_of_eq (Nat.zero_add _)⟩
  | @cons s s₁ s' e es he hs _ ih =>
    obtain ⟨h₁, hfirst⟩ := hstep _ _ _ h₀ he hs
    obtain ⟨h', hrest⟩ := ih h₁
    refine ⟨h', ?_⟩
    cases ho : own e with
    | true =>
      rw [ho, Bool.toNat_true] at hfirst
      rw [List.countP_cons_of_pos ho]
      omega
    | false =>
      rw [List.countP_cons_of_neg (by simp [ho])]
      omega

/-- The same when the system passes from one phase to another, which has a measure of its own. -/
theorem countP_le_of_phases {I J : σ → Prop} {μ ν : σ → ℕ} (own : ε → Bool)
    (hI : ∀ s e s', I s → ok s e → step s e = some s' → I s' ∧ μ s' + (own e).toNat ≤ μ s)
    (hJ : ∀ s e s', J s → ok s e → step s e = some s' →
      (I s' ∧ μ s' + (own e).toNat ≤ ν s) ∨ (J s' ∧ ν s' + (own e).toNat ≤ ν s))
    (h : Run step ok s es s') (h₀ : J s) : (I s' ∨ J s') ∧ es.countP own ≤ ν s := by
  induction h with
  | nil => exact ⟨.inr h₀, Nat.zero_le _⟩
  | @cons s s₁ s' e es he hs h ih =>
    have hcons : (e :: es).countP own = es.countP own + (own e).toNat := by
      cases ho : own e <;> simp [ho]
    rw [hcons]
    rcases hJ _ _ _ h₀ he hs with ⟨h₁, hle⟩ | ⟨h₁, hle⟩
    · obtain ⟨h', hrest⟩ := h.countP_add_le own hI h₁
      exact ⟨.inl h', by omega⟩
    · obtain ⟨h', hrest⟩ := ih h₁
      exact ⟨h', by omega⟩

/-- If every admissible step makes a measure smaller, a run is no longer than the measure allows. -/
theorem length_add_le {I : σ → Prop} {μ : σ → ℕ}
    (hI : ∀ s e s', I s → ok s e → step s e = some s' → I s')
    (hμ : ∀ s e s', I s → ok s e → step s e = some s' → μ s' < μ s)
    (h : Run step ok s es s') (h₀ : I s) : es.length + μ s' ≤ μ s := by
  have hcount := (h.countP_add_le (I := I) (μ := μ) (fun _ => true)
    (fun s e s' hs he hst => ⟨hI s e s' hs he hst, hμ s e s' hs he hst⟩) h₀).2
  rwa [List.countP_true] at hcount

/-- If every admissible step of the concrete system is matched by steps of the abstract one,
so is every run. -/
theorem simulate {T : τ → τ → Prop} {R : σ → τ → Prop}
    (hstep : ∀ s e s' t, R s t → ok s e → step s e = some s' →
      ∃ t', Relation.ReflTransGen T t t' ∧ R s' t')
    (h : Run step ok s es s') {t : τ} (h₀ : R s t) :
    ∃ t', Relation.ReflTransGen T t t' ∧ R s' t' := by
  induction h generalizing t with
  | nil => exact ⟨t, .refl, h₀⟩
  | cons he hs _ ih =>
    obtain ⟨t₁, ht₁, hR₁⟩ := hstep _ _ _ _ h₀ he hs
    obtain ⟨t', ht', hR'⟩ := ih hR₁
    exact ⟨t', ht₁.trans ht', hR'⟩

/-- If some events leave a view of the state alone and the others act on the view, then the view
makes a run with these others only. -/
theorem project {I : σ → Prop} (view : σ → τ) {stepV : τ → ε → Option τ} {own : ε → Bool}
    (hI : ∀ s e s', I s → ok s e → step s e = some s' → I s')
    (hown : ∀ s e s', I s → ok s e → own e = true → step s e = some s' →
      stepV (view s) e = some (view s'))
    (hother : ∀ s e s', I s → ok s e → own e = false → step s e = some s' → view s' = view s)
    (h : Run step ok s es s') (h₀ : I s) :
    Run stepV (fun _ _ => True) (view s) (es.filter own) (view s') := by
  induction h with
  | nil => exact nil _
  | @cons s s₁ s' e es he hs _ ih =>
    have hrest := ih (hI _ _ _ h₀ he hs)
    cases ho : own e with
    | true =>
      rw [List.filter_cons_of_pos ho]
      exact cons trivial (hown _ _ _ h₀ he ho hs) hrest
    | false =>
      rw [List.filter_cons_of_neg (by simp [ho]), ← hother _ _ _ h₀ he ho hs]
      exact hrest

end Run

/-- The state that a list of events leads to, when each of them is admissible and enabled. -/
def exec (step : σ → ε → Option σ) (ok : σ → ε → Prop) [∀ s e, Decidable (ok s e)] :
    σ → List ε → Option σ
  | s, [] => some s
  | s, e :: es => if ok s e then (step s e).bind fun s₁ => exec step ok s₁ es else none

theorem Run.of_exec {step : σ → ε → Option σ} {ok : σ → ε → Prop}
    [∀ s e, Decidable (ok s e)] {es : List ε} {s s' : σ}
    (h : exec step ok s es = some s') : Run step ok s es s' := by
  induction es generalizing s with
  | nil =>
    obtain rfl : s = s' := by simpa [exec] using h
    exact .nil s
  | cons e es ih =>
    rw [exec] at h
    split at h
    case isTrue he =>
      obtain ⟨s₁, hs, h⟩ := Option.bind_eq_some_iff.mp h
      exact .cons he hs (ih h)
    case isFalse => exact absurd h (by simp)

/-- If the guard does not depend on the state, then a run is a fold of the steps. -/
theorem run_iff_foldlM {step : σ → ε → Option σ} {P : ε → Prop} {es : List ε} {s s' : σ} :
    Run step (fun _ e => P e) s es s' ↔ (∀ e ∈ es, P e) ∧ es.foldlM step s = some s' := by
  constructor
  · intro h
    induction h with
    | nil => exact ⟨fun e he => absurd he List.not_mem_nil, rfl⟩
    | cons he hs _ ih =>
      refine ⟨List.forall_mem_cons.mpr ⟨he, ih.1⟩, ?_⟩
      rw [List.foldlM_cons, hs]
      exact ih.2
  · rintro ⟨hP, h⟩
    induction es generalizing s with
    | nil =>
      obtain rfl := Option.some.inj h
      exact .nil s
    | cons e es ih =>
      obtain ⟨s₁, hs, h⟩ := Option.bind_eq_some_iff.mp h
      obtain ⟨he, hP⟩ := List.forall_mem_cons.mp hP
      exact .cons he hs (ih hP h)

/-! ### What can be seen of a run -/

section visible

variable {α : Type*} {step : σ → ε → Option σ} {vis : σ → ε → Option α}

/-- The steps of a system with a record of what can be seen of them. -/
def tracedStep (step : σ → ε → Option σ) (vis : σ → ε → Option α) (s : σ × List α) (e : ε) :
    Option (σ × List α) :=
  (step s.1 e).map fun s' => (s', s.2 ++ (vis s.1 e).toList)

/-- The record may be forgotten. -/
theorem Run.of_traced {ok : σ → ε → Prop} {es : List ε} {s s' : σ × List α}
    (h : Run (tracedStep step vis) (fun s e => ok s.1 e) s es s') : Run step ok s.1 es s'.1 := by
  induction h with
  | nil => exact nil _
  | cons he hs _ ih =>
    obtain ⟨s₁, hs₁, rfl⟩ := Option.map_eq_some_iff.mp hs
    exact cons he hs₁ ih

/-- If the visible events determine how the view of a state changes, then they determine the
view of the state that is reached. -/
theorem Run.view_eq {ok : σ → ε → Prop} {I : σ → Prop} {view : σ → τ} {abs : τ → α → Option τ}
    (hI : ∀ s e s', I s → ok s e → step s e = some s' → I s')
    (hstep : ∀ s e s', I s → ok s e → step s e = some s' →
      (vis s e).elim (view s' = view s) fun a => abs (view s) a = some (view s'))
    {s s' : σ} {es : List ε} {tr tr' : List α} {t : τ} (h₀ : I s)
    (h : Run (tracedStep step vis) (fun s e => ok s.1 e) (s, tr) es (s', tr'))
    (htr : tr.foldlM abs t = some (view s)) : tr'.foldlM abs t = some (view s') := by
  have hinv : I s' ∧ tr'.foldlM abs t = some (view s') := by
    refine h.invariant (I := fun s => I s.1 ∧ s.2.foldlM abs t = some (view s.1)) ?_ ⟨h₀, htr⟩
    rintro ⟨s, tr⟩ e s'' ⟨hs, htr⟩ hok hst
    obtain ⟨s', hs', rfl⟩ := Option.map_eq_some_iff.mp hst
    refine ⟨hI s e s' hs hok hs', ?_⟩
    have hview := hstep s e s' hs hok hs'
    show (tr ++ (vis s e).toList).foldlM abs t = some (view s')
    rw [List.foldlM_append, htr]
    cases hv : vis s e with
    | none =>
      rw [hv] at hview
      simpa using hview.symm
    | some a =>
      rw [hv] at hview
      simpa using hview
  exact hinv.2

end visible

end Lib
