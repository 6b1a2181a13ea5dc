/-
Constructors that may throw.

A constructor works on a state and returns or throws, and what it has done to the state remains
when it throws.  If the part that runs over an object that has been constructed throws, this object
is destroyed on the way out; an object whose own constructor throws is not.  There is one rule
for each way of building a constructor, and by these rules one reads off all the ways in which
a constructor throws, and the states that it leaves.
-/
import Mathlib.Logic.Basic

namespace Lib

/-- Constructors with the exceptions `ε` over the states `σ`. -/
abbrev Ctor (ε σ : Type) : Type → Type := ExceptT ε (StateM σ)

namespace Ctor

variable {ε σ α β : Type}

/-- What a constructor does from a state. -/
def exec (m : Ctor ε σ α) (s : σ) : Except ε α × σ := m s

/-- The constructor returns a value and leaves a state. -/
def Returns (m : Ctor ε σ α) (s : σ) (a : α) (s' : σ) : Prop := m.exec s = (.ok a, s')

/-- The constructor throws an exception and leaves a state. -/
def Throws (m : Ctor ε σ α) (s : σ) (e : ε) (s' : σ) : Prop := m.exec s = (.error e, s')

/-- A step that always returns. -/
def effect (f : σ → σ) : Ctor ε σ Unit := fun s => (.ok (), f s)

/-- A system call: if it fails, something is cleaned up and an exception thrown. -/
def check (ok : Bool) (cleanup : σ → σ) (e : ε) : Ctor ε σ Unit := fun s =>
  if ok then (.ok (), s) else (.error e, cleanup s)

/-- A system call that gives a value, or fails. -/
def acquire (r : Option α) (e : ε) : Ctor ε σ α := fun s =>
  match r with
  | some a => (.ok a, s)
  | none => (.error e, s)

/-- What runs while an object with the destructor `dtor` exists. -/
def holding (dtor : σ → σ) (m : Ctor ε σ α) : Ctor ε σ α := fun s =>
  match m.exec s with
  | (.ok a, s') => (.ok a, s')
  | (.error e, s') => (.error e, dtor s')

/-- A block that catches exceptions and throws others in their place. -/
def rethrow (f : ε → ε) (m : Ctor ε σ α) : Ctor ε σ α := fun s =>
  match m.exec s with
  | (.ok a, s') => (.ok a, s')
  | (.error e, s') => (.error (f e), s')

variable {m : Ctor ε σ α} {k : α → Ctor ε σ β} {s s' : σ} {a : α} {b : β} {e : ε}
  {f : σ → σ} {ok : Bool} {r : Option α}

section bind

lemma exec_bind (m : Ctor ε σ α) (k : α → Ctor ε σ β) (s : σ) :
    (m >>= k).exec s = match m.exec s with
      | (.ok a, s₁) => (k a).exec s₁
      | (.error e, s₁) => (.error e, s₁) := by
  show (ExceptT.bindCont k (m.exec s).1 : StateM σ (Except ε β)) (m.exec s).2 = _
  rcases m.exec s with ⟨_ | _, s₁⟩ <;> rfl

lemma returns_bind_iff : (m >>= k).Returns s b s' ↔
    ∃ a s₁, m.Returns s a s₁ ∧ (k a).Returns s₁ b s' := by
  simp only [Returns, exec_bind]
  rcases m.exec s with ⟨e₁ | a, s₁⟩
  · simp
  · refine ⟨fun h => ⟨a, s₁, rfl, h⟩, ?_⟩
    rintro ⟨a', s₂, hr, h⟩
    cases hr
    exact h

/-- Two parts in a row throw if the first one does, or the second one after it. -/
lemma throws_bind_iff : (m >>= k).Throws s e s' ↔
    m.Throws s e s' ∨ ∃ a s₁, m.Returns s a s₁ ∧ (k a).Throws s₁ e s' := by
  simp only [Throws, Returns, exec_bind]
  rcases m.exec s with ⟨e₁ | a, s₁⟩
  · simp
  · refine ⟨fun h => .inr ⟨a, s₁, rfl, h⟩, ?_⟩
    rintro (hr | ⟨a', s₂, hr, h⟩)
    · cases hr
    · cases hr
      exact h

end bind

@[simp] lemma returns_pure_iff {a' : α} :
    (pure a : Ctor ε σ α).Returns s a' s' ↔ a = a' ∧ s = s' := by
  show ((Except.ok a : Except ε α), s) = (.ok a', s') ↔ _
  simp

@[simp] lemma not_throws_pure : ¬ (pure a : Ctor ε σ α).Throws s e s' := by
  intro h
  cases h

@[simp] lemma returns_effect_iff {u : Unit} :
    (effect f : Ctor ε σ Unit).Returns s u s' ↔ f s = s' := by
  show ((Except.ok () : Except ε Unit), f s) = (.ok u, s') ↔ _
  simp

@[simp] lemma not_throws_effect : ¬ (effect f : Ctor ε σ Unit).Throws s e s' := by
  intro h
  cases h

@[simp] lemma returns_check_iff {u : Unit} {e₀ : ε} :
    (check ok f e₀).Returns s u s' ↔ ok = true ∧ s = s' := by
  cases ok <;> simp [check, Returns, exec]

/-- A failed call leaves what its clean-up leaves. -/
@[simp] lemma throws_check_iff {e₀ : ε} :
    (check ok f e₀).Throws s e s' ↔ ok = false ∧ e₀ = e ∧ f s = s' := by
  cases ok <;> simp [check, Throws, exec]

@[simp] lemma returns_acquire_iff {e₀ : ε} :
    (acquire r e₀ : Ctor ε σ α).Returns s a s' ↔ r = some a ∧ s = s' := by
  cases r <;> simp [acquire, Returns, exec]

@[simp] lemma throws_acquire_iff {e₀ : ε} :
    (acquire r e₀ : Ctor ε σ α).Throws s e s' ↔ r = none ∧ e₀ = e ∧ s = s' := by
  cases r <;> simp [acquire, Throws, exec]

@[simp] lemma returns_holding_iff : (holding f m).Returns s a s' ↔ m.Returns s a s' := by
  rw [Returns, Returns, exec, holding]
  rcases m.exec s with ⟨_ | _, _⟩ <;> simp

/-- On the way out the object is destroyed. -/
lemma throws_holding_iff : (holding f m).Throws s e s' ↔ ∃ s₁, m.Throws s e s₁ ∧ f s₁ = s' := by
  simp only [Throws]
  rw [exec, holding]
  rcases m.exec s with ⟨e₁ | a, s₁⟩
  · constructor
    · intro h
      cases h
      exact ⟨s₁, rfl, rfl⟩
    · rintro ⟨s₂, h, rfl⟩
      cases h
      rfl
  · simp

@[simp] lemma returns_rethrow_iff {g : ε → ε} :
    (rethrow g m).Returns s a s' ↔ m.Returns s a s' := by
  rw [Returns, Returns, exec, rethrow]
  rcases m.exec s with ⟨_ | _, _⟩ <;> simp

lemma throws_rethrow_iff {g : ε → ε} :
    (rethrow g m).Throws s e s' ↔ ∃ e₁, m.Throws s e₁ s' ∧ g e₁ = e := by
  simp only [Throws]
  rw [exec, rethrow]
  rcases m.exec s with ⟨e₁ | a, s₁⟩
  · constructor
    · intro h
      cases h
      exact ⟨e₁, rfl, rfl⟩
    · rintro ⟨e₂, h, rfl⟩
      cases h
      rfl
  · simp

end Ctor
end Lib
