/-
Computations that keep a journal of what they do.

A computation works on a state and appends entries to a journal, which it cannot read.  Hence
what it does is the same whatever has been written before, and two computations that run one
after the other can be compared by the entries that each of them adds.
-/
import Mathlib.Logic.Basic

namespace Lib

/-- Computations on a state that append to a journal. -/
abbrev Journal (σ ω : Type) : Type → Type := StateM (σ × List ω)

namespace Journal

variable {σ ω α β : Type}

/-- Reads the state. -/
def view (f : σ → α) : Journal σ ω α := fun s => (f s.1, s)

/-- Changes the state and writes down what has been done. -/
def act (f : σ → σ) (entry : σ → ω) : Journal σ ω Unit :=
  fun s => ((), f s.1, s.2 ++ [entry s.1])

/-- What a computation returns, the state that it leaves, and the entries that it writes. -/
def exec (m : Journal σ ω α) (s : σ) : α × σ × List ω := m (s, [])

@[simp] lemma pure_apply (a : α) (s : σ × List ω) : (pure a : Journal σ ω α) s = (a, s) := rfl

@[simp] lemma bind_apply (m : Journal σ ω α) (k : α → Journal σ ω β) (s : σ × List ω) :
    (m >>= k) s = k (m s).1 (m s).2 := rfl

@[simp] lemma view_apply (f : σ → α) (s : σ × List ω) : (view f : Journal σ ω α) s = (f s.1, s) :=
  rfl

@[simp] lemma act_apply (f : σ → σ) (entry : σ → ω) (s : σ × List ω) :
    act f entry s = ((), f s.1, s.2 ++ [entry s.1]) := rfl

/-- The computation only appends to its journal. -/
def Framed (m : Journal σ ω α) : Prop :=
  ∀ s js, m (s, js) = ((m.exec s).1, (m.exec s).2.1, js ++ (m.exec s).2.2)

variable {m : Journal σ ω α} {k : α → Journal σ ω β}

lemma framed_bind (hm : Framed m) (hk : ∀ a, Framed (k a)) : Framed (m >>= k) := by
  intro s js
  rw [bind_apply, hm, hk]
  simp [exec, hk (m (s, [])).1 (m (s, [])).2.1 (m (s, [])).2.2]

/-- The entries of two computations in a row are those of the first and then those of the
second. -/
lemma exec_bind (hk : ∀ a, Framed (k a)) (s : σ) :
    (m >>= k).exec s =
      let r := m.exec s
      let r' := (k r.1).exec r.2.1
      (r'.1, r'.2.1, r.2.2 ++ r'.2.2) := by
  rw [exec, bind_apply]
  exact hk _ _ _

/-- The computation only appends to its journal and keeps a property of the state. -/
structure Keeps (P : σ → Prop) (m : Journal σ ω α) : Prop where
  framed : Framed m
  preserves : ∀ s, P s.1 → P (m s).2.1

section Keeps

variable {P : σ → Prop}

lemma keeps_pure (P : σ → Prop) (a : α) : Keeps P (pure a : Journal σ ω α) where
  framed s js := by simp [exec]
  preserves _ h := h

lemma keeps_view (P : σ → Prop) (f : σ → α) : Keeps P (view f : Journal σ ω α) where
  framed s js := by simp [exec]
  preserves _ h := h

lemma keeps_act {f : σ → σ} {entry : σ → ω} (hf : ∀ s, P s → P (f s)) :
    Keeps P (act f entry) where
  framed s js := by simp [exec]
  preserves s h := hf s.1 h

lemma keeps_bind (hm : Keeps P m) (hk : ∀ a, Keeps P (k a)) : Keeps P (m >>= k) where
  framed := framed_bind hm.framed fun a => (hk a).framed
  preserves s h := (hk _).preserves _ (hm.preserves s h)

end Keeps

end Journal
end Lib
