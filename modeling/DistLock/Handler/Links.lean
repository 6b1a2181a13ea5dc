/-
The links between observables and their listeners (`Observable.h`, `ActionListener.h`).

An observable has a list of its listeners, and a listener a list of the observables that it
listens to.  Adding and removing a listener changes both lists, `removeAllActionListeners` only
that of the observable.  So the links stay two-way as long as it is called on observables without
listeners only (`two_way_iff`); `CommHandler::stop` calls it on a handler with whatever listeners
are left.
-/
import Mathlib.Data.List.Count
import Mathlib.Data.List.Induction
import Mathlib.Logic.Function.Basic
import Mathlib.Order.Nat

namespace DistLock

variable {O A : Type} [DecidableEq O] [DecidableEq A]

/-- The lists of all `Observable`s and of all `ActionListener`s. -/
structure Links (O A : Type) where
  alList : O → List A
  obsList : A → List O

/-- A call of a function of an observable. -/
inductive LinkEvent (O A : Type)
  | add (obs : O) (al : A)
  | remove (obs : O) (al : A)
  | removeAll (obs : O)
  deriving DecidableEq

namespace Links

/-- All objects are new. -/
def start : Links O A where
  alList := fun _ => []
  obsList := fun _ => []

/-- `ActionListener::addObservable`. -/
def addObservable (S : Links O A) (al : A) (obs : O) : Links O A :=
  { S with obsList := Function.update S.obsList al (S.obsList al ++ [obs]) }

/-- `ActionListener::removeObservable`: the first occurrence is erased. -/
def removeObservable (S : Links O A) (al : A) (obs : O) : Links O A :=
  { S with obsList := Function.update S.obsList al ((S.obsList al).erase obs) }

/-- `Observable::addActionListener`. -/
def addActionListener (S : Links O A) (obs : O) (al : A) : Links O A :=
  { S with alList := Function.update S.alList obs (S.alList obs ++ [al]) }.addObservable al obs

/-- `Observable::removeActionListener`. -/
def removeActionListener (S : Links O A) (obs : O) (al : A) : Links O A :=
  let S := S.removeObservable al obs
  { S with alList := Function.update S.alList obs ((S.alList obs).erase al) }

/-- `Observable::removeAllActionListeners`. -/
def removeAllActionListeners (S : Links O A) (obs : O) : Links O A :=
  { S with alList := Function.update S.alList obs [] }

/-- What a call does. -/
def act (S : Links O A) : LinkEvent O A → Links O A
  | .add obs al => S.addActionListener obs al
  | .remove obs al => S.removeActionListener obs al
  | .removeAll obs => S.removeAllActionListeners obs

/-- What a sequence of calls does to new objects. -/
def after (es : List (LinkEvent O A)) : Links O A := es.foldl act start

/-- Every listener occurs as often in the list of an observable as the observable in its own. -/
def TwoWay (S : Links O A) : Prop :=
  ∀ obs al, (S.alList obs).count al = (S.obsList al).count obs

/-- Listeners are dropped without being told. -/
def Drops (S : Links O A) : LinkEvent O A → Prop
  | .removeAll obs => S.alList obs ≠ []
  | .add _ _ | .remove _ _ => False

/-! ### The effect of one call -/

section count

variable {α β : Type} [DecidableEq α] [DecidableEq β] (f : α → List β) (x x' : α) (y y' : β)

/-- Something is added to one of many lists. -/
lemma count_update_append :
    (Function.update f x (f x ++ [y]) x').count y' =
      (f x').count y' + if x = x' ∧ y = y' then 1 else 0 := by
  by_cases hx : x = x'
  · subst hx
    rw [Function.update_self, List.count_append, List.count_singleton]
    simp
  · rw [Function.update_of_ne (Ne.symm hx), if_neg fun h => hx h.1, Nat.add_zero]

/-- The first occurrence of something is erased from one of many lists. -/
lemma count_update_erase :
    (Function.update f x ((f x).erase y) x').count y' =
      (f x').count y' - if x = x' ∧ y = y' then 1 else 0 := by
  by_cases hx : x = x'
  · subst hx
    rw [Function.update_self, List.count_erase]
    simp
  · rw [Function.update_of_ne (Ne.symm hx), if_neg fun h => hx h.1, Nat.sub_zero]

end count

variable {S : Links O A}

lemma TwoWay.add (h : S.TwoWay) (obs : O) (al : A) : (S.addActionListener obs al).TwoWay := by
  intro obs' al'
  show (Function.update S.alList obs _ obs').count al' =
    (Function.update S.obsList al _ al').count obs'
  rw [count_update_append, count_update_append, h obs' al', if_congr and_comm rfl rfl]

lemma TwoWay.remove (h : S.TwoWay) (obs : O) (al : A) :
    (S.removeActionListener obs al).TwoWay := by
  intro obs' al'
  show (Function.update S.alList obs ((S.alList obs).erase al) obs').count al' =
    (Function.update S.obsList al _ al').count obs'
  rw [count_update_erase, count_update_erase, h obs' al', if_congr and_comm rfl rfl]

/-- The listeners that are removed all at once still have the observable in their own lists. -/
lemma TwoWay.removeAll_iff (h : S.TwoWay) (obs : O) :
    (S.removeAllActionListeners obs).TwoWay ↔ S.alList obs = [] := by
  constructor
  · intro h'
    refine List.eq_nil_iff_forall_not_mem.mpr fun al hal => ?_
    have hnone := h' obs al
    change (Function.update S.alList obs [] obs).count al = (S.obsList al).count obs at hnone
    rw [Function.update_self, List.count_nil, ← h obs al] at hnone
    exact (List.count_pos_iff.mpr hal).ne hnone
  · intro hnil obs' al'
    have hsame : Function.update S.alList obs [] = S.alList := by
      rw [← hnil, Function.update_eq_self]
    show (Function.update S.alList obs [] obs').count al' = _
    rw [hsame]
    exact h obs' al'

/-- **One call** keeps the links two-way, unless it drops listeners. -/
lemma TwoWay.act_iff (h : S.TwoWay) (e : LinkEvent O A) : (S.act e).TwoWay ↔ ¬ S.Drops e := by
  cases e with
  | add obs al => exact iff_of_true (h.add obs al) id
  | remove obs al => exact iff_of_true (h.remove obs al) id
  | removeAll obs => exact (h.removeAll_iff obs).trans not_not.symm

/-! ### Sequences of calls -/

lemma after_append (es : List (LinkEvent O A)) (e : LinkEvent O A) :
    after (es ++ [e]) = (after es).act e := by
  rw [after, after, List.foldl_append, List.foldl_cons, List.foldl_nil]

/-- **The links are two-way all along a sequence of calls** if and only if
`removeAllActionListeners` is only called on observables without listeners. -/
theorem two_way_iff (es : List (LinkEvent O A)) :
    (∀ es₁, es₁ <+: es → (after es₁).TwoWay) ↔
      ∀ es₁ e, es₁ ++ [e] <+: es → ¬ (after es₁).Drops e := by
  constructor
  · intro h es₁ e hes
    have hbefore := h es₁ ((List.prefix_append es₁ [e]).trans hes)
    exact (hbefore.act_iff e).mp (after_append es₁ e ▸ h (es₁ ++ [e]) hes)
  · intro h es₁
    induction es₁ using List.reverseRecOn with
    | nil => exact fun _ _ _ => rfl
    | append_singleton es₁ e ih =>
      intro hes
      have hbefore := ih ((List.prefix_append es₁ [e]).trans hes)
      exact after_append es₁ e ▸ (hbefore.act_iff e).mpr (h es₁ e hes)

/-- A listener that is added to an observable and dropped with all others still knows it. -/
theorem not_two_way_removeAll :
    ¬ (after [LinkEvent.add () (), .removeAll ()] : Links Unit Unit).TwoWay := by
  intro h
  exact absurd (h () ()) (by decide)

end Links
end DistLock
