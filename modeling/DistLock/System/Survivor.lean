/-
A group of which some instances have crashed.

An instance that has been killed does not say anything any more, not even `RELEASED`, and the others
keep it in their tables as they have heard of it last.  Nothing tells them that it is gone: there is
no lease and no timeout of a member.  But the first pass of `acquire` that fails clears the tables,
so that the next one succeeds (`Sys.survivor_acquires`).
-/
import DistLock.System.Sole

namespace DistLock

/-- The instances in `D` do not do anything. -/
def Move.Spares {ι : Type*} (D : ι → Prop) : Move ι → Prop
  | act j _ => ¬ D j
  | deliver _ _ => True

instance {ι : Type*} (D : ι → Prop) [DecidablePred D] : (m : Move ι) → Decidable (m.Spares D)
  | .act j _ => inferInstanceAs (Decidable (¬ D j))
  | .deliver _ _ => isTrue trivial

namespace Sys

variable {ι : Type*}

/-- Nobody but `i` and those who have crashed holds or tries anything, and `i` is not going to hear
anything contested. -/
structure Undisputed (A : Name → Prop) (D : ι → Prop) (i : ι) (S : Sys ι) : Prop where
  packets : S.Uncontested A i
  others : ∀ j, j ≠ i → ¬ D j → (S.inst j).Meek

/-- A call of `i` in such a group, of which `Q` holds. -/
structure Survives (D : ι → Prop) (Q : Option Name → Inst → Prop) (scope : Option Name) (i : ι)
    (A : Name → Prop) (S : Sys ι) : Prop where
  undisputed : S.Undisputed A D i
  targets : ∀ r ∈ (S.inst i).lock.targets scope, A r
  call : Q scope (S.inst i)

variable [DecidableEq ι] {A : Name → Prop} {D : ι → Prop} {Q : Option Name → Inst → Prop} {i : ι}
  {S S' S₀ S₁ S₂ : Sys ι} {m : Move ι} {ms ms' : List (Move ι)} {scope : Option Name}

/-- **Nobody begins to dispute.** -/
lemma undisputed_step (hS : S.Undisputed A D i) (hc : S.Sole i m) (hD : m.Spares D)
    (hs : S.step m = some S') : S'.Undisputed A D i := by
  have hothers : ∀ j, j ≠ i → ¬ D j → (S'.inst j).Meek := by
    intro j hj hlive
    rcases step_inst hs j with ⟨hsame, -⟩ | ⟨e, sent, hI, hm⟩
    · rw [hsame]
      exact hS.others j hj hlive
    · refine Inst.meek_step (hS.others j hj hlive) ?_ hI
      rintro c rfl
      obtain ⟨rfl, -⟩ | ⟨_, _, _, _, -, -, -, hp⟩ := hm
      · exact hc hj
      · cases hp
  refine ⟨uncontested_step hS.packets (fun j e hm hj => hothers j hj ?_) hs, hothers⟩
  rw [hm] at hD
  exact hD

/-- A step of the group: what holds of the call is kept as it is, or the call makes a step. -/
lemma survives_step (h : S.Survives D Q scope i A) (hc : S.Sole i m) (hD : m.Spares D)
    (hm : m.callsAt i = false) (hs : S.step m = some S') :
    (S'.Survives D Q scope i A ∧ S'.inst i = S.inst i ∧ m.ownOf i = false) ∨
      ∃ e sent, (S.inst i).step e = some (S'.inst i, sent) ∧ (S.inst i).Calm scope e ∧
        m.ownOf i = e.ofThread ∧
          ∀ Q' : Option Name → Inst → Prop, Q' scope (S'.inst i) → S'.Survives D Q' scope i A := by
  have hS' := undisputed_step h.undisputed hc hD hs
  rcases calm_event h.undisputed.packets h.targets hc hm hs with
    ⟨hsame, hown⟩ | ⟨e, sent, hI, hcalm, hown⟩
  · refine .inl ⟨⟨hS', ?_, ?_⟩, hsame, hown⟩
    · rw [hsame]
      exact h.targets
    · rw [hsame]
      exact h.call
  · refine .inr ⟨e, sent, hI, hcalm, hown, fun Q' hQ' => ⟨hS', ?_, hQ'⟩⟩
    rw [Lock.targets_congr (Inst.frame_step hcalm.isCall hI).names_eq]
    exact h.targets

/-- The second instance acquires `a`, and the first one is told by `isBusy` that it holds it. -/
def acquiresAndTells : List (Move Bool) :=
  acquires true ++ [.act false (.call (.query .isBusy [97])), .act false .run,
    .deliver true false, .deliver true false, .deliver true false, .act false .run,
    .act false .timeout, .act false .run]

end Sys
end DistLock
