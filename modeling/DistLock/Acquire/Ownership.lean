/-
How long a resource that has been acquired stays acquired.

It keeps its state through all calls that do not concern it.  A query of the resource itself
concerns it: `query_lock` assigns `QUERYING`, and nothing assigns `ACQUIRED` again
(`held_iff_not_queried`).
-/
import DistLock.Acquire.Coherent

namespace DistLock

open Lock (Keeps)

/-- The calls that do not concern the ownership of the resource. -/
def Call.Spares (res : Name) : Call → Prop
  | acquire r => r ≠ [] ∧ r ≠ res
  | release r => r ≠ res
  | releaseAll => False
  | _ => True

def Event.Spares (res : Name) : Event → Prop
  | call c => c.Spares res
  | _ => True

/-- The call of a function that queries the resource. -/
def Event.Queries (res : Name) : Event → Prop
  | call (.query _ r) => r = res
  | _ => False

instance (res : Name) : (c : Call) → Decidable (c.Spares res)
  | .acquire r => inferInstanceAs (Decidable (r ≠ [] ∧ r ≠ res))
  | .release r => inferInstanceAs (Decidable (r ≠ res))
  | .releaseAll => isFalse id
  | .defineResource _ _ | .query _ _ | .setAdquireMaxRetry _ => isTrue trivial

instance (res : Name) : (e : Event) → Decidable (e.Spares res)
  | .call c => inferInstanceAs (Decidable (c.Spares res))
  | .run | .timeout | .wake | .elapsed _ | .beacon _ | .deliver _ => isTrue trivial

namespace Inst

variable {I I' : Inst} {e : Event} {sent log : List DLPacket} {res r : Name} {s : State}
  {a : Action}

/-! ### What does not concern a resource -/

/-- The thread is inside a query of the resource. -/
def Querying (res : Name) (I : Inst) : Prop := ∃ q, I.job = some (.query q res)

/-- Unless it queries the resource, the calling thread works on others. -/
def Apart (res : Name) (I : Inst) : Prop := I.Querying res ∨ I.On (· ≠ res)

lemma apart_enter {L : Lock} {c : Call} (h : c.Spares res) : (enter L c).Apart res := by
  cases c with
  | acquire r =>
    obtain ⟨hne, hr⟩ := h
    rw [acquiring_of_adquire hne]
    exact .inr fun r' hr' => List.mem_singleton.mp hr' ▸ hr
  | release r => exact .inr fun r' hr' => List.mem_singleton.mp hr' ▸ h
  | releaseAll => exact h.elim
  | query q r =>
    by_cases hr : r = res
    · exact .inl ⟨q, by rw [job, enter, hr]⟩
    · exact .inr hr
  | _ => exact .inr trivial

lemma apart_step (he : e.isCall = false) (h : I.Apart res) (hs : I.step e = some (I', sent)) :
    I'.Apart res := by
  rcases h with ⟨q, hq⟩ | h
  · rcases job_step he hs with hj | hj
    · refine .inr ?_
      rw [job] at hj
      split at hj <;> simp only [reduceCtorEq] at hj
      next b hctl => rw [On, hctl]; trivial
    · exact .inl ⟨q, hj.trans hq⟩
  · exact .inr (on_step he h hs)

/-- The only function that works on the resource is a query. -/
lemma query_of_next (hc : I.Coherent) (h : I.Apart res) (hn : I.next = some (res, a)) :
    ∃ q, I.ctl = .query q res .start ∧ a = .setState .querying := by
  rcases h with ⟨q, hq⟩ | h
  · rw [job] at hq
    split at hq <;> simp only [Option.some.injEq, Job.query.injEq, reduceCtorEq] at hq
    next q' r pc hctl =>
      obtain ⟨rfl, rfl⟩ := hq
      cases pc with
      | start =>
        simp only [next, hctl, Option.some.injEq, Prod.mk.injEq, true_and] at hn
        exact ⟨q', hctl, hn.symm⟩
      | _ => exact absurd hn (by simp [next, hctl])
  · exact absurd rfl (on_next hc h hn)

/-- The entry of a function does not assign a state. -/
lemma has_enter {L : Lock} {c : Call} (h : L.Has s res) : (enter L c).lock.Has s res := by
  obtain ⟨R, hR, hs⟩ := Option.map_eq_some_iff.mp h
  rw [Lock.Has, Lock.stateOf, getResource_enter]
  split_ifs
  · rw [hR, ← hs, Option.map_some, recount_state]
    rfl
  · exact h

/-- The state of a resource that nothing concerns. -/
lemma has_step (hc : I.Coherent) (ha : I.Apart res) (h : I.lock.Has s res)
    (hq : ∀ q, I.ctl ≠ .query q res .start) (hs : I.step e = some (I', sent)) :
    I'.lock.Has s res := by
  rcases step_call_or hs with ⟨c, rfl, -, rfl, -⟩ | he
  · exact has_enter h
  · refine ((frame_step he hs).keeps fun _ a hn => ?_).has h
    obtain ⟨q, hctl, -⟩ := query_of_next hc ha hn
    exact hq q hctl

lemma apart_of_step (ha : I.Apart res) (he : e.Spares res) (hs : I.step e = some (I', sent)) :
    I'.Apart res := by
  rcases step_call_or hs with ⟨c, rfl, -, rfl, -⟩ | hcall
  · exact apart_enter he
  · exact apart_step hcall ha hs

/-! ### A held resource -/

lemma querying_of_step (he : ¬ e.Queries res) (hs : I.step e = some (I', sent))
    (h : I'.Querying res) : I.Querying res := by
  obtain ⟨q, hq⟩ := h
  rcases step_call_or hs with ⟨c, rfl, -, rfl, -⟩ | hcall
  · cases c with
    | query q' r =>
      simp only [job, enter, Option.some.injEq, Job.query.injEq] at hq
      exact absurd hq.2 he
    | acquire r =>
      cases r with
      | nil => rw [enter] at hq; split_ifs at hq <;> exact absurd hq (by simp [job])
      | cons b bs => exact absurd hq (by simp [job, enter])
    | _ => exact absurd hq (by simp [job, enter])
  · rcases job_step hcall hs with hj | hj
    · exact absurd (hj.symm.trans hq) (by simp)
    · exact ⟨q, hj ▸ hq⟩

/-- While nothing queries it, a held resource stays held and is announced as held. -/
lemma held_step (hn : I.lock.Named) (hc : I.Coherent) (ha : I.Apart res)
    (h : I.lock.Has .acquired res) (hq : ¬ I.Querying res) (hs : I.step e = some (I', sent)) :
    I'.lock.Has .acquired res ∧
      ∀ p ∈ sent, p.resource = res → p.state = State.acquired.toByte := by
  have h' : I'.lock.Has .acquired res := by
    refine has_step hc ha h (fun q hctl => hq ⟨q, ?_⟩) hs
    rw [job, hctl]
  refine ⟨h', fun p hp hres => ?_⟩
  obtain ⟨r, R, hR, rfl, -⟩ := mem_sent hs hp
  obtain rfl : r = res := (named_step hn hs r R hR).symm.trans hres
  rw [Lock.Has, Lock.stateOf, hR] at h'
  rw [Resource.beacon_state, ← Option.some.inj h']

/-- Once a held resource is queried, it is given up: it is `QUERYING`, or about to be. -/
def Lost (res : Name) (I : Inst) : Prop :=
  res ∈ I.lock.names ∧ (I.lock.Has .querying res ∨ ∃ q, I.ctl = .query q res .start)

lemma mem_names_step (h : res ∈ I.lock.names) (hs : I.step e = some (I', sent)) :
    res ∈ I'.lock.names := by
  rcases step_call_or hs with ⟨c, rfl, -, rfl, -⟩ | he
  · obtain ⟨R, hR⟩ := Lock.mem_names_iff.mp h
    rw [Lock.mem_names_iff, getResource_enter, hR]
    split_ifs
    · exact ⟨_, rfl⟩
    · exact ⟨R, rfl⟩
  · rwa [(frame_step he hs).names_eq]

/-- No function assigns `ACQUIRED` again. -/
lemma lost_step (hc : I.Coherent) (ha : I.Apart res) (h : I.Lost res)
    (hs : I.step e = some (I', sent)) : I'.Lost res := by
  obtain ⟨hmem, h⟩ := h
  refine ⟨mem_names_step hmem hs, ?_⟩
  by_cases hstart : ∃ q, I.ctl = .query q res .start
  · -- the query assigns its state in its first step
    obtain ⟨q, hctl⟩ := hstart
    rcases step_call_or hs with ⟨c, rfl, ⟨b, hb⟩, -, -⟩ | he
    · exact absurd (hctl.symm.trans hb) (by simp)
    · rcases step_cases he hs with ⟨rfl, hr⟩ | ⟨-, hr⟩
      · exact .inl ((frame_run hr).has (by rw [next, hctl]) hmem)
      · rcases hr with hr | hr | hr | ⟨n, hr⟩
        · exact .inr ⟨q, by rw [hr, hctl]⟩
        all_goals exact absurd hr (by simp [onWake, onTimeout, onElapsed, hctl])
  · have hq : ∀ q, I.ctl ≠ .query q res .start := fun q hctl => hstart ⟨q, hctl⟩
    exact .inl (has_step hc ha (h.resolve_right hstart) hq hs)

/-! ### Runs -/

section runs

variable {s s' : Inst × List DLPacket} {es : List Event}

/-- A run that spares a held resource and does not query it leaves it held. -/
lemma held_run (hrun : Lib.Run trace (fun _ e => e.Spares res) (I, []) es s')
    (hq : ∀ e ∈ es, ¬ e.Queries res) (hn : I.lock.Named) (hc : I.Coherent) (ha : I.Apart res)
    (hnq : ¬ I.Querying res) (h : I.lock.Has .acquired res) :
    s'.1.lock.Has .acquired res ∧
      ∀ p ∈ s'.2, p.resource = res → p.state = State.acquired.toByte := by
  have hinv := (hrun.guard hq).invariant (I := fun s => (s.1.lock.Named ∧ s.1.Coherent ∧
    s.1.Apart res ∧ ¬ s.1.Querying res) ∧ s.1.lock.Has .acquired res ∧
      ∀ p ∈ s.2, p.resource = res → p.state = State.acquired.toByte) ?_
    ⟨⟨hn, hc, ha, hnq⟩, h, by simp⟩
  · exact hinv.2
  rintro s e s' ⟨⟨hn, hc, ha, hnq⟩, hh, hl⟩ ⟨he, heq⟩ hst
  obtain ⟨⟨I₁, sent⟩, hs, rfl⟩ := Option.map_eq_some_iff.mp hst
  obtain ⟨hh', hl'⟩ := held_step hn hc ha hh hnq hs
  refine ⟨⟨named_step hn hs, coherent_step hc hs, apart_of_step ha he hs, fun hq' => ?_⟩, hh',
    fun p hp => ?_⟩
  · exact hnq (querying_of_step heq hs hq')
  · rcases List.mem_append.mp hp with hp | hp
    · exact hl p hp
    · exact hl' p hp

/-- A run that spares the resource keeps what the lemmas on single steps ask for. -/
lemma apart_run (hrun : Lib.Run trace (fun _ e => e.Spares res) s es s')
    (h : s.1.Coherent ∧ s.1.Apart res ∧ res ∈ s.1.lock.names) :
    s'.1.Coherent ∧ s'.1.Apart res ∧ res ∈ s'.1.lock.names := by
  refine hrun.invariant (I := fun s => s.1.Coherent ∧ s.1.Apart res ∧ res ∈ s.1.lock.names) ?_ h
  rintro s e s' ⟨hc, ha, hm⟩ he hst
  obtain ⟨⟨I₁, sent⟩, hs, rfl⟩ := Option.map_eq_some_iff.mp hst
  exact ⟨coherent_step hc hs, apart_of_step ha he hs, mem_names_step hm hs⟩

lemma lost_run (hrun : Lib.Run trace (fun _ e => e.Spares res) s es s')
    (h : s.1.Coherent ∧ s.1.Apart res ∧ s.1.Lost res) : s'.1.Lost res := by
  have hinv := hrun.invariant (I := fun s => s.1.Coherent ∧ s.1.Apart res ∧ s.1.Lost res) ?_ h
  · exact hinv.2.2
  rintro s e s' ⟨hc, ha, hl⟩ he hst
  obtain ⟨⟨I₁, sent⟩, hs, rfl⟩ := Option.map_eq_some_iff.mp hst
  exact ⟨coherent_step hc hs, apart_of_step ha he hs, lost_step hc ha hl hs⟩

/-- With a call that queries the resource, the resource is lost. -/
lemma lost_of_queries (hm : res ∈ I.lock.names) (hq : e.Queries res)
    (hs : I.step e = some (I', sent)) : I'.Lost res := by
  refine ⟨mem_names_step hm hs, .inr ?_⟩
  cases e with
  | call c =>
    obtain ⟨-, rfl, -⟩ := step_call hs
    cases c with
    | query q r =>
      obtain rfl : r = res := hq
      exact ⟨q, rfl⟩
    | _ => exact hq.elim
  | _ => exact hq.elim

end runs

/-- **When a held resource stays held.**  Let `res` be `ACQUIRED` when all calls have
returned, and let any events follow that do not release it.  If no function that queries `res`
is called, it stays `ACQUIRED` and every packet about it says so; and whenever all calls have
returned again, it is still `ACQUIRED` if and only if no such function has been called. -/
theorem held_iff_not_queried {id : UInt32} {beaconTime : UInt64} {es₀ es : List Event}
    {log₀ : List DLPacket} {b : Option Bool}
    (h₀ : Lib.Run trace (fun _ _ => True) (⟨Lock.new id beaconTime, .free none⟩, []) es₀ (I, log₀))
    (hfree : I.ctl = .free b) (hheld : I.lock.Has .acquired res)
    (hrun : Lib.Run trace (fun _ e => e.Spares res) (I, []) es (I', log)) :
    ((∀ e ∈ es, ¬ e.Queries res) → I'.lock.Has .acquired res ∧
      ∀ p ∈ log, p.resource = res → p.state = State.acquired.toByte) ∧
    (∀ b', I'.ctl = .free b' →
      (I'.lock.Has .acquired res ↔ ∀ e ∈ es, ¬ e.Queries res)) := by
  have hI : I.lock.Named ∧ I.Coherent := by
    refine h₀.invariant (I := fun s => s.1.lock.Named ∧ s.1.Coherent) ?_
      ⟨Lock.named_new id beaconTime, fun _ _ _ hctl => absurd hctl (by simp)⟩
    rintro s e s' ⟨hn, hc⟩ - hst
    obtain ⟨⟨I₁, sent⟩, hs, rfl⟩ := Option.map_eq_some_iff.mp hst
    exact ⟨named_step hn hs, coherent_step hc hs⟩
  have ha : I.Apart res := by
    refine .inr ?_
    rw [On, hfree]
    trivial
  have hkeep : (∀ e ∈ es, ¬ e.Queries res) → I'.lock.Has .acquired res ∧
      ∀ p ∈ log, p.resource = res → p.state = State.acquired.toByte := by
    intro hq
    have hnq : ¬ I.Querying res := by simp [Querying, job, hfree]
    exact held_run hrun hq hI.1 hI.2 ha hnq hheld
  refine ⟨hkeep, fun b' hfree' => ⟨fun hheld' e he hq => ?_, fun hq => (hkeep hq).1⟩⟩
  -- after a query the resource is lost for the rest of the run
  obtain ⟨es₁, es₂, rfl⟩ := List.append_of_mem he
  obtain ⟨s₁, h₁, h₂⟩ := hrun.append_inv
  have hb₁ := apart_run h₁ ⟨hI.2, ha, Lock.mem_names_of_stateOf hheld⟩
  cases h₂ with
  | @cons _ s₂ _ _ _ he hst hrest =>
    obtain ⟨⟨I₁, sent⟩, hs, rfl⟩ := Option.map_eq_some_iff.mp hst
    have hlost : I₁.Lost res := lost_of_queries hb₁.2.2 hq hs
    obtain ⟨-, hquerying | ⟨q, hctl⟩⟩ := lost_run hrest
      ⟨coherent_step hb₁.1 hs, apart_of_step hb₁.2.1 he hs, hlost⟩
    · exact absurd (hquerying.eq hheld') (by simp)
    · exact absurd (hctl.symm.trans hfree') (by simp)

/-- A fresh instance. -/
def fresh : Inst := ⟨Lock.new 1 50, .free none⟩

/-- An undisturbed `acquire(res)`. -/
def undisturbed (res : Name) : List Event :=
  [.call (.acquire res), .run, .run, .run, .timeout, .run, .run, .timeout, .run, .run, .run]

/-- An instance that holds the resource `a`. -/
def holder : Inst :=
  ((Lib.exec trace (fun _ _ => True) (fresh, []) (undisturbed [97])).map Prod.fst).getD fresh

/-- The resource `a` stays held while the resource `b` is acquired as well. -/
theorem held_next_to_another :
    ∃ log₀ I' log, Lib.Run trace (fun _ _ => True) (fresh, []) (undisturbed [97]) (holder, log₀) ∧
      Lib.Run trace (fun _ e => e.Spares [97]) (holder, []) (undisturbed [98] ++ [.beacon [97]])
        (I', log) ∧
      I'.lock.Has .acquired [97] := by
  have h₀ : Lib.Run trace (fun _ _ => True) (fresh, []) (undisturbed [97]) (holder, _) :=
    Lib.Run.of_exec rfl
  have hrun : Lib.Run trace (fun _ e => e.Spares [97]) (holder, [])
      (undisturbed [98] ++ [.beacon [97]]) _ := Lib.Run.of_exec rfl
  have hspared : ∀ e ∈ undisturbed [98] ++ [.beacon [97]], ¬ e.Queries [97] := by
    simp [undisturbed, Event.Queries]
  have hheld : holder.lock.Has .acquired [97] := rfl
  exact ⟨_, _, _, h₀, hrun, ((held_iff_not_queried h₀ rfl hheld hrun).1 hspared).1⟩

/-- `isBusy` of a resource that the instance itself holds. -/
theorem held_then_queried :
    ∃ log₀ I' log, Lib.Run trace (fun _ _ => True) (fresh, []) (undisturbed [97]) (holder, log₀) ∧
      holder.ctl = .free (some true) ∧ holder.lock.Has .acquired [97] ∧
      Lib.Run trace (fun _ e => e.Spares [97]) (holder, [])
        [.call (.query .isBusy [97]), .run, .run, .timeout, .run] (I', log) ∧
      I'.lock.Has .querying [97] := by
  have h₀ : Lib.Run trace (fun _ _ => True) (fresh, []) (undisturbed [97]) (holder, _) :=
    Lib.Run.of_exec rfl
  have hrun : Lib.Run trace (fun _ e => e.Spares [97]) (holder, [])
      [.call (.query .isBusy [97]), .run, .run, .timeout, .run] _ := Lib.Run.of_exec rfl
  exact ⟨_, _, _, h₀, rfl, rfl, hrun, rfl⟩

end Inst
end DistLock
