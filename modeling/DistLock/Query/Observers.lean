/-
Observers are invisible, up to `isAny` and to the length of the listening.

Two runs of an instance are compared that differ in the packets of observers.  Outside queries
the observers' packets make no difference at all.  A query listens longer when it hears
something, and so its runs are compared by what can be seen of them (`Inst.visible`): the calls,
the steps outside the listening, the packets of the others, and the end of the listening.  Runs
that look the same send the same packets and give the same results, except that `isAny` counts
the observers as well.
-/
import Mathlib.Data.List.Forall2
import DistLock.Lib.Run
import DistLock.Query.Erase

namespace DistLock

open Lib (OrdMap)

variable {obs : UInt32 → Bool}

/-- The observers only query. -/
def Event.Discreet (obs : UInt32 → Bool) : Event → Prop
  | .deliver p => obs p.memberId = true → State.ofByte p.state = .querying
  | _ => True

instance : (e : Event) → Decidable (e.Discreet obs)
  | .deliver p => inferInstanceAs (Decidable (obs p.memberId = true → _))
  | .call _ | .run | .timeout | .wake | .elapsed _ | .beacon _ => isTrue trivial

/-- The delivery of a packet of an observer. -/
def Event.isObserved (obs : UInt32 → Bool) : Event → Bool
  | .deliver p => obs p.memberId
  | _ => false

/-- The call of a query. -/
def Event.isQuery : Event → Bool
  | .call (.query _ _) => true
  | _ => false

/-- The query is somewhere in its listening. -/
def QueryPc.outline : QueryPc → QueryPc
  | start => .start
  | collect => .collect
  | _ => .short

/-- The position of the thread, without the progress of the listening and without the last
result. -/
def Ctl.outline : Ctl → Ctl
  | free _ => .free none
  | query q res pc => .query q res pc.outline
  | ctl => ctl

namespace Inst

/-- The query in which the thread is. -/
def asks (I : Inst) : Option Query :=
  match I.ctl with
  | .query q _ _ => some q
  | _ => none

/-- The result that is returned by a step from `I` to `I'`, with the query that it answers. -/
def result (I : Inst) (e : Event) (I' : Inst) : List (Option Query × Option Bool) :=
  match e, I'.ctl with
  | .call _, .free b => [(I.asks, b)]
  | .run, .free b => [(I.asks, b)]
  | _, _ => []

/-- What can be seen of a step: the progress of the listening and the packets of observers
cannot, and the listening ends by a timeout or because its time is over. -/
def visible (obs : UInt32 → Bool) (I : Inst) : Event → Option Event
  | .deliver p => if obs p.memberId then none else some (.deliver p)
  | .run =>
    match I.ctl with
    | .query _ _ .short => none
    | .query _ _ (.long b) => if b > 0 then none else some .timeout
    | _ => some .run
  | .wake => if I.waitsOn = some .anyCv then none else some .wake
  | .elapsed _ => none
  | e => some e

/-- The instance without the observers and without the progress of the listening. -/
def outline (obs : UInt32 → Bool) (I : Inst) : Inst := ⟨I.lock.erase obs, I.ctl.outline⟩

end Inst

/-- An instance with everything that it has broadcast and every result that it has returned. -/
structure Session where
  inst : Inst
  sent : List DLPacket
  results : List (Option Query × Option Bool)

/-- The result of `isAny` is left open. -/
def mask : Option Query × Option Bool → Option Query × Option Bool
  | (some .isAny, _) => (some .isAny, none)
  | r => r

namespace Session

def step (s : Session) (e : Event) : Option Session :=
  (s.inst.step e).map fun r => ⟨r.1, s.sent ++ r.2, s.results ++ s.inst.result e r.1⟩

def visible (obs : UInt32 → Bool) (s : Session) : Event → Option Event := s.inst.visible obs

def outline (obs : UInt32 → Bool) (s : Session) : Session :=
  ⟨s.inst.outline obs, s.sent, s.results.map mask⟩

/-- A visible step of a session in which the listening is one long wait. -/
def outlineStep (s : Session) (e : Event) : Option Session :=
  match s.inst.ctl, e with
  | .query q res .short, .timeout => some { s with inst := ⟨s.inst.lock, .query q res .collect⟩ }
  | .query _ _ .short, .deliver p => some { s with inst := s.inst.hear p }
  | _, e => (s.inst.step e).map fun r =>
    ⟨⟨r.1.lock, r.1.ctl.outline⟩, s.sent ++ r.2, s.results ++ (s.inst.result e r.1).map mask⟩

end Session

namespace Inst

variable {I I' : Inst} {e : Event} {sent : List DLPacket} {q : Query} {res : Name} {pc : QueryPc}

/-- The listening goes on when it is interrupted. -/
lemma outline_onWake (hctl : I.ctl = .query q res pc) (h : I.onWake = some I') :
    I'.ctl.outline = .query q res .short ∧ I.ctl.outline = .query q res .short := by
  unfold onWake at h
  rw [hctl] at h
  split at h <;> simp_all [Ctl.outline, QueryPc.outline]
  all_goals
    subst h
    trivial

/-- Observers interrupt the listening of a query, and nothing else. -/
lemma notify_anyCv (I : Inst) :
    I.notify .anyCv = I ∨
      ∃ q res pc, I.ctl = .query q res pc ∧ I.onWake = some (I.notify .anyCv) := by
  rcases I.notify_cases .anyCv with h | h
  · exact .inl h
  · by_cases hw : I.waitsOn = some .anyCv
    · refine .inr ?_
      unfold waitsOn at hw
      split at hw <;> simp only [Option.some.injEq, reduceCtorEq] at hw
      next q res hctl => exact ⟨q, res, _, hctl, h⟩
      next q res b hctl => exact ⟨q, res, _, hctl, h⟩
    · exact .inl (if_neg hw)

/-- The packet of an observer cannot be seen. -/
lemma outline_of_obs {p : DLPacket} (h : obs p.memberId = true)
    (hp : State.ofByte p.state = .querying) :
    (I.actionPerformed p).outline obs = I.outline obs := by
  have hctl : (I.actionPerformed p).ctl.outline = I.ctl.outline := by
    rcases actionPerformed_of_obs (I := I) h hp with hI | hI
    · exact congrArg (fun J => J.ctl.outline) hI
    · refine (congrArg (fun J => J.ctl.outline) hI).trans ?_
      rcases (I.erase obs).notify_anyCv with hn | ⟨q, res, pc, hctl, hn⟩
      · rw [hn]
        rfl
      · obtain ⟨h₁, h₂⟩ := outline_onWake hctl hn
        exact h₁.trans h₂.symm
  have hlock : (I.actionPerformed p).lock.erase obs = I.lock.erase obs := by
    rcases actionPerformed_of_obs (I := I) h hp with hI | hI
    · exact congrArg Inst.lock hI
    · refine (congrArg Inst.lock hI).trans ?_
      rcases (I.erase obs).notify_cases .anyCv with hn | hn
      · rw [hn]
        rfl
      · exact onWake_lock hn
  rw [outline, hctl, hlock]
  rfl

/-- What another participant sends is recorded in the listening. -/
lemma outline_listening {p : DLPacket} (h : obs p.memberId = false) (hctl : I.ctl = .query q res pc)
    (hpc : I.ctl.outline = .query q res .short) :
    (I.actionPerformed p).outline obs = (I.outline obs).hear p := by
  have hout : (I.actionPerformed p).ctl.outline = .query q res .short := by
    rcases I.actionPerformed_cases p with hp | hp
    · rw [hp, hear_ctl, hpc]
    · exact (outline_onWake (by rw [hear_ctl, hctl]) hp).1
  have hlock : (I.actionPerformed p).lock.erase obs = ((I.erase obs).hear p).lock := by
    rw [← actionPerformed_lock, actionPerformed_erase h]
    rfl
  rw [outline, hout, hlock, outline, hpc]
  exact ((I.erase obs).hear_of_ctl p _).symm

end Inst

namespace Session

variable {s s' : Session} {e : Event} {I : Inst}

/-- Outside the listening the outline takes the step itself. -/
lemma outlineStep_eq (h : ∀ q res, s.inst.ctl ≠ .query q res .short) :
    s.outlineStep e = (s.inst.step e).map fun r =>
      ⟨⟨r.1.lock, r.1.ctl.outline⟩, s.sent ++ r.2,
        s.results ++ (s.inst.result e r.1).map mask⟩ := by
  unfold outlineStep
  split
  · next q res hctl => exact absurd hctl (h q res)
  · next q res p hctl => exact absurd hctl (h q res)
  · rfl

lemma result_erase {I' : Inst} :
    (I.erase obs).result e (I'.erase obs) = I.result e I' := rfl

/-- A step that commutes with erasing the observers. -/
lemma outlineStep_of_erase (hctl : s.inst.ctl.outline = s.inst.ctl)
    (hne : ∀ q res, s.inst.ctl ≠ .query q res .short)
    (herase : (s.inst.erase obs).step e = (s.inst.step e).map (Inst.eraseStep obs))
    (hs : s.step e = some s') : (s.outline obs).outlineStep e = some (s'.outline obs) := by
  have hinst : (s.outline obs).inst = s.inst.erase obs := by
    rw [outline, Inst.outline, hctl]
    rfl
  obtain ⟨r, hr, rfl⟩ := Option.map_eq_some_iff.mp hs
  rw [outlineStep_eq (by rw [hinst]; exact hne), hinst, herase, hr]
  simp [outline, Inst.eraseStep, result_erase, Inst.outline]

/-- A step of a thread that is in no function. -/
lemma outlineStep_free {b : Option Bool} (hctl : s.inst.ctl = .free b)
    (herase : (s.inst.erase obs).step e = (s.inst.step e).map (Inst.eraseStep obs))
    (hs : s.step e = some s') : (s.outline obs).outlineStep e = some (s'.outline obs) := by
  obtain ⟨⟨L, ctl⟩, sent, results⟩ := s
  obtain rfl : ctl = .free b := hctl
  obtain ⟨r, hr, rfl⟩ := Option.map_eq_some_iff.mp hs
  rw [hr] at herase
  rw [outlineStep_eq (by simp [outline, Inst.outline, Ctl.outline])]
  cases e with
  | call c =>
    have hstep : (outline obs ⟨⟨L, .free b⟩, sent, results⟩).inst.step (.call c) =
        some (Inst.eraseStep obs r) := herase
    rw [hstep]
    simp [outline, Inst.outline, Inst.eraseStep, Inst.result, Inst.asks, Ctl.outline]
  | beacon res =>
    obtain ⟨p, hp, rfl⟩ := Option.map_eq_some_iff.mp hr
    have hstep : (outline obs ⟨⟨L, .free b⟩, sent, results⟩).inst.step (.beacon res) =
        some (⟨L.erase obs, .free none⟩, [p]) := by
      have hbeacon : (⟨L.erase obs, .free none⟩ : Inst).beaconOf res = some p :=
        (Inst.beaconOf_erase (I := ⟨L, .free none⟩)).trans hp
      show Option.map _ ((⟨L.erase obs, .free none⟩ : Inst).beaconOf res) = _
      rw [hbeacon]
      rfl
    rw [hstep]
    simp [outline, Inst.outline, Inst.result, Ctl.outline]
  | deliver p =>
    -- no notification reaches a thread that is in no function
    have hfree : ∀ (L : Lock) (b : Option Bool),
        (⟨L, .free b⟩ : Inst).actionPerformed p = (⟨L, .free b⟩ : Inst).hear p := by
      intro L b
      refine ((⟨L, .free b⟩ : Inst).actionPerformed_cases p).resolve_right fun hw => ?_
      rw [Inst.onWake, Inst.hear_ctl] at hw
      exact absurd hw (by simp)
    obtain rfl := Option.some.inj hr
    have hlock : ((⟨L.erase obs, .free b⟩ : Inst).hear p).lock =
        ((⟨L, .free b⟩ : Inst).hear p).lock.erase obs := by
      rw [← hfree, ← hfree]
      exact congrArg (fun r => r.1.lock) (Option.some.inj herase)
    have hstep : (outline obs ⟨⟨L, .free b⟩, sent, results⟩).inst.step (.deliver p) =
        some (⟨((⟨L, .free b⟩ : Inst).hear p).lock.erase obs, .free none⟩, []) := by
      rw [← hlock]
      show some ((⟨L.erase obs, .free none⟩ : Inst).actionPerformed p, []) = _
      rw [hfree]
      exact congrArg (fun J => some (J, [])) (Inst.hear_of_ctl ⟨L.erase obs, .free b⟩ p _)
    rw [hstep]
    simp [outline, Inst.outline, Inst.result, Ctl.outline, hfree]
  | _ =>
    exact absurd hr (by
      simp [Inst.step, Inst.run, Inst.onTimeout, Inst.onWake, Inst.onElapsed])

/-- The answer of a query. -/
lemma outlineStep_collect {q : Query} {res : Name} (hctl : s.inst.ctl = .query q res .collect)
    (hun : s.inst.Unobserved obs) (hs : s.step .run = some s') :
    (s.outline obs).outlineStep .run = some (s'.outline obs) := by
  obtain ⟨⟨L, ctl⟩, sent, results⟩ := s
  obtain rfl : ctl = .query q res .collect := hctl
  obtain rfl := Option.some.inj hs
  rw [outlineStep_eq (by simp [outline, Inst.outline, Ctl.outline, QueryPc.outline])]
  have hanswer : mask (some q, ((L.erase obs).getResource res).map fun R => q.answer R.members) =
      mask (some q, (L.getResource res).map fun R => q.answer R.members) := by
    rw [Lock.getResource_erase]
    cases hR : L.getResource res with
    | none => rfl
    | some R =>
      cases q with
      | isAny => rfl
      | isBusy => exact congrArg mask (by simp [Query.answer_erase (hun res R hR)])
      | isWaiting => exact congrArg mask (by simp [Query.answer_erase (hun res R hR)])
  have hstep : (outline obs ⟨⟨L, .query q res .collect⟩, sent, results⟩).inst.step .run =
      some (⟨L.erase obs, .free (((L.erase obs).getResource res).map fun R => q.answer R.members)⟩,
        []) := rfl
  rw [hstep]
  simp only [Option.map_some, outline, Inst.outline, Ctl.outline, Inst.result, Inst.asks,
    QueryPc.outline, List.map_append, List.map_cons, List.map_nil, hanswer]

/-- A step during the listening. -/
lemma outlineStep_listening {q : Query} {res : Name} {pc : QueryPc}
    (hctl : s.inst.ctl = .query q res pc) (hpc : pc.outline = .short)
    (hobs : e.isObserved obs = false) (hs : s.step e = some s') :
    (s.visible obs e).elim (s'.outline obs = s.outline obs) fun e' =>
      (s.outline obs).outlineStep e' = some (s'.outline obs) := by
  obtain ⟨⟨L, ctl⟩, sent, results⟩ := s
  obtain rfl : ctl = .query q res pc := hctl
  obtain ⟨r, hr, rfl⟩ := Option.map_eq_some_iff.mp hs
  cases e with
  | call c => exact absurd hr (by simp [Inst.step])
  | run =>
    cases pc with
    | start | collect => exact absurd hpc (by simp [QueryPc.outline])
    | short =>
      obtain rfl := Option.some.inj hr
      simp [visible, Inst.visible, outline, Inst.outline, Inst.result, Ctl.outline, QueryPc.outline]
    | long b =>
      simp only [Inst.step, Inst.run, Inst.queryLock] at hr
      split_ifs at hr with hb <;> obtain rfl := Option.some.inj hr
      · simp [visible, Inst.visible, hb, outline, Inst.outline, Inst.result, Ctl.outline,
          QueryPc.outline]
      · simp [visible, Inst.visible, hb, outline, Inst.outline, Inst.result, Ctl.outline,
          QueryPc.outline, outlineStep]
    | shortListening | longListening b | longWoken b =>
      exact absurd hr (by simp [Inst.step, Inst.run, Inst.queryLock])
  | timeout =>
    obtain ⟨I', hI', rfl⟩ := Option.map_eq_some_iff.mp hr
    cases pc with
    | shortListening | longListening b =>
      obtain rfl := Option.some.inj hI'
      simp [visible, Inst.visible, outline, Inst.outline, Inst.result, Ctl.outline,
        QueryPc.outline, outlineStep]
    | _ => exact absurd hI' (by simp [Inst.onTimeout])
  | wake =>
    obtain ⟨I', hI', rfl⟩ := Option.map_eq_some_iff.mp hr
    cases pc with
    | shortListening | longListening b =>
      obtain rfl := Option.some.inj hI'
      simp [visible, Inst.visible, Inst.waitsOn, outline, Inst.outline, Inst.result, Ctl.outline,
        QueryPc.outline]
    | _ => exact absurd hI' (by simp [Inst.onWake])
  | elapsed n =>
    obtain ⟨I', hI', rfl⟩ := Option.map_eq_some_iff.mp hr
    obtain ⟨q', res', b, -, hctl, rfl⟩ := Inst.onElapsed_cases hI'
    obtain ⟨rfl, rfl, rfl⟩ := Ctl.query.inj hctl
    simp [visible, Inst.visible, outline, Inst.outline, Inst.result, Ctl.outline,
      QueryPc.outline]
  | beacon n =>
    -- a beacon does not depend on the member table
    obtain ⟨p, hp, rfl⟩ := Option.map_eq_some_iff.mp hr
    have hout : (outline obs ⟨⟨L, .query q res pc⟩, sent, results⟩).inst =
        ⟨L.erase obs, .query q res .short⟩ := by simp [outline, Inst.outline, Ctl.outline, hpc]
    have hstep : (⟨L.erase obs, .query q res .short⟩ : Inst).step (.beacon n) =
        some (⟨L.erase obs, .query q res .short⟩, [p]) := by
      have hbeacon : (⟨L.erase obs, .query q res .short⟩ : Inst).beaconOf n = some p :=
        (Inst.beaconOf_erase (I := ⟨L, .query q res pc⟩)).trans hp
      rw [Inst.step, hbeacon]
      rfl
    show outlineStep _ (.beacon n) = _
    unfold outlineStep
    rw [hout]
    have hshort : QueryPc.short.outline = .short := rfl
    simp [hstep, outline, Inst.outline, Inst.result, Ctl.outline, hshort, hpc]
  | deliver p =>
    obtain rfl := Option.some.inj hr
    have hp : obs p.memberId = false := hobs
    have hout := Inst.outline_listening (I := ⟨L, .query q res pc⟩) hp rfl
      (by simp [Ctl.outline, hpc])
    simp [visible, Inst.visible, hp, outline, hout, Inst.result, outlineStep]
    simp [Inst.outline, Ctl.outline, hpc]

/-- Outside the listening everything can be seen. -/
lemma visible_eq (hq : ∀ q res pc, s.inst.ctl = .query q res pc → pc.outline ≠ .short)
    (hobs : e.isObserved obs = false) (hs : s.step e = some s') : s.visible obs e = some e := by
  obtain ⟨r, hr, -⟩ := Option.map_eq_some_iff.mp hs
  cases e with
  | deliver p => exact if_neg (by simpa [Event.isObserved] using hobs)
  | run =>
    unfold visible Inst.visible
    dsimp only
    split
    · next q res hctl => exact absurd rfl (hq q res _ hctl)
    · next q res b hctl => exact absurd rfl (hq q res _ hctl)
    · rfl
  | wake =>
    refine if_neg fun hw => ?_
    unfold Inst.waitsOn at hw
    split at hw <;> simp only [Option.some.injEq, reduceCtorEq] at hw
    next q res hctl => exact absurd rfl (hq q res _ hctl)
    next q res b hctl => exact absurd rfl (hq q res _ hctl)
  | elapsed n =>
    obtain ⟨I', h, -⟩ := Option.map_eq_some_iff.mp hr
    obtain ⟨q, res, b, -, hctl, -⟩ := Inst.onElapsed_cases h
    exact absurd rfl (hq q res _ hctl)
  | _ => rfl

/-- **What can be seen of a step determines the outline of the next state.** -/
theorem outline_step (hun : s.inst.Unobserved obs) (he : e.Discreet obs)
    (hs : s.step e = some s') :
    (s.visible obs e).elim (s'.outline obs = s.outline obs) fun e' =>
      (s.outline obs).outlineStep e' = some (s'.outline obs) := by
  cases hobs : e.isObserved obs with
  | true =>
    cases e with
    | deliver p =>
      have hp : obs p.memberId = true := hobs
      obtain ⟨r, hr, rfl⟩ := Option.map_eq_some_iff.mp hs
      obtain rfl := Option.some.inj hr
      have hvis : s.visible obs (.deliver p) = none := if_pos hp
      rw [hvis]
      simp [outline, Inst.outline_of_obs hp (he hp), Inst.result]
    | _ => exact absurd hobs (by simp [Event.isObserved])
  | false =>
    have hd : ∀ p, e = .deliver p → obs p.memberId = false := by
      rintro p rfl
      exact hobs
    -- a query that listens takes its time from any packet, also from those of the observers
    by_cases hlisten : ∃ q res pc, s.inst.ctl = .query q res pc ∧ pc.outline = .short
    · obtain ⟨q, res, pc, hctl, hpc⟩ := hlisten
      exact outlineStep_listening hctl hpc hobs hs
    · have hq : ∀ q res pc, s.inst.ctl = .query q res pc → pc.outline ≠ .short :=
        fun q res pc hctl hpc => hlisten ⟨q, res, pc, hctl, hpc⟩
      rw [visible_eq hq hobs hs]
      show (s.outline obs).outlineStep e = some (s'.outline obs)
      -- the answer is read off the table, in which no observer stands
      by_cases hcollect : e = .run ∧ ∃ q res, s.inst.ctl = .query q res .collect
      · obtain ⟨rfl, q, res, hctl⟩ := hcollect
        exact outlineStep_collect hctl hun hs
      have herase := Inst.step_erase hun hd fun he q res hctl => hcollect ⟨he, q, res, hctl⟩
      cases hctl : s.inst.ctl with
      | free b => exact outlineStep_free hctl herase hs
      | query q res pc =>
        refine outlineStep_of_erase ?_ (fun q res h => hq q res _ h rfl) herase hs
        have := hq q res pc hctl
        rw [hctl]
        cases pc <;> first | rfl | exact absurd rfl this
      | _ => exact outlineStep_of_erase (by rw [hctl]; rfl) (by simp [hctl]) herase hs

/-! ### Without queries -/

/-- The instance without the observers, but with the position of the thread. -/
def erase (obs : UInt32 → Bool) (s : Session) : Session := { s with inst := s.inst.erase obs }

/-- Outside queries the observers' packets may be left out. -/
lemma step_erase (hun : s.inst.Unobserved obs) (he : e.Discreet obs)
    (hq : ∀ q res pc, s.inst.ctl ≠ .query q res pc) :
    (s.step e).map (erase obs) =
      if e.isObserved obs then some (s.erase obs) else (s.erase obs).step e := by
  cases hobs : e.isObserved obs with
  | true =>
    cases e with
    | deliver p =>
      have hI : (s.inst.actionPerformed p).erase obs = s.inst.erase obs := by
        rcases Inst.actionPerformed_of_obs (I := s.inst) hobs (he hobs) with h | h
        · exact h
        · refine h.trans (((s.inst.erase obs).notify_anyCv).resolve_right ?_)
          rintro ⟨q, res, pc, hctl, -⟩
          exact hq q res pc hctl
      simp [step, Inst.step, erase, hI, Inst.result]
    | _ => exact absurd hobs (by simp [Event.isObserved])
  | false =>
    have herase : (s.inst.erase obs).step e = (s.inst.step e).map (Inst.eraseStep obs) := by
      refine Inst.step_erase hun ?_ fun _ q res => hq q res _
      rintro p rfl
      exact hobs
    simp only [step, erase, herase, Option.map_map, Bool.false_eq_true, if_false]
    rfl

/-- The observers stay what they are. -/
lemma unobserved_step (hun : s.inst.Unobserved obs) (he : e.Discreet obs)
    (hs : s.step e = some s') : s'.inst.Unobserved obs := by
  obtain ⟨r, hr, rfl⟩ := Option.map_eq_some_iff.mp hs
  refine Inst.unobserved_step hun ?_ hr
  rintro p rfl
  exact he

/-- A thread that makes no query is in none. -/
lemma job_step (hq : ∀ q res, s.inst.job ≠ some (.query q res)) (he : e.isQuery = false)
    (hs : s.step e = some s') : ∀ q res, s'.inst.job ≠ some (.query q res) := by
  obtain ⟨⟨I', sent⟩, hI, rfl⟩ := Option.map_eq_some_iff.mp hs
  intro q res
  rcases Inst.step_call_or hI with ⟨c, rfl, -, rfl, -⟩ | hcall
  · cases c with
    | acquire n =>
      cases n with
      | nil =>
        show (Inst.enter _ (.acquire [])).job ≠ _
        rw [Inst.enter]
        split_ifs <;> simp [Inst.job]
      | cons b bs => simp [Inst.enter, Inst.job]
    | query q' n => exact absurd he (by simp [Event.isQuery])
    | _ => simp [Inst.enter, Inst.job]
  · rcases Inst.job_step hcall hI with h | h
    · simp [h]
    · rw [h]
      exact hq q res

/-- A run without queries is the same without the observers' packets. -/
theorem foldlM_erase {es : List Event} (hun : s.inst.Unobserved obs)
    (hq : ∀ q res, s.inst.job ≠ some (.query q res))
    (hes : ∀ e ∈ es, e.Discreet obs ∧ e.isQuery = false) :
    (es.foldlM step s).map (erase obs) =
      (es.filter fun e => !e.isObserved obs).foldlM step (s.erase obs) := by
  induction es generalizing s with
  | nil => rfl
  | cons e es ih =>
    obtain ⟨⟨he, heq⟩, hes⟩ := List.forall_mem_cons.mp hes
    have hctl : ∀ q res pc, s.inst.ctl ≠ .query q res pc := by
      intro q res pc h
      exact hq q res (by rw [Inst.job, h])
    have hstep := step_erase hun he hctl
    rw [List.foldlM_cons, List.filter_cons]
    cases hs : s.step e with
    | none =>
      rw [hs] at hstep
      cases hobs : e.isObserved obs with
      | true =>
        rw [hobs] at hstep
        exact absurd hstep (by simp)
      | false =>
        rw [hobs] at hstep
        have herase : (s.erase obs).step e = none := hstep.symm
        simp [herase]
    | some s' =>
      have ih' := ih (unobserved_step hun he hs) (job_step hq heq hs) hes
      rw [hs] at hstep
      cases hobs : e.isObserved obs with
      | true =>
        rw [hobs] at hstep
        have herase : s'.erase obs = s.erase obs := Option.some.inj hstep
        simpa [herase] using ih'
      | false =>
        rw [hobs] at hstep
        have herase : (s.erase obs).step e = some (s'.erase obs) := hstep.symm
        simpa [herase] using ih'

/-! ### Runs -/

/-- What can be seen of a run determines the outline of the state that is reached. -/
theorem outline_run {I : Inst} (hun : I.Unobserved obs) {es tr : List Event}
    (hrun : Lib.Run (Lib.tracedStep step (visible obs)) (fun _ e => e.Discreet obs)
      (⟨I, [], []⟩, []) es (s, tr)) :
    tr.foldlM outlineStep (outline obs ⟨I, [], []⟩) = some (s.outline obs) ∧
      s.inst.Unobserved obs := by
  have hinv : ∀ (s : Session) (e : Event) (s' : Session), s.inst.Unobserved obs →
      e.Discreet obs → s.step e = some s' → s'.inst.Unobserved obs :=
    fun _ _ _ hun he hs => unobserved_step hun he hs
  have hstep : ∀ (s : Session) (e : Event) (s' : Session), s.inst.Unobserved obs →
      e.Discreet obs → s.step e = some s' →
      (s.visible obs e).elim (s'.outline obs = s.outline obs) fun e' =>
        (s.outline obs).outlineStep e' = some (s'.outline obs) :=
    fun _ _ _ hun he hs => outline_step hun he hs
  refine ⟨Lib.Run.view_eq (I := fun s : Session => s.inst.Unobserved obs) hinv hstep hun hrun
    rfl, ?_⟩
  refine hrun.invariant (I := fun s => s.1.inst.Unobserved obs) ?_ hun
  rintro s e s' hun he hs
  obtain ⟨s', hs', rfl⟩ := Option.map_eq_some_iff.mp hs
  exact hinv s.1 e s' hun he hs'

/-- Two results that differ at most in the answer of `isAny`. -/
def Agree (a b : Option Query × Option Bool) : Prop :=
  a.1 = b.1 ∧ (a.1 ≠ some .isAny → a.2 = b.2)

lemma agree_of_mask {a b : Option Query × Option Bool} (h : mask a = mask b) : Agree a b := by
  obtain ⟨q, x⟩ := a
  obtain ⟨q', y⟩ := b
  unfold mask at h
  split at h <;> split at h <;> simp_all [Agree]

/-- A query is not the packet of an observer. -/
lemma isQuery_of_filter {es es' : List Event}
    (h : es'.filter (fun e => !e.isObserved obs) = es.filter fun e => !e.isObserved obs)
    (hes : ∀ e ∈ es, e.isQuery = false) : ∀ e ∈ es', e.isQuery = false := by
  intro e he
  by_contra hquery
  have hmem : e ∈ es'.filter fun e => !e.isObserved obs := by
    refine List.mem_filter.mpr ⟨he, ?_⟩
    cases e with
    | deliver p => exact absurd rfl hquery
    | _ => rfl
  rw [h] at hmem
  exact hquery (hes e (List.mem_filter.mp hmem).1)

/-- In two states of the same outline the answers can only differ by an observer that `isAny`
counts. -/
lemma answer_of_outline {s₁ s₂ : Session} (hun₁ : s₁.inst.Unobserved obs)
    (hun₂ : s₂.inst.Unobserved obs) (hout : s₁.outline obs = s₂.outline obs) {q : Query}
    {res : Name} {R₁ R₂ : Resource} (hR₁ : s₁.inst.lock.getResource res = some R₁)
    (hR₂ : s₂.inst.lock.getResource res = some R₂)
    (hne : q.answer R₁.members ≠ q.answer R₂.members) :
    q = .isAny ∧ ∃ id m, obs id = true ∧
      (R₁.members.find? id = some m ∨ R₂.members.find? id = some m) := by
  have herase : R₁.erase obs = R₂.erase obs := by
    have hlock : s₁.inst.lock.erase obs = s₂.inst.lock.erase obs :=
      congrArg (fun s => s.inst.lock) hout
    have hres := congrArg (Lock.getResource · res) hlock
    simpa [hR₁, hR₂] using hres
  have hq : q = .isAny := by
    by_contra hq
    refine hne ?_
    rw [← Query.answer_erase (hun₁ res R₁ hR₁) hq, herase,
      Query.answer_erase (hun₂ res R₂ hR₂) hq]
  refine ⟨hq, by_contra fun hnone => hne ?_⟩
  rw [← Resource.members_erase fun id m ho hm => hnone ⟨id, m, ho, .inl hm⟩, herase,
    Resource.members_erase fun id m ho hm => hnone ⟨id, m, ho, .inr hm⟩]

/-- **Observers are invisible.** -/
theorem observers_invisible {I : Inst} (hun : I.Unobserved obs) {es₁ tr : List Event}
    {s₁ : Session}
    (h₁ : Lib.Run (Lib.tracedStep step (visible obs)) (fun _ e => e.Discreet obs)
      (⟨I, [], []⟩, []) es₁ (s₁, tr)) :
    ((∀ q res, I.job ≠ some (.query q res)) → (∀ e ∈ es₁, e.isQuery = false) →
      ∀ es₂ : List Event, (∀ e ∈ es₂, e.Discreet obs) →
        es₂.filter (fun e => !e.isObserved obs) = es₁.filter (fun e => !e.isObserved obs) →
        ∃ s₂, Lib.Run step (fun _ _ => True) ⟨I, [], []⟩ es₂ s₂ ∧ s₂.inst.ctl = s₁.inst.ctl ∧
          s₂.sent = s₁.sent ∧ s₂.results = s₁.results) ∧
    ∀ es₂ s₂, Lib.Run (Lib.tracedStep step (visible obs)) (fun _ e => e.Discreet obs)
        (⟨I, [], []⟩, []) es₂ (s₂, tr) →
      s₂.sent = s₁.sent ∧ List.Forall₂ Agree s₁.results s₂.results ∧
      ∀ q res R₁ R₂, s₁.inst.ctl = .query q res .collect →
        s₁.inst.lock.getResource res = some R₁ → s₂.inst.lock.getResource res = some R₂ →
        q.answer R₁.members ≠ q.answer R₂.members →
        q = .isAny ∧ ∃ id m, obs id = true ∧
          (R₁.members.find? id = some m ∨ R₂.members.find? id = some m) := by
  obtain ⟨hout₁, hun₁⟩ := outline_run hun h₁
  refine ⟨fun hq hes₁ es₂ hes₂ hfilter => ?_, fun es₂ s₂ h₂ => ?_⟩
  · obtain ⟨hdis, hfold₁⟩ := Lib.run_iff_foldlM.mp (Lib.Run.of_traced h₁)
    -- both runs are the same run without the observers
    have hnone := isQuery_of_filter hfilter hes₁
    have herase₁ := foldlM_erase (s := ⟨I, [], []⟩) hun hq fun e he => ⟨hdis e he, hes₁ e he⟩
    have herase₂ := foldlM_erase (s := ⟨I, [], []⟩) hun hq fun e he => ⟨hes₂ e he, hnone e he⟩
    rw [hfilter, ← herase₁, hfold₁] at herase₂
    obtain ⟨s₂, hs₂, heq⟩ := Option.map_eq_some_iff.mp herase₂
    refine ⟨s₂, Lib.run_iff_foldlM.mpr ⟨fun _ _ => trivial, hs₂⟩, ?_, ?_, ?_⟩
    · exact congrArg (fun s => s.inst.ctl) heq
    · exact congrArg (fun s => s.sent) heq
    · exact congrArg (fun s => s.results) heq
  · obtain ⟨hout₂, hun₂⟩ := outline_run hun h₂
    have hout : s₁.outline obs = s₂.outline obs := Option.some.inj (hout₁.symm.trans hout₂)
    refine ⟨(congrArg Session.sent hout).symm, ?_, ?_⟩
    · have hmask : s₁.results.map mask = s₂.results.map mask := congrArg Session.results hout
      rw [← List.forall₂_eq_eq_eq, List.forall₂_map_left_iff, List.forall₂_map_right_iff] at hmask
      exact hmask.imp fun _ _ => agree_of_mask
    · intro q res R₁ R₂ _ hR₁ hR₂ hne
      exact answer_of_outline hun₁ hun₂ hout hR₁ hR₂ hne

/-- The packet of an observer with the id 9. -/
def observed : DLPacket := { Resource.new [97] with state := .querying }.beacon 9

/-- The beacon of a holder with the id 2. -/
def holding : DLPacket := { Resource.new [97] with state := .acquired }.beacon 2

/-- `isBusy` without the packet of the observer, and with it. -/
theorem observers_invisible_isBusy :
    ∃ s₁ s₂ tr, Lib.Run (Lib.tracedStep step (visible (· == 9))) (fun _ e => e.Discreet (· == 9))
        (⟨⟨.new 1 50, .free none⟩, [], []⟩, [])
        [.call (.query .isBusy [97]), .run, .run, .deliver holding, .run, .timeout, .run] (s₁, tr) ∧
      Lib.Run (Lib.tracedStep step (visible (· == 9))) (fun _ e => e.Discreet (· == 9))
        (⟨⟨.new 1 50, .free none⟩, [], []⟩, [])
        [.call (.query .isBusy [97]), .run, .deliver observed, .run, .deliver observed,
          .deliver holding, .run, .timeout, .run] (s₂, tr) ∧
      s₁.results = [(some .isBusy, some true)] ∧ List.Forall₂ Agree s₁.results s₂.results := by
  have h₁ : Lib.Run (Lib.tracedStep step (visible (· == 9))) (fun _ e => e.Discreet (· == 9))
      (⟨⟨.new 1 50, .free none⟩, [], []⟩, [])
      [.call (.query .isBusy [97]), .run, .run, .deliver holding, .run, .timeout, .run] (_, _) :=
    Lib.Run.of_exec rfl
  have h₂ : Lib.Run (Lib.tracedStep step (visible (· == 9))) (fun _ e => e.Discreet (· == 9))
      (⟨⟨.new 1 50, .free none⟩, [], []⟩, [])
      [.call (.query .isBusy [97]), .run, .deliver observed, .run, .deliver observed,
        .deliver holding, .run, .timeout, .run] (_, _) := Lib.Run.of_exec rfl
  exact ⟨_, _, _, h₁, h₂, rfl,
    ((observers_invisible (Inst.unobserved_new 1 50 none) h₁).2 _ _ h₂).2.1⟩

/-- The packet of an observer makes `isAny` true; and it makes `isBusy` listen longer, so that
a packet is heard that comes too late otherwise. -/
theorem observers_visible :
    (∃ s₁ s₂, Lib.Run step (fun _ e => e.Discreet (· == 9)) ⟨⟨.new 1 50, .free none⟩, [], []⟩
        [.call (.query .isAny [97]), .run, .run, .timeout, .run] s₁ ∧
      Lib.Run step (fun _ e => e.Discreet (· == 9)) ⟨⟨.new 1 50, .free none⟩, [], []⟩
        [.call (.query .isAny [97]), .run, .run, .deliver observed, .run, .timeout, .run] s₂ ∧
      s₁.results = [(some .isAny, some false)] ∧ s₂.results = [(some .isAny, some true)]) ∧
    ∃ s₁ s₂, Lib.Run step (fun _ e => e.Discreet (· == 9)) ⟨⟨.new 1 50, .free none⟩, [], []⟩
        [.call (.query .isBusy [97]), .run, .run, .timeout, .run, .deliver holding] s₁ ∧
      Lib.Run step (fun _ e => e.Discreet (· == 9)) ⟨⟨.new 1 50, .free none⟩, [], []⟩
        [.call (.query .isBusy [97]), .run, .run, .deliver observed, .run, .deliver holding,
          .elapsed 100, .run, .timeout, .run] s₂ ∧
      s₁.results = [(some .isBusy, some false)] ∧ s₂.results = [(some .isBusy, some true)] :=
  ⟨⟨_, _, Lib.Run.of_exec rfl, Lib.Run.of_exec rfl, rfl, rfl⟩,
    ⟨_, _, Lib.Run.of_exec rfl, Lib.Run.of_exec rfl, rfl, rfl⟩⟩

end Session
end DistLock
