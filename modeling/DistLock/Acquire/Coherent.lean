/-
The states of the resources while `adquire_lock` is at work.

Each of its loops visits the resources in order, so at every moment the resources that have
been visited are in one state and the others in another one.
-/
import DistLock.Lib.Run
import DistLock.Model.Spec

namespace DistLock

namespace Lock

/-- The lock has a resource of this name, which is in state `s`. -/
def Has (L : Lock) (s : State) (res : Name) : Prop := L.stateOf res = some s

/-- The resource is as `Resource::reset` leaves it. -/
def Clear (L : Lock) (res : Name) : Prop :=
  ∃ R, L.getResource res = some R ∧ R.state = .idle ∧ R.members = .empty

/-- Between `L` and `L'` no state has been assigned to the resource. -/
structure Keeps (L L' : Lock) (res : Name) : Prop where
  stateOf_eq : L'.stateOf res = L.stateOf res
  clear : L.Clear res → L'.Clear res

variable {L L' : Lock} {res : Name} {s s' : State}

lemma Clear.has (h : L.Clear res) : L.Has .idle res := by
  obtain ⟨R, hR, hs, -⟩ := h
  rw [Has, stateOf, hR, ← hs]
  rfl

lemma Has.eq (h : L.Has s res) (h' : L.Has s' res) : s = s' := Option.some.inj (h.symm.trans h')

lemma Keeps.has (hk : Keeps L L' res) (h : L.Has s res) : L'.Has s res := hk.stateOf_eq.trans h

end Lock

open Lock (Has Clear Keeps)

/-- A loop over the resources of the scope has `rest` still to visit; `P` holds of the
resources that it has visited and `Q` of the others. -/
def Visited (L : Lock) (scope : Option Name) (rest : List Name) (P Q : Name → Prop) : Prop :=
  ∃ done, L.targets scope = done ++ rest ∧ (∀ r ∈ done, P r) ∧ ∀ r ∈ rest, Q r

namespace Visited

variable {L L' : Lock} {scope : Option Name} {res : Name} {rest : List Name}
  {P Q P' Q' : Name → Prop}

/-- Before the loop starts. -/
lemma init (h : ∀ r ∈ L.targets scope, Q r) : Visited L scope (L.targets scope) P Q :=
  ⟨[], rfl, by simp, h⟩

/-- After the loop has ended. -/
lemma all (h : Visited L scope [] P Q) : ∀ r ∈ L.targets scope, P r := by
  obtain ⟨done, hd, hP, -⟩ := h
  rw [hd, List.append_nil]
  exact hP

lemma head (h : Visited L scope (res :: rest) P Q) : res ∈ L.targets scope := by
  obtain ⟨done, hd, -, -⟩ := h
  simp [hd]

lemma head_notMem (h : Visited L scope (res :: rest) P Q) : res ∉ rest := by
  obtain ⟨done, hd, -, -⟩ := h
  have hnd : (done ++ res :: rest).Nodup := hd ▸ L.targets_nodup scope
  exact (List.nodup_cons.mp hnd.of_append_right).1

lemma mono (h : Visited L scope rest P Q) (hn : L'.names = L.names)
    (hP : ∀ r ∈ L.targets scope, P r → P' r) (hQ : ∀ r ∈ L.targets scope, Q r → Q' r) :
    Visited L' scope rest P' Q' := by
  obtain ⟨done, hd, hp, hq⟩ := h
  refine ⟨done, by rw [Lock.targets_congr hn, hd], fun r hr => ?_, fun r hr => ?_⟩
  · exact hP r (by simp [hd, hr]) (hp r hr)
  · exact hQ r (by simp [hd, hr]) (hq r hr)

/-- The loop has dealt with its next resource and has left the others alone. -/
lemma advance (h : Visited L scope (res :: rest) P Q) (hn : L'.names = L.names) (hres : P' res)
    (hP : ∀ r, r ≠ res → P r → P' r) (hQ : ∀ r, r ≠ res → Q r → Q' r) :
    Visited L' scope rest P' Q' := by
  have hnot := h.head_notMem
  obtain ⟨done, hd, hp, hq⟩ := h
  have hnd : (done ++ res :: rest).Nodup := hd ▸ L.targets_nodup scope
  refine ⟨done ++ [res], by simp [Lock.targets_congr hn, hd], fun r hr => ?_, fun r hr => ?_⟩
  · rcases List.mem_append.mp hr with hr₁ | hr₁
    · refine hP r ?_ (hp r hr₁)
      rintro rfl
      exact (List.disjoint_of_nodup_append hnd) hr₁ List.mem_cons_self
    · rwa [List.mem_singleton.mp hr₁]
  · refine hQ r ?_ (hq r (List.mem_cons_of_mem res hr))
    rintro rfl
    exact hnot hr

end Visited

/-! ### The invariant of the retry loop -/

/-- What the calling thread knows about the resources of its scope at each of its positions. -/
def Pc.Coherent (L : Lock) (scope : Option Name) (retry : UInt32) : Pc → Prop
  | .start rest => retry = 0 ∧ Visited L scope rest (L.Has .starting) fun _ => True
  | .waitForReady res rest =>
    res ∈ L.targets scope ∧ retry = 0 ∧ Visited L scope rest (L.Has .starting) fun _ => True
  | .loop => L.mayTry retry ∨ ∀ r ∈ L.targets scope, L.Clear r
  | .starting rest => L.mayTry retry ∧ Visited L scope rest (L.Has .starting) fun _ => True
  | .listening => L.mayTry retry ∧ ∀ r ∈ L.targets scope, L.Has .starting r
  | .announcing rest => Visited L scope rest (L.Has .acquiring) (L.Has .starting)
  | .colliding => ∀ r ∈ L.targets scope, L.Has .acquiring r
  | .checking rest => Visited L scope rest (L.Has .acquired) (L.Has .acquiring)
  | .marking res rest => Visited L scope (res :: rest) (L.Has .acquired) (L.Has .acquiring)
  | .resetting rest => Visited L scope rest L.Clear fun _ => True
  | .backoff | .backingOff =>
    (L.mayTry retry ∧ ∀ r ∈ L.targets scope, L.Has .starting r) ∨
      ∀ r ∈ L.targets scope, L.Clear r

/-- The calling thread is inside `adquire_lock` for the given scope, or has returned from it
with the result that it shows. -/
def Inst.Acquiring (scope : Option Name) (I : Inst) : Prop :=
  match I.ctl with
  | .adquire scope' retry pc =>
    scope' = scope ∧ (∀ r ∈ I.lock.targets scope, r ∈ I.lock.names) ∧
      pc.Coherent I.lock scope retry
  | .free (some true) => ∀ r ∈ I.lock.targets scope, I.lock.Has .acquired r
  | .free (some false) => ∀ r ∈ I.lock.targets scope, I.lock.Clear r
  | _ => False

/-- The retry loop is entered at least once. -/
lemma Lock.mayTry_zero (L : Lock) : L.mayTry 0 := by
  rcases eq_or_ne L.retryMax 0 with h | h
  · exact .inl h
  · exact .inr (UInt32.pos_iff_ne_zero.mpr h)

/-! ### What the events do to the states -/

namespace Inst

variable {I I' : Inst} {e : Event} {sent : List DLPacket} {res r : Name} {s : State} {a : Action}
  {scope : Option Name} {retry : UInt32} {pc : Pc}

/-- A resource is left alone unless it is the turn of the calling thread and the resource is
due. -/
lemma Frame.keeps (hf : Frame I I' e) (h : e = .run → ∀ a, I.next ≠ some (res, a)) :
    Keeps I.lock I'.lock res where
  stateOf_eq := by
    rw [Lock.stateOf, hf.resource, Option.map_map, Lock.stateOf]
    congr 1
    funext R
    exact change_state fun he a ha => absurd ha (h he a)
  clear := by
    rintro ⟨R, hR, hs, hm⟩
    refine ⟨I.change e res R, by rw [hf.resource, hR]; rfl, ?_, ?_⟩
    · exact (change_state fun he a ha => absurd ha (h he a)).trans hs
    · -- a delivery does not fill the table of an idle resource
      rw [← hm]
      cases e with
      | run => rw [change_run_of_ne (h rfl)]
      | deliver pkt => exact congrArg Resource.members (heardBy_of_idle hs)
      | _ => rfl

lemma Frame.keeps_of_ne (hf : Frame I I' .run) (hn : I.next = some (res, a)) (hr : r ≠ res) :
    Keeps I.lock I'.lock r := by
  refine hf.keeps fun _ b hb => hr ?_
  exact (congrArg Prod.fst (Option.some.inj (hn.symm.trans hb))).symm

/-- The resource that is due gets its new state. -/
lemma Frame.has (hf : Frame I I' .run) (hn : I.next = some (res, .setState s))
    (hres : res ∈ I.lock.names) : I'.lock.Has s res := by
  obtain ⟨R, hR⟩ := Lock.mem_names_iff.mp hres
  rw [Lock.Has, Lock.stateOf, hf.resource, hR, Option.map_some, change_run hn]
  rfl

lemma Frame.clear (hf : Frame I I' .run) (hn : I.next = some (res, .reset))
    (hres : res ∈ I.lock.names) : I'.lock.Clear res := by
  obtain ⟨R, hR⟩ := Lock.mem_names_iff.mp hres
  refine ⟨_, by rw [hf.resource, hR, Option.map_some, change_run hn], rfl, rfl⟩

/-- A state in which no resource is does not appear unless it is assigned. -/
lemma Frame.absent (hf : Frame I I' e) (hs : s ≠ .idle) (hn : ∀ r, ¬ I.lock.Has s r)
    (hm : e = .run → ∀ r, I.next ≠ some (r, .setState s)) (r : Name) : ¬ I'.lock.Has s r := by
  intro hr
  by_cases hdue : e = .run ∧ ∃ a, I.next = some (r, a) ∧ a ≠ .stop
  · obtain ⟨rfl, a, ha, hstop⟩ := hdue
    rw [Lock.Has, Lock.stateOf, hf.resource, Option.map_map] at hr
    obtain ⟨R, -, hR⟩ := Option.map_eq_some_iff.mp hr
    rw [Function.comp_apply, change_run ha] at hR
    cases a with
    | setState s' =>
      obtain rfl : s' = s := hR
      exact hm rfl r ha
    | reset => exact hs hR.symm
    | stop => exact hstop rfl
  · refine hn r ?_
    have hkeep : I'.lock.stateOf r = I.lock.stateOf r := by
      rw [Lock.stateOf, hf.resource, Option.map_map, Lock.stateOf]
      congr 1
      funext R
      exact change_state fun he a ha => by_contra fun hs => hdue ⟨he, a, ha, hs⟩
    rwa [Lock.Has, ← hkeep]

/-- Whatever is announced is the state of some resource. -/
lemma has_of_sent {p : DLPacket} (h : I.step e = some (I', sent)) (hp : p ∈ sent) :
    ∃ r, I'.lock.Has (State.ofByte p.state) r := by
  obtain ⟨r, R, hR, rfl, -⟩ := mem_sent h hp
  refine ⟨r, ?_⟩
  rw [Lock.Has, Lock.stateOf, hR, R.beacon_state, State.ofByte_toByte]
  rfl

/-! ### The invariant is kept -/

/-- Nothing is lost as long as no state is assigned. -/
lemma coherent_keeps {L L' : Lock} (hn : L'.names = L.names) (hm : L'.retryMax = L.retryMax)
    (hk : ∀ r, Keeps L L' r) (h : pc.Coherent L scope retry) : pc.Coherent L' scope retry := by
  have ht : L'.targets scope = L.targets scope := Lock.targets_congr hn scope
  have hmay : L'.mayTry retry ↔ L.mayTry retry := by rw [Lock.mayTry, Lock.mayTry, hm]
  have hhas : ∀ {s}, (∀ r ∈ L.targets scope, L.Has s r) → ∀ r ∈ L'.targets scope, L'.Has s r :=
    fun h r hr => (hk r).has (h r (ht ▸ hr))
  have hclear : (∀ r ∈ L.targets scope, L.Clear r) → ∀ r ∈ L'.targets scope, L'.Clear r :=
    fun h r hr => (hk r).clear (h r (ht ▸ hr))
  cases pc with
  | start rest => exact ⟨h.1, h.2.mono hn (fun r _ => (hk r).has) fun _ _ _ => trivial⟩
  | waitForReady res rest =>
    exact ⟨ht ▸ h.1, h.2.1, h.2.2.mono hn (fun r _ => (hk r).has) fun _ _ _ => trivial⟩
  | loop => exact h.imp hmay.mpr hclear
  | starting rest =>
    exact ⟨hmay.mpr h.1, h.2.mono hn (fun r _ => (hk r).has) fun _ _ _ => trivial⟩
  | listening => exact ⟨hmay.mpr h.1, hhas h.2⟩
  | colliding => exact hhas h
  | announcing rest | checking rest | marking res rest =>
    exact Visited.mono h hn (fun r _ => (hk r).has) fun r _ => (hk r).has
  | resetting rest => exact Visited.mono h hn (fun r _ => (hk r).clear) fun _ _ _ => trivial
  | backoff | backingOff => exact h.imp (fun h => ⟨hmay.mpr h.1, hhas h.2⟩) hclear

lemma acquiring_keeps {L : Lock} (hn : L.names = I.lock.names)
    (hm : L.retryMax = I.lock.retryMax) (hk : ∀ r, Keeps I.lock L r) (h : I.Acquiring scope) :
    Acquiring scope ⟨L, I.ctl⟩ := by
  have ht : L.targets scope = I.lock.targets scope := Lock.targets_congr hn scope
  unfold Acquiring at h ⊢
  dsimp only
  split at h
  · obtain ⟨rfl, hsub, hc⟩ := h
    exact ⟨rfl, by rwa [ht, hn], coherent_keeps hn hm hk hc⟩
  · exact fun r hr => (hk r).has (h r (ht ▸ hr))
  · exact fun r hr => (hk r).clear (h r (ht ▸ hr))
  · exact h.elim

lemma acquiring_onWake (h : I.Acquiring scope) (hw : I.onWake = some I') :
    I'.Acquiring scope := by
  obtain ⟨L, ctl⟩ := I
  cases ctl with
  | adquire scope' retry pc =>
    obtain ⟨rfl, hsub, hc⟩ := h
    cases pc with
    | waitForReady res rest =>
      obtain rfl := Option.some.inj hw
      exact ⟨rfl, hsub, hc.2⟩
    | listening =>
      obtain rfl := Option.some.inj hw
      exact ⟨rfl, hsub, .inl hc⟩
    | colliding =>
      obtain rfl := Option.some.inj hw
      exact ⟨rfl, hsub, Visited.init fun _ _ => trivial⟩
    | backingOff =>
      obtain rfl := Option.some.inj hw
      exact ⟨rfl, hsub, hc.imp And.left id⟩
    | _ => exact absurd hw (by simp [onWake])
  | free b => exact absurd hw (by simp [onWake])
  | _ => exact h.elim

lemma acquiring_onTimeout (h : I.Acquiring scope) (hw : I.onTimeout = some I') :
    I'.Acquiring scope := by
  obtain ⟨L, ctl⟩ := I
  cases ctl with
  | adquire scope' retry pc =>
    obtain ⟨rfl, hsub, hc⟩ := h
    cases pc with
    | listening =>
      obtain rfl := Option.some.inj hw
      exact ⟨rfl, hsub, Visited.init hc.2⟩
    | colliding =>
      obtain rfl := Option.some.inj hw
      exact ⟨rfl, hsub, Visited.init hc⟩
    | backingOff =>
      obtain rfl := Option.some.inj hw
      exact ⟨rfl, hsub, hc.imp And.left id⟩
    | _ => exact absurd hw (by simp [onTimeout])
  | free b => exact absurd hw (by simp [onTimeout])
  | _ => exact h.elim

/-- One step of the calling thread inside `adquire_lock`. -/
lemma acquiring_run (h : I.Acquiring scope) (hr : I.run = some (I', sent)) :
    I'.Acquiring scope := by
  have hf := frame_run hr
  obtain ⟨L, ctl⟩ := I
  cases ctl with
  | adquire scope' retry pc =>
    obtain ⟨rfl, hsub, hc⟩ := h
    have hmay : ∀ {n}, L.mayTry n → I'.lock.mayTry n := by
      intro n hn
      rwa [Lock.mayTry, hf.retryMax_eq]
    have hsub' : ∀ r ∈ I'.lock.targets scope', r ∈ I'.lock.names := by
      rw [Lock.targets_congr hf.names_eq, hf.names_eq]
      exact hsub
    -- a loop assigns `s` to its next resource; `Q` is what is known of those that follow
    have hset : ∀ {res rest s P Q Q'}, Visited L scope' (res :: rest) P Q →
        (⟨L, .adquire scope' retry pc⟩ : Inst).next = some (res, .setState s) →
        (∀ r, P r → L.Has s r) → (∀ r, r ≠ res → Q r → Q' r) →
        Visited I'.lock scope' rest (I'.lock.Has s) Q' := by
      intro res rest s P Q Q' hv hn hP hQ
      exact hv.advance hf.names_eq (hf.has hn (hsub _ hv.head))
        (fun r hr hp => (hf.keeps_of_ne hn hr).has (hP r hp)) hQ
    cases pc with
    | start rest =>
      obtain ⟨rfl, hv⟩ := hc
      cases rest with
      | nil =>
        obtain ⟨rfl, -⟩ := Prod.mk.inj (Option.some.inj hr)
        -- the counter has not been incremented yet
        exact ⟨rfl, hsub', .inl (Lock.mayTry_zero L)⟩
      | cons res rest =>
        have hv' := hset hv rfl (fun _ hp => hp) fun _ _ _ => trivial
        have hres : res ∈ I'.lock.targets scope' := by
          rw [Lock.targets_congr hf.names_eq]
          exact hv.head
        obtain ⟨rfl, -⟩ := Prod.mk.inj (Option.some.inj hr)
        exact ⟨rfl, hsub', hres, rfl, hv'⟩
    | loop =>
      simp only [run, adquireLock] at hr
      split_ifs at hr with htry
      · obtain ⟨rfl, -⟩ := Prod.mk.inj (Option.some.inj hr)
        exact ⟨rfl, hsub', htry, Visited.init fun _ _ => trivial⟩
      · -- the loop is left, so there has been a reset
        obtain ⟨rfl, -⟩ := Prod.mk.inj (Option.some.inj hr)
        exact Or.resolve_left hc htry
    | starting rest =>
      obtain ⟨htry, hv⟩ := hc
      cases rest with
      | nil =>
        obtain ⟨rfl, -⟩ := Prod.mk.inj (Option.some.inj hr)
        exact ⟨rfl, hsub', htry, hv.all⟩
      | cons res rest =>
        have hv' := hset hv rfl (fun _ hp => hp) fun _ _ _ => trivial
        have htry' := hmay htry
        obtain ⟨rfl, -⟩ := Prod.mk.inj (Option.some.inj hr)
        exact ⟨rfl, hsub', htry', hv'⟩
    | announcing rest =>
      cases rest with
      | nil =>
        obtain ⟨rfl, -⟩ := Prod.mk.inj (Option.some.inj hr)
        exact ⟨rfl, hsub', Visited.all hc⟩
      | cons res rest =>
        have hv' := hset hc rfl (fun _ hp => hp) fun r hne => (hf.keeps_of_ne rfl hne).has
        obtain ⟨rfl, -⟩ := Prod.mk.inj (Option.some.inj hr)
        exact ⟨rfl, hsub', hv'⟩
    | checking rest =>
      cases rest with
      | nil =>
        obtain ⟨rfl, -⟩ := Prod.mk.inj (Option.some.inj hr)
        exact Visited.all hc
      | cons res rest =>
        simp only [run, adquireLock] at hr
        split_ifs at hr
        · obtain ⟨rfl, -⟩ := Prod.mk.inj (Option.some.inj hr)
          exact ⟨rfl, hsub', hc⟩
        · -- whatever has been marked so far is reset with the rest
          obtain ⟨rfl, -⟩ := Prod.mk.inj (Option.some.inj hr)
          exact ⟨rfl, hsub', Visited.init fun _ _ => trivial⟩
    | marking res rest =>
      have hv' := hset hc rfl (fun _ hp => hp) fun r hne => (hf.keeps_of_ne rfl hne).has
      obtain ⟨rfl, -⟩ := Prod.mk.inj (Option.some.inj hr)
      exact ⟨rfl, hsub', hv'⟩
    | resetting rest =>
      cases rest with
      | nil =>
        obtain ⟨rfl, -⟩ := Prod.mk.inj (Option.some.inj hr)
        exact ⟨rfl, hsub', .inr (Visited.all hc)⟩
      | cons res rest =>
        have hv' : Visited I'.lock scope' rest I'.lock.Clear fun _ => True :=
          Visited.advance hc hf.names_eq (hf.clear rfl (hsub _ (Visited.head hc)))
            (fun r hne => (hf.keeps_of_ne rfl hne).clear) fun _ _ _ => trivial
        obtain ⟨rfl, -⟩ := Prod.mk.inj (Option.some.inj hr)
        exact ⟨rfl, hsub', hv'⟩
    | backoff =>
      obtain ⟨rfl, -⟩ := Prod.mk.inj (Option.some.inj hr)
      exact ⟨rfl, hsub', hc⟩
    | waitForReady res rest | listening | colliding | backingOff =>
      exact absurd hr (by simp [run, adquireLock])
  | free b => exact absurd hr (by simp [run])
  | _ => exact h.elim

lemma acquiring_resumes (h : I.Acquiring scope) (hr : I.Resumes I') : I'.Acquiring scope := by
  rcases hr with rfl | hw | hw | ⟨n, hw⟩
  · exact h
  · exact acquiring_onWake h hw
  · exact acquiring_onTimeout h hw
  · -- only a query reads the clock
    obtain ⟨q, res, b, -, hq, -⟩ := onElapsed_cases hw
    rw [Acquiring, hq] at h
    exact h.elim

/-- **Every step keeps the invariant of the retry loop.** -/
theorem acquiring_step (he : e.isCall = false) (h : I.Acquiring scope)
    (hs : I.step e = some (I', sent)) : I'.Acquiring scope := by
  have hf := frame_step he hs
  rcases step_cases he hs with ⟨rfl, hr⟩ | ⟨hne, hr⟩
  · exact acquiring_run h hr
  · refine acquiring_resumes (acquiring_keeps hf.names_eq hf.retryMax_eq (fun r => ?_) h) hr
    exact hf.keeps fun he => absurd he hne

/-- The entry of `adquire_lock()`. -/
lemma acquiring_enter {L : Lock} (h : L.names ≠ []) :
    enter L (.acquire []) = ⟨L, .adquire none 0 (.start L.names)⟩ ∧
      (enter L (.acquire [])).Acquiring none := by
  have hlen : L.resources.entries.length ≠ 0 := by
    intro h₀
    refine h ?_
    rw [Lock.names, Lib.OrdMap.keys, List.length_eq_zero_iff.mp h₀]
    rfl
  have heq : enter L (.acquire []) = ⟨L, .adquire none 0 (.start L.names)⟩ := by
    rw [enter, if_neg hlen]
  refine ⟨heq, ?_⟩
  rw [heq]
  exact ⟨rfl, fun _ hr => hr, rfl, Visited.init fun _ _ => trivial⟩

/-- The resource that is due belongs to the scope. -/
lemma mem_targets_of_next (h : I.Acquiring scope) (hn : I.next = some (res, a)) :
    res ∈ I.lock.targets scope ∧ a ≠ .stop := by
  obtain ⟨L, ctl⟩ := I
  cases ctl with
  | adquire scope' retry pc =>
    obtain ⟨rfl, -, hc⟩ := h
    cases pc with
    | start rest | starting rest =>
      cases rest with
      | nil => exact absurd hn (by simp [next])
      | cons r rest =>
        obtain ⟨rfl, rfl⟩ := Prod.mk.inj (Option.some.inj hn)
        exact ⟨hc.2.head, by simp⟩
    | announcing rest | resetting rest =>
      cases rest with
      | nil => exact absurd hn (by simp [next])
      | cons r rest =>
        obtain ⟨rfl, rfl⟩ := Prod.mk.inj (Option.some.inj hn)
        exact ⟨Visited.head hc, by simp⟩
    | marking r rest =>
      obtain ⟨rfl, rfl⟩ := Prod.mk.inj (Option.some.inj hn)
      exact ⟨Visited.head hc, by simp⟩
    | _ => exact absurd hn (by simp [next])
  | free b => exact absurd hn (by simp [next])
  | _ => exact h.elim

/-- Only the loop of the resets resets. -/
lemma resetting_of_next (hn : I.next = some (res, .reset)) :
    ∃ scope retry rest, I.ctl = .adquire scope retry (.resetting (res :: rest)) := by
  rw [next] at hn
  split at hn <;> simp only [Option.some.injEq, Prod.mk.injEq, reduceCtorEq, and_false,
    and_true] at hn
  next scope retry r rest hctl => exact ⟨scope, retry, rest, hn ▸ hctl⟩

/-- Whatever `adquire_lock` is at work satisfies its invariant. -/
def Coherent (I : Inst) : Prop :=
  ∀ scope retry pc, I.ctl = .adquire scope retry pc → I.Acquiring scope

lemma acquiring_of_adquire {L : Lock} {res : Name} (hres : res ≠ []) :
    enter L (.acquire res) = ⟨L.createResource res, .adquire (some res) 0 .loop⟩ := by
  cases res with
  | nil => exact absurd rfl hres
  | cons b bs => rfl

lemma coherent_enter (L : Lock) (c : Call) : (enter L c).Coherent := by
  intro scope retry pc hctl
  cases c with
  | acquire res =>
    cases res with
    | nil =>
      by_cases hne : L.names = []
      · have hlen : L.resources.entries.length = 0 := by
          have := congrArg List.length hne
          simpa [Lock.names, Lib.OrdMap.keys, List.keys] using this
        rw [enter, if_pos hlen] at hctl
        exact absurd hctl (by simp)
      · obtain ⟨heq, hacq⟩ := acquiring_enter hne
        rw [heq] at hctl
        obtain ⟨rfl, -, -⟩ := Ctl.adquire.inj hctl
        exact hacq
    | cons b bs =>
      obtain ⟨rfl, rfl, rfl⟩ := Ctl.adquire.inj hctl
      refine ⟨rfl, fun r hr => ?_, .inl (Lock.mayTry_zero _)⟩
      rw [List.mem_singleton.mp hr]
      exact Lock.mem_names_createResource.mpr (.inl rfl)
  | _ => exact absurd hctl (by simp [enter])

/-- `adquire_lock` is only entered by a call. -/
lemma adquire_of_step (he : e.isCall = false) (hs : I.step e = some (I', sent))
    (hctl : I'.ctl = .adquire scope retry pc) : ∃ retry pc, I.ctl = .adquire scope retry pc := by
  have hjob : some (Job.adquire scope) = I.job := by
    rcases job_step he hs with h | h <;> rw [job, hctl] at h
    · exact absurd h (by simp)
    · exact h
  rw [job] at hjob
  split at hjob <;> simp only [Option.some.injEq, Job.adquire.injEq, reduceCtorEq] at hjob
  next scope₀ retry₀ pc₀ hctl₀ => exact ⟨retry₀, pc₀, hjob ▸ hctl₀⟩

/-- The invariant holds in every run, whatever functions are called. -/
theorem coherent_step (h : I.Coherent) (hs : I.step e = some (I', sent)) : I'.Coherent := by
  intro scope retry pc hctl
  rcases step_call_or hs with ⟨c, rfl, -, rfl, -⟩ | he
  · exact coherent_enter I.lock c scope retry pc hctl
  · obtain ⟨retry₀, pc₀, hctl₀⟩ := adquire_of_step he hs hctl
    exact acquiring_step he (h scope retry₀ pc₀ hctl₀) hs

/-! ### The resources that a call works on -/

/-- The calling thread works on resources that satisfy `A` only. -/
def On (A : Name → Prop) (I : Inst) : Prop :=
  match I.ctl with
  | .free _ => True
  | .adquire scope _ _ => ∀ r ∈ I.lock.targets scope, A r
  | .query _ r _ => A r
  | .releasing rest => ∀ r ∈ rest, A r
  | .stopping r rest => A r ∧ ∀ r ∈ rest, A r

section On

variable {A : Name → Prop}

/-- The thread is inside `release` or `releaseAll`. -/
lemma release_of_job (h : I.job = some .release) :
    (∃ rest, I.ctl = .releasing rest) ∨ ∃ r rest, I.ctl = .stopping r rest := by
  rw [job] at h
  split at h <;> simp only [Option.some.injEq, reduceCtorEq] at h
  · next rest hctl => exact .inl ⟨rest, hctl⟩
  · next r rest hctl => exact .inr ⟨r, rest, hctl⟩

/-- A release does not wait for anything but the end of a beacon thread. -/
lemma resumes_release (h : I.job = some .release) (hr : I.Resumes I') : I' = I := by
  rcases hr with hr | hr | hr | ⟨n, hr⟩
  · exact hr
  all_goals
    rcases release_of_job h with ⟨rest, hctl⟩ | ⟨r, rest, hctl⟩ <;>
      exact absurd hr (by simp [onWake, onTimeout, onElapsed, hctl])

lemma on_step (he : e.isCall = false) (h : I.On A) (hs : I.step e = some (I', sent)) :
    I'.On A := by
  have hjob := job_step he hs
  cases hctl' : I'.ctl with
  | free b => rw [On, hctl']; trivial
  | adquire scope retry pc =>
    obtain ⟨retry₀, pc₀, hctl⟩ := adquire_of_step he hs hctl'
    rw [On, hctl] at h
    rw [On, hctl']
    intro r hr
    rw [Lock.targets_congr (frame_step he hs).names_eq] at hr
    exact h r hr
  | query q r pc =>
    simp only [job, hctl', reduceCtorEq, false_or] at hjob
    split at hjob <;> simp only [Option.some.injEq, Job.query.injEq, reduceCtorEq] at hjob
    next q₀ r₀ pc₀ hctl =>
      rw [On, hctl] at h
      rwa [On, hctl', hjob.2]
  | releasing _ | stopping _ _ =>
    have hjob : I.job = some .release := by
      rcases hjob with hj | hj <;> rw [job, hctl'] at hj
      · exact absurd hj (by simp)
      · exact hj.symm
    rcases step_cases he hs with ⟨rfl, hr⟩ | ⟨-, hr⟩
    · rcases release_of_job hjob with ⟨rest, hctl⟩ | ⟨r, rest, hctl⟩
      · simp only [run, hctl] at hr
        rw [On, hctl] at h
        cases rest with
        | nil =>
          obtain ⟨rfl, -⟩ := Prod.mk.inj (Option.some.inj hr)
          exact trivial
        | cons r rest =>
          obtain ⟨rfl, -⟩ := Prod.mk.inj (Option.some.inj hr)
          exact ⟨h r List.mem_cons_self, fun r' hr' => h r' (List.mem_cons_of_mem r hr')⟩
      · simp only [run, hctl] at hr
        rw [On, hctl] at h
        obtain ⟨rfl, -⟩ := Prod.mk.inj (Option.some.inj hr)
        exact h.2
    · rw [resumes_release (I := ⟨I'.lock, I.ctl⟩) hjob hr]
      rcases release_of_job hjob with ⟨rest, hctl⟩ | ⟨r, rest, hctl⟩ <;> rw [On, hctl] at h ⊢ <;>
        exact h

/-- The resource that is due is one of those that the thread works on. -/
lemma on_next (hc : I.Coherent) (h : I.On A) (hn : I.next = some (res, a)) : A res := by
  cases hctl : I.ctl with
  | free b => exact absurd hn (by simp [next, hctl])
  | adquire scope retry pc =>
    rw [On, hctl] at h
    exact h res (mem_targets_of_next (hc _ _ _ hctl) hn).1
  | query q r pc =>
    rw [On, hctl] at h
    cases pc with
    | start =>
      simp only [next, hctl, Option.some.injEq, Prod.mk.injEq] at hn
      exact hn.1 ▸ h
    | _ => exact absurd hn (by simp [next, hctl])
  | releasing rest =>
    rw [On, hctl] at h
    cases rest with
    | nil => exact absurd hn (by simp [next, hctl])
    | cons r rest =>
      simp only [next, hctl, Option.some.injEq, Prod.mk.injEq] at hn
      exact hn.1 ▸ h r List.mem_cons_self
  | stopping r rest =>
    rw [On, hctl] at h
    simp only [next, hctl, Option.some.injEq, Prod.mk.injEq] at hn
    exact hn.1 ▸ h.1

end On

end Inst
end DistLock
