/-
The machine does what the written-out functions do.

`Follows` relates a computation of `DistLock.Acquire.Paths` to a position of the calling thread:
whatever the environment chooses, the machine of `DistLock.Model.Api` has a run from this position
with the same effect and the same packets.  There is one rule for each way of building a
computation, and the functions follow by these rules (`adquireLock_runs`, `adquireLockAll_runs`).
-/
import DistLock.Acquire.Paths

namespace DistLock

open Lib (Journal)

namespace Inst

variable {I I' I'' : Inst} {sent sent' : List DLPacket} {L : Lock} {ctl ctl' ctl'' : Ctl}

/-- Without a call the machine can get from one state to another, and broadcasts the given
packets on the way. -/
def Runs (I I' : Inst) (sent : List DLPacket) : Prop :=
  ∀ before, ∃ es, Lib.Run trace (fun _ e => e.isCall = false) (I, before) es (I', before ++ sent)

lemma Runs.refl (I : Inst) : I.Runs I [] :=
  fun before => ⟨[], by rw [List.append_nil]; exact .nil _⟩

lemma Runs.trans (h : I.Runs I' sent) (h' : I'.Runs I'' sent') : I.Runs I'' (sent ++ sent') := by
  intro before
  obtain ⟨es, hes⟩ := h before
  obtain ⟨es', hes'⟩ := h' (before ++ sent)
  exact ⟨es ++ es', by rw [← List.append_assoc]; exact hes.append hes'⟩

lemma runs_of_step {e : Event} (he : e.isCall = false) (h : I.step e = some (I', sent)) :
    I.Runs I' sent := by
  intro before
  have ht : trace (I, before) e = some (I', before ++ sent) := by rw [trace, h]; rfl
  exact ⟨[e], .cons he ht (.nil _)⟩

lemma runs_of_run (h : I.run = some (I', sent)) : I.Runs I' sent := runs_of_step (e := .run) rfl h

/-- A thread that is not waiting hears packets where it is. -/
lemma runs_heard (h : (⟨L, ctl⟩ : Inst).waitsOn = none) (pkts : List DLPacket) :
    (⟨L, ctl⟩ : Inst).Runs ⟨pkts.foldl Lock.hear L, ctl⟩ [] := by
  induction pkts generalizing L with
  | nil => exact .refl _
  | cons p ps ih =>
    have hhear : (⟨L, ctl⟩ : Inst).hear p = ⟨L.hear p, ctl⟩ := hear_of_ctl ⟨L, .free none⟩ p ctl
    have hp : (⟨L, ctl⟩ : Inst).actionPerformed p = ⟨L.hear p, ctl⟩ := by
      rcases actionPerformed_cases ⟨L, ctl⟩ p with hp | hp
      · rw [hp, hhear]
      · exact absurd h (by
          have := waitsOn_ne_none_of_onWake hp
          rwa [hhear] at this)
    have hstep : (⟨L, ctl⟩ : Inst).step (.deliver p) = some (⟨L.hear p, ctl⟩, []) := by
      rw [← hp]
      rfl
    exact (runs_of_step rfl hstep).trans (ih (by exact h))

/-- A wait that ends by its timeout, and what is heard until then. -/
lemma runs_timeout (ht : (⟨L, ctl⟩ : Inst).onTimeout = some ⟨L, ctl'⟩)
    (h' : (⟨L, ctl'⟩ : Inst).waitsOn = none) (pkts : List DLPacket) :
    (⟨L, ctl⟩ : Inst).Runs ⟨pkts.foldl Lock.hear L, ctl'⟩ [] := by
  have hstep : (⟨L, ctl⟩ : Inst).step .timeout = some (⟨L, ctl'⟩, []) := by
    rw [step, ht]
    rfl
  exact (runs_of_step rfl hstep).trans (runs_heard h' pkts)

/-- A wait that ends by a notification, and what is heard until then. -/
lemma runs_wake (hw : (⟨L, ctl⟩ : Inst).onWake = some ⟨L, ctl'⟩) (pkts : List DLPacket) :
    (⟨L, ctl⟩ : Inst).Runs ⟨pkts.foldl Lock.hear L, ctl'⟩ [] := by
  have hstep : (⟨L, ctl⟩ : Inst).step .wake = some (⟨L, ctl'⟩, []) := by
    rw [step, hw]
    rfl
  exact (runs_of_step rfl hstep).trans (runs_heard (waitsOn_of_onWake hw) pkts)

end Inst

namespace Thread

variable {D : Type} {F : DoubleOps D} {ns : List Name} {scope : Option Name} {retry : UInt32}
  {α β : Type} {m : Thread α} {f : α → Thread β} {ctl ctl' : Ctl} {k : α → Ctl} {k' : β → Ctl}

/-- The packets of a journal. -/
def packets (js : List (Act × List DLPacket)) : List DLPacket := js.flatMap Prod.snd

/-- The machine can do what the computation does, from the position `ctl` to the one that belongs
to the result. -/
structure Follows (ns : List Name) (m : Thread α) (ctl : Ctl) (k : α → Ctl) : Prop where
  keeps : Journal.Keeps (Lock.Defines ns) m
  runs : ∀ L : Lock, L.Defines ns →
    (⟨L, ctl⟩ : Inst).Runs ⟨(m.exec L).2.1, k (m.exec L).1⟩ (packets (m.exec L).2.2)

lemma follows_pure {a : α} (h : ctl = k a) : Follows ns (pure a) ctl k where
  keeps := Journal.keeps_pure _ _
  runs _ _ := h ▸ .refl _

lemma follows_bind (hm : Follows ns m ctl k) (hf : ∀ a, Follows ns (f a) (k a) k') :
    Follows ns (m >>= f) ctl k' where
  keeps := Journal.keeps_bind hm.keeps fun a => (hf a).keeps
  runs L hL := by
    have hL' : (m.exec L).2.1.Defines ns := hm.keeps.preserves (L, []) hL
    have hpackets : ∀ js js' : List (Act × List DLPacket),
        packets (js ++ js') = packets js ++ packets js' := fun _ _ => List.flatMap_append
    rw [Journal.exec_bind fun a => (hf a).keeps.framed, hpackets]
    exact (hm.runs L hL).trans ((hf _).runs _ hL')

/-- A step of the thread that does nothing but choose where to go on. -/
lemma follows_step (ctl' : Ctl) (hm : Follows ns m ctl' k)
    (h : ∀ L : Lock, L.Defines ns → (⟨L, ctl⟩ : Inst).run = some (⟨L, ctl'⟩, [])) :
    Follows ns m ctl k where
  keeps := hm.keeps
  runs L hL := (Inst.runs_of_run (h L hL)).trans (hm.runs L hL)

lemma follows_view {g : Lock → α}
    (h : ∀ L : Lock, L.Defines ns → (⟨L, ctl⟩ : Inst).run = some (⟨L, k (g L)⟩, [])) :
    Follows ns (Journal.view g) ctl k where
  keeps := Journal.keeps_view _ _
  runs L hL := Inst.runs_of_run (h L hL)

/-- What the functions look up without a step of the machine. -/
lemma follows_lookup {g : Lock → α} (hf : ∀ a, Follows ns (f a) ctl k') :
    Follows ns (Journal.view g >>= f) ctl k' where
  keeps := Journal.keeps_bind (Journal.keeps_view _ _) fun a => (hf a).keeps
  runs L hL := (hf (g L)).runs L hL

lemma follows_setState {res : Name} {s : State}
    (h : ∀ L : Lock, (⟨L, ctl⟩ : Inst).run = some (Inst.assign L res s ctl')) :
    Follows ns (setState res s) ctl fun _ => ctl' where
  keeps := keeps_setState res s
  runs L _ := Inst.runs_of_run ((h L).trans (by
    simp [Inst.assign, packets, setState, Journal.exec]))

lemma follows_setStates {s : State} (pos : List Name → Ctl)
    (h : ∀ (L : Lock) (res : Name) (rest : List Name),
      (⟨L, pos (res :: rest)⟩ : Inst).run = some (Inst.assign L res s (pos rest)))
    (rs : List Name) : Follows ns (setStates s rs) (pos rs) fun _ => pos [] := by
  induction rs with
  | nil => exact follows_pure rfl
  | cons res rest ih => exact follows_bind (follows_setState fun L => h L res rest) fun _ => ih

lemma follows_wait {c : CondVar} {ms : Option UInt64} {w : Wait} {k : Bool → Ctl}
    (ht : ∀ L : Lock, L.Defines ns → (⟨L, ctl⟩ : Inst).onTimeout = some ⟨L, k true⟩)
    (hw : ∀ L : Lock, L.Defines ns → (⟨L, ctl⟩ : Inst).onWake = some ⟨L, k false⟩)
    (hk : ∀ L, (⟨L, k true⟩ : Inst).waitsOn = none) : Follows ns (wait c ms w) ctl k where
  keeps := keeps_wait c ms w
  runs L hL := by
    cases w with
    | mk heard timedOut =>
      cases timedOut with
      | true => exact Inst.runs_timeout (ht L hL) (hk L) heard
      | false => exact Inst.runs_wake (hw L hL) heard

lemma follows_waitForReady {res : Name} {heard : List DLPacket}
    (hw : ∀ L : Lock, (⟨L, ctl⟩ : Inst).onWake = some ⟨L, ctl'⟩) :
    Follows ns (waitForReady res heard) ctl fun _ => ctl' where
  keeps := Journal.keeps_bind (keeps_wait _ _ _) fun _ => Journal.keeps_pure _ _
  runs L _ := Inst.runs_wake (hw L) heard

section loops

variable {targets : List Name} (hscope : ∀ L : Lock, L.Defines ns → L.targets scope = targets)

lemma follows_resetAll (rs : List Name) :
    Follows ns (resetAll rs) (.adquire scope retry (.resetting rs))
      fun _ => .adquire scope retry (.resetting []) := by
  induction rs with
  | nil => exact follows_pure rfl
  | cons res rest ih =>
    refine follows_bind (k := fun _ => .adquire scope retry (.resetting rest)) ⟨?_, ?_⟩ fun _ => ih
    · exact Journal.keeps_act fun _ h => Lock.reset_names.trans h
    · intro L _
      have hrun : (⟨L, .adquire scope retry (.resetting (res :: rest))⟩ : Inst).run =
          some (⟨(L.reset res).1, .adquire scope retry (.resetting rest)⟩, (L.reset res).2) := rfl
      exact Inst.runs_of_run (hrun.trans (by
        simp [packets, reset, Journal.exec]))

include hscope in
lemma follows_markAcquired (rs : List Name) :
    Follows ns (markAcquired rs) (.adquire scope retry (.checking rs))
      fun acquired => if acquired then .free (some true)
        else .adquire scope retry (.resetting targets) := by
  induction rs with
  | nil => exact follows_step _ (follows_pure rfl) fun _ _ => rfl
  | cons res rest ih =>
    refine follows_bind (k := fun acquirable => if acquirable then
      .adquire scope retry (.marking res rest) else .adquire scope retry (.resetting targets))
      (follows_view fun L hL => ?_) fun acquirable => ?_
    · show (if L.isAcquirable res then _ else _) = _
      rw [hscope L hL]
      split_ifs <;> rfl
    · cases acquirable with
      | true => exact follows_bind (follows_setState fun _ => rfl) fun _ => ih
      | false => exact follows_pure rfl

/-- Where the thread is after a pass. -/
def afterPass (scope : Option Name) : Option UInt32 → Ctl
  | some retry => .adquire scope retry .loop
  | none => .free (some true)

lemma follows_backoff (ms : UInt64) (w : Wait) :
    Follows ns (do let _ ← wait .backoffCv (some ms) w; return some retry)
      (.adquire scope retry .backoff) (afterPass scope) := by
  refine follows_step (.adquire scope retry .backingOff) ?_ fun _ _ => rfl
  exact follows_bind (k := fun _ => .adquire scope retry .loop) (follows_wait (fun _ _ => rfl)
    (fun _ _ => rfl) fun _ => rfl) fun _ => follows_pure rfl

include hscope in
/-- A pass of the retry loop, from its first assignment on. -/
lemma follows_pass (wt at' bt : UInt64) (c : Choices D) :
    Follows ns (pass targets wt at' bt c retry) (.adquire scope retry (.starting targets))
      (afterPass scope) := by
  have hfail : Follows ns
      (do resetAll targets; let _ ← wait .backoffCv (some bt) c.backoff; return some (retry + 1))
      (.adquire scope retry (.resetting targets)) (afterPass scope) :=
    follows_bind (follows_resetAll targets) fun _ =>
      follows_step _ (follows_backoff bt c.backoff) fun _ _ => rfl
  refine follows_bind (follows_setStates (fun rs => .adquire scope retry (.starting rs))
    (fun _ _ _ => rfl) targets) fun _ => ?_
  refine follows_bind (k := fun heard => if heard then .adquire scope retry .backoff
    else .adquire scope retry (.announcing targets)) ?_ fun heard => ?_
  · refine follows_step (.adquire scope retry .listening) ?_ fun _ _ => rfl
    refine follows_bind (k := fun timedOut => if timedOut then
      .adquire scope retry (.announcing targets) else .adquire scope retry .backoff)
      (follows_wait (fun L hL => ?_) (fun _ _ => rfl) fun _ => rfl) fun timedOut => ?_
    · exact congrArg (fun rs => some (⟨L, .adquire scope retry (.announcing rs)⟩ : Inst))
        (hscope L hL)
    · cases timedOut with
      | true => exact follows_pure rfl
      | false => exact follows_pure rfl
  cases heard with
  | true => exact follows_backoff bt c.backoff
  | false =>
    refine follows_bind (follows_setStates (fun rs => .adquire scope retry (.announcing rs))
      (fun _ _ _ => rfl) targets) fun _ => ?_
    refine follows_step (.adquire scope retry .colliding) ?_ fun _ _ => rfl
    refine follows_bind (k := fun timedOut => if timedOut then
      .adquire scope retry (.checking targets) else .adquire scope retry (.resetting targets))
      (follows_wait (fun L hL => ?_) (fun L hL => ?_) fun _ => rfl) fun timedOut => ?_
    · exact congrArg (fun rs => some (⟨L, .adquire scope retry (.checking rs)⟩ : Inst))
        (hscope L hL)
    · exact congrArg (fun rs => some (⟨L, .adquire scope retry (.resetting rs)⟩ : Inst))
        (hscope L hL)
    · cases timedOut with
      | false => exact hfail
      | true =>
        refine follows_bind (follows_markAcquired hscope targets) fun acquired => ?_
        cases acquired with
        | false => exact hfail
        | true => exact follows_pure rfl

include hscope in
/-- The retry loop; if the function is still trying, then the thread has begun another pass. -/
lemma runs_retryLoop {body : Choices D → UInt32 → Thread (Option UInt32)}
    (hbody : ∀ c retry, Follows ns (body c retry) (.adquire scope retry (.starting targets))
      (afterPass scope)) (cs : List (Choices D)) (retry : UInt32) {L : Lock} (hL : L.Defines ns) :
    let r := (retryLoop body cs retry).exec L
    ∃ ctl, (⟨L, .adquire scope retry .loop⟩ : Inst).Runs ⟨r.2.1, ctl⟩ (packets r.2.2) ∧
      (∀ b, r.1 = some b → ctl = .free (some b)) ∧
      (r.1 = none → ∃ retry', ctl = .adquire scope retry' (.starting targets)) := by
  have hrun : ∀ (L : Lock) (retry : UInt32), L.Defines ns →
      (⟨L, .adquire scope retry .loop⟩ : Inst).run = some (⟨L,
        if L.mayTry retry then .adquire scope retry (.starting targets) else .free (some false)⟩,
        []) := by
    intro L retry hL
    show (if L.mayTry retry then _ else _) = _
    rw [hscope L hL]
    split_ifs <;> rfl
  -- on the choices that are left; each pass takes the first of them
  induction cs generalizing retry L with
  | nil =>
    have hL := hrun L retry hL
    rw [Journal.exec, retryLoop_nil]
    split_ifs at hL ⊢
    · exact ⟨_, Inst.runs_of_run hL, by simp, fun _ => ⟨retry, rfl⟩⟩
    · exact ⟨_, Inst.runs_of_run hL, by simp, by simp⟩
  | cons c cs ih =>
    have hbegin := hrun L retry hL
    have hL' : ((body c retry).exec L).2.1.Defines ns := (hbody c retry).keeps.preserves (L, []) hL
    rw [Journal.exec, retryLoop_cons]
    split_ifs at hbegin ⊢
    · have hpass := (Inst.runs_of_run hbegin).trans ((hbody c retry).runs L hL)
      show ∃ ctl, _
      rw [Journal.exec] at hpass hL'
      cases hres : (body c retry (L, [])).1 with
      -- the pass has returned
      | none =>
        rw [hres] at hpass
        exact ⟨_, hpass, by simp [afterPass], by simp⟩
      | some retry' =>
        rw [hres] at hpass
        obtain ⟨ctl, hruns, hctl⟩ := ih retry' hL'
        have hkeeps : Journal.Keeps (Lock.Defines ns) (retryLoop body cs retry') :=
          keeps_retryLoop (fun c r => (hbody c r).keeps) cs retry'
        have hframed := hkeeps.framed (body c retry (L, [])).2.1 (body c retry (L, [])).2.2
        simp only [Prod.mk.eta] at hframed
        refine ⟨ctl, ?_, ?_⟩
        · have := hpass.trans hruns
          simp only [hframed]
          simpa [packets] using this
        · simpa only [hframed] using hctl
    · exact ⟨_, Inst.runs_of_run hbegin, by simp, by simp⟩

end loops

lemma follows_adquireBody (res : Name) (c : Choices D) (retry : UInt32) :
    Follows ns (adquireBody F res c retry) (.adquire (some res) retry (.starting [res]))
      (afterPass (some res)) := by
  rw [adquireBody_eq]
  exact follows_lookup fun b => follows_pass (fun _ _ => rfl) _ _ _ c

lemma follows_adquireAllBody (c : Choices D) (retry : UInt32) :
    Follows ns (adquireAllBody F c retry) (.adquire none retry (.starting ns))
      (afterPass none) := by
  rw [adquireAllBody_eq]
  have htargets : ∀ L : Lock, L.Defines ns → L.targets none = ns := fun _ hL => hL
  refine follows_lookup fun b => ⟨?_, fun L hL => ?_⟩
  · exact Journal.keeps_bind (Journal.keeps_view _ _) fun _ => keeps_pass _ _ _ _ _ _
  · have hpass : Follows ns
        (pass ns (waitTime F b c) (b * senseBeacons) (backoffTime F b c) c retry)
        (.adquire none retry (.starting ns)) (afterPass none) := follows_pass htargets _ _ _ c
    have hnames : L.names = ns := hL
    rw [Journal.exec, Journal.bind_apply, Journal.view_apply, hnames]
    exact hpass.runs L hL

lemma follows_startAll (heard : Name → List DLPacket) (rs : List Name) :
    Follows ns (startAll heard rs) (.adquire none 0 (.start rs))
      fun _ => .adquire none 0 .loop := by
  induction rs with
  | nil =>
    exact follows_step _ (follows_pure (k := fun _ => .adquire none 0 .loop) rfl) fun _ _ => rfl
  | cons res rest ih =>
    refine follows_bind (follows_setState fun _ => rfl) fun _ => ?_
    exact follows_bind (follows_waitForReady fun _ => rfl) fun _ => ih

/-- **What `adquire_lock(res)` does, the machine can do.** -/
theorem adquireLock_runs {L : Lock} {res : Name} (hres : res ≠ []) (cs : List (Choices D)) :
    let r := (adquireLock F res cs).exec L
    ∃ ctl, (Inst.enter L (.acquire res)).Runs ⟨r.2.1, ctl⟩ (packets r.2.2) ∧
      (∀ b, r.1 = some b → ctl = .free (some b)) ∧
      (r.1 = none → ∃ retry, ctl = .adquire (some res) retry (.starting [res])) := by
  have henter : Inst.enter L (.acquire res) =
      ⟨L.createResource res, .adquire (some res) 0 .loop⟩ := by
    cases res with
    | nil => exact absurd rfl hres
    | cons b bs => rfl
  have hL : (L.createResource res).Defines (L.createResource res).names := rfl
  rw [henter]
  exact runs_retryLoop (fun _ _ => rfl) (follows_adquireBody (F := F) res) cs 0 hL

/-- **What `adquire_lock()` does, the machine can do.** -/
theorem adquireLockAll_runs (L : Lock) (heard : Name → List DLPacket) (cs : List (Choices D)) :
    let r := (adquireLockAll F heard cs).exec L
    ∃ ctl, (Inst.enter L (.acquire [])).Runs ⟨r.2.1, ctl⟩ (packets r.2.2) ∧
      (∀ b, r.1 = some b → ctl = .free (some b)) ∧
      (r.1 = none → ∃ retry, ctl = .adquire none retry (.starting L.names)) := by
  by_cases hempty : L.names.length = 0
  · have hentries : L.resources.entries.length = 0 := by
      simpa [Lock.names, Lib.OrdMap.keys, List.keys] using hempty
    rw [Inst.enter, if_pos hentries, Journal.exec, adquireLockAll, Journal.bind_apply,
      Journal.view_apply, if_pos hempty]
    refine ⟨_, .refl _, by simp, by simp⟩
  · have hentries : ¬ L.resources.entries.length = 0 := by
      simpa [Lock.names, Lib.OrdMap.keys, List.keys] using hempty
    have hstart : Follows L.names (startAll heard L.names) (.adquire none 0 (.start L.names))
        fun _ => .adquire none 0 .loop := follows_startAll heard L.names
    have hkeeps : Journal.Keeps (Lock.Defines L.names) (retryLoop (adquireAllBody F) cs 0) :=
      keeps_retryLoop (keeps_adquireAllBody F) cs 0
    have hL' : ((startAll heard L.names).exec L).2.1.Defines L.names :=
      hstart.keeps.preserves (L, []) rfl
    have hexec : (adquireLockAll F heard cs).exec L =
        (startAll heard L.names >>= fun _ => retryLoop (adquireAllBody F) cs 0).exec L := by
      rw [Journal.exec, adquireLockAll, Journal.bind_apply, Journal.view_apply, if_neg hempty]
      rfl
    have htargets : ∀ L' : Lock, L'.Defines L.names → L'.targets none = L.names := fun _ hL => hL
    obtain ⟨ctl, hruns, hctl⟩ := runs_retryLoop htargets
      (follows_adquireAllBody (F := F)) cs 0 hL'
    rw [Inst.enter, if_neg hentries, hexec, Journal.exec_bind fun _ => hkeeps.framed]
    refine ⟨ctl, ?_, hctl⟩
    simpa [packets] using (hstart.runs L rfl).trans hruns

end Thread
end DistLock
