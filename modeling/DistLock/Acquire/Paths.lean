/-
The two functions `adquire_lock(res)` and `adquire_lock()`, each written out as in the source.

The machine of `DistLock.Model.Api` runs both through the same positions.  Here they are two
separate functions, with the durations of their waits, that take the choices of their
environment from a list: what is heard in a wait, whether it runs into its timeout, and what
the random generator draws.  With one resource they do the same (`adquire_lock_agree`).
-/
import DistLock.Lib.Journal
import DistLock.Lib.Run
import DistLock.Model.Spec
import Mathlib.Data.Rat.Floor

namespace DistLock

open Lib (Journal)

/-- `SENSE_BEACONS`. -/
def senseBeacons : UInt64 := 3

/-- The operations on `double` with which the durations are computed. -/
structure DoubleOps (D : Type) where
  ofUInt : UInt64 → D
  mul : D → D → D
  onePlus : D → D
  toUInt : D → UInt64

/-- What happens in a timed wait. -/
structure Wait where
  heard : List DLPacket
  timedOut : Bool

/-- What the environment chooses in a pass of the retry loop; the choices for a wait that the
pass does not reach are not used. -/
structure Choices (D : Type) where
  listenDraw : D
  listen : Wait
  collision : Wait
  backoffDraw : D
  backoff : Wait

/-- An action of the calling thread.  A wait without a duration is not timed. -/
inductive Act
  | setState (res : Name) (s : State)
  | reset (res : Name)
  | wait (c : CondVar) (ms : Option UInt64)
  deriving DecidableEq

/-- What a packet does to the member tables. -/
def Lock.hear (L : Lock) (pkt : DLPacket) : Lock := (Inst.hear ⟨L, .free none⟩ pkt).lock

namespace Lock

variable {L : Lock} {ns : List Name}

/-- The lock has the resources with the given names. -/
def Defines (ns : List Name) (L : Lock) : Prop := L.names = ns

lemma defines_hear {pkt : DLPacket} (h : L.Defines ns) : (L.hear pkt).Defines ns :=
  Inst.hear_names.trans h

lemma defines_foldl_hear {pkts : List DLPacket} (h : L.Defines ns) :
    (pkts.foldl hear L).Defines ns := by
  induction pkts generalizing L with
  | nil => exact h
  | cons p ps ih => exact ih (defines_hear h)

end Lock

/-- A thread at work on the resources.  Its journal has the actions, each with the packets that
it broadcasts. -/
abbrev Thread : Type → Type := Journal Lock (Act × List DLPacket)

namespace Thread

def setState (res : Name) (s : State) : Thread Unit :=
  Journal.act (fun L => (L.setState res s).1) fun L => (.setState res s, (L.setState res s).2)

def reset (res : Name) : Thread Unit :=
  Journal.act (fun L => (L.reset res).1) fun L => (.reset res, (L.reset res).2)

def isAcquirable (res : Name) : Thread Bool := Journal.view (·.isAcquirable res)

/-- `createResource`, which broadcasts nothing and is no action on an existing resource. -/
def createResource (res : Name) : Thread Unit := fun s => ((), s.1.createResource res, s.2)

/-- A wait on a condition variable; the result tells whether it ended by its timeout. -/
def wait (c : CondVar) (ms : Option UInt64) (w : Wait) : Thread Bool := do
  Journal.act (fun L => w.heard.foldl Lock.hear L) fun _ => (.wait c ms, [])
  return w.timedOut

/-- `listenForPacket`. -/
def listenForPacket (wt : UInt64) (w : Wait) : Thread Bool := do
  if ← wait .listenCv (some wt) w then return false
  return true

/-- `waitForReady`, which returns when the beacon thread of the resource has notified. -/
def waitForReady (res : Name) (heard : List DLPacket) : Thread Unit := do
  let _ ← wait (.startedCv res) none ⟨heard, false⟩

variable {D : Type} (F : DoubleOps D) {res : Name}

/-- The loop `while ((retry_max == 0) || retry < retry_max)`.  Its body returns the new value of
`retry`, or `none` where the source returns `true` from the function.  The result is `none` if
the function is still trying when the choices are used up. -/
def retryLoop (body : Choices D → UInt32 → Thread (Option UInt32)) :
    List (Choices D) → UInt32 → Thread (Option Bool)
  | [], retry => do
    if ← Journal.view fun L => decide (L.mayTry retry) then return none
    return some false
  | c :: cs, retry => do
    if ← Journal.view fun L => decide (L.mayTry retry) then
      match ← body c retry with
      | some retry => retryLoop body cs retry
      | none => return some true
    else return some false

/-! ### `adquire_lock(std::string res)` -/

/-- The body of the retry loop of `adquire_lock(res)`. -/
def adquireBody (res : Name) (c : Choices D) (retry : UInt32) : Thread (Option UInt32) := do
  let mut retry := retry
  let beaconTime ← Journal.view (·.beaconTime)
  setState res .starting
  let wait_time := F.toUInt
    (F.mul (F.ofUInt beaconTime) (F.mul (F.ofUInt senseBeacons) (F.onePlus c.listenDraw)))
  if !(← listenForPacket wait_time c.listen) then
    setState res .acquiring
    let adquiring_time := beaconTime * senseBeacons
    if ← wait .cv (some adquiring_time) c.collision then
      if ← isAcquirable res then
        setState res .acquired
        return none
    reset res
    retry := retry + 1
  let backoff_time := F.toUInt
    (F.mul (F.ofUInt (beaconTime * maxBackoff)) (F.onePlus c.backoffDraw))
  let _ ← wait .backoffCv (some backoff_time) c.backoff
  return some retry

/-- `adquire_lock(res)`. -/
def adquireLock (res : Name) (cs : List (Choices D)) : Thread (Option Bool) := do
  createResource res
  retryLoop (adquireBody F res) cs 0

/-! ### `adquire_lock()` -/

/-- The loop over the resources before `on_start`. -/
def startAll (heard : Name → List DLPacket) : List Name → Thread Unit
  | [] => return ()
  | res :: rest => do
    setState res .starting
    waitForReady res (heard res)
    startAll heard rest

/-- A loop that assigns a state to all resources. -/
def setStates (s : State) : List Name → Thread Unit
  | [] => return ()
  | res :: rest => do
    setState res s
    setStates s rest

/-- The loop that marks the resources as acquired until one of them is not acquirable; the
result is `all_acquirable`. -/
def markAcquired : List Name → Thread Bool
  | [] => return true
  | res :: rest => do
    if ← isAcquirable res then
      setState res .acquired
      markAcquired rest
    else return false

/-- The loop that resets all resources. -/
def resetAll : List Name → Thread Unit
  | [] => return ()
  | res :: rest => do
    reset res
    resetAll rest

/-- The body of the retry loop of `adquire_lock()`. -/
def adquireAllBody (c : Choices D) (retry : UInt32) : Thread (Option UInt32) := do
  let mut retry := retry
  let beaconTime ← Journal.view (·.beaconTime)
  let resources ← Journal.view Lock.names
  setStates .starting resources
  let wait_time := F.toUInt
    (F.mul (F.ofUInt beaconTime) (F.mul (F.ofUInt senseBeacons) (F.onePlus c.listenDraw)))
  if !(← listenForPacket wait_time c.listen) then
    setStates .acquiring resources
    let adquiring_time := beaconTime * senseBeacons
    if ← wait .cv (some adquiring_time) c.collision then
      if ← markAcquired resources then
        return none
    resetAll resources
    retry := retry + 1
  let backoff_time := F.toUInt
    (F.mul (F.ofUInt (beaconTime * 2 * senseBeacons)) (F.onePlus c.backoffDraw))
  let _ ← wait .backoffCv (some backoff_time) c.backoff
  return some retry

/-- `adquire_lock()`; `heard res` is what is heard while `waitForReady` waits for `res`. -/
def adquireLockAll (heard : Name → List DLPacket) (cs : List (Choices D)) :
    Thread (Option Bool) := do
  let resources ← Journal.view Lock.names
  if resources.length = 0 then return some false
  startAll heard resources
  retryLoop (adquireAllBody F) cs 0

/-! ### The common form of the two bodies -/

/-- A pass of the retry loop over the given resources, with the given durations. -/
def pass (resources : List Name) (wait_time adquiring_time backoff_time : UInt64) (c : Choices D)
    (retry : UInt32) : Thread (Option UInt32) := do
  let mut retry := retry
  setStates .starting resources
  if !(← listenForPacket wait_time c.listen) then
    setStates .acquiring resources
    if ← wait .cv (some adquiring_time) c.collision then
      if ← markAcquired resources then
        return none
    resetAll resources
    retry := retry + 1
  let _ ← wait .backoffCv (some backoff_time) c.backoff
  return some retry

/-- The duration of the listening. -/
def waitTime (b : UInt64) (c : Choices D) : UInt64 :=
  F.toUInt (F.mul (F.ofUInt b) (F.mul (F.ofUInt senseBeacons) (F.onePlus c.listenDraw)))

/-- The duration of the backoff. -/
def backoffTime (b : UInt64) (c : Choices D) : UInt64 :=
  F.toUInt (F.mul (F.ofUInt (b * maxBackoff)) (F.onePlus c.backoffDraw))

/-- The constants by which the two functions multiply for the backoff are the same. -/
lemma mul_senseBeacons (b : UInt64) : b * 2 * senseBeacons = b * maxBackoff := by
  rw [UInt64.mul_assoc]
  rfl

lemma setStates_singleton (res : Name) (s : State) : setStates s [res] = setState res s := rfl

lemma resetAll_singleton (res : Name) : resetAll [res] = reset res := rfl

/-- What follows the loop that marks the resources, if there is only one. -/
lemma markAcquired_bind (res : Name) {α : Type} (k : Bool → Thread α) :
    (markAcquired [res] >>= k) = isAcquirable res >>= fun acquirable =>
      if acquirable then setState res .acquired >>= fun _ => k true else k false := by
  rw [markAcquired, bind_assoc]
  refine bind_congr fun b => ?_
  cases b <;> rfl

section body

variable (c : Choices D) (retry : UInt32)

lemma adquireBody_eq (res : Name) :
    adquireBody F res c retry = Journal.view (·.beaconTime) >>= fun b =>
      pass [res] (waitTime F b c) (b * senseBeacons) (backoffTime F b c) c retry := by
  rw [adquireBody]
  simp only [pass, setStates_singleton, resetAll_singleton, markAcquired_bind, if_true,
    Bool.false_eq_true, if_false]
  rfl

lemma adquireAllBody_eq :
    adquireAllBody F c retry = Journal.view (·.beaconTime) >>= fun b =>
      Journal.view Lock.names >>= fun ns =>
        pass ns (waitTime F b c) (b * senseBeacons) (backoffTime F b c) c retry := by
  rw [adquireAllBody]
  simp only [mul_senseBeacons]
  rfl

/-- With one resource the two bodies do the same. -/
lemma adquireAllBody_of_singleton {s : Lock × List (Act × List DLPacket)}
    (h : s.1.Defines [res]) : adquireAllBody F c retry s = adquireBody F res c retry s := by
  have hnames : s.1.names = [res] := h
  rw [adquireAllBody_eq, adquireBody_eq]
  simp only [Journal.bind_apply, Journal.view_apply, hnames]

end body

/-! ### What the functions keep -/

section Keeps

variable {ns : List Name}

lemma keeps_setState (res : Name) (s : State) : Journal.Keeps (Lock.Defines ns) (setState res s) :=
  Journal.keeps_act fun _ h => Lock.setState_names.trans h

lemma keeps_setStates (s : State) (rs : List Name) :
    Journal.Keeps (Lock.Defines ns) (setStates s rs) := by
  induction rs with
  | nil => exact Journal.keeps_pure _ _
  | cons res rest ih => exact Journal.keeps_bind (keeps_setState res s) fun _ => ih

lemma keeps_resetAll (rs : List Name) : Journal.Keeps (Lock.Defines ns) (resetAll rs) := by
  induction rs with
  | nil => exact Journal.keeps_pure _ _
  | cons res rest ih =>
    exact Journal.keeps_bind (Journal.keeps_act fun _ h => Lock.reset_names.trans h) fun _ => ih

lemma keeps_markAcquired (rs : List Name) : Journal.Keeps (Lock.Defines ns) (markAcquired rs) := by
  induction rs with
  | nil => exact Journal.keeps_pure _ _
  | cons res rest ih =>
    refine Journal.keeps_bind (Journal.keeps_view _ _) fun acquirable => ?_
    cases acquirable with
    | true => exact Journal.keeps_bind (keeps_setState res _) fun _ => ih
    | false => exact Journal.keeps_pure _ _

lemma keeps_wait (c : CondVar) (ms : Option UInt64) (w : Wait) :
    Journal.Keeps (Lock.Defines ns) (wait c ms w) :=
  Journal.keeps_bind (Journal.keeps_act fun _ => Lock.defines_foldl_hear) fun _ =>
    Journal.keeps_pure _ _

lemma keeps_listenForPacket (wt : UInt64) (w : Wait) :
    Journal.Keeps (Lock.Defines ns) (listenForPacket wt w) := by
  refine Journal.keeps_bind (keeps_wait _ _ _) fun b => ?_
  cases b <;> exact Journal.keeps_pure _ _

lemma keeps_pass (rs : List Name) (wt at' bt : UInt64) (c : Choices D) (retry : UInt32) :
    Journal.Keeps (Lock.Defines ns) (pass rs wt at' bt c retry) := by
  have hbackoff : ∀ retry : UInt32, Journal.Keeps (Lock.Defines ns)
      (do let _ ← wait .backoffCv (some bt) c.backoff; return some retry) :=
    fun retry => Journal.keeps_bind (keeps_wait _ _ _) fun _ => Journal.keeps_pure _ _
  have hfail : Journal.Keeps (Lock.Defines ns)
      (do resetAll rs; let _ ← wait .backoffCv (some bt) c.backoff; return some (retry + 1)) :=
    Journal.keeps_bind (keeps_resetAll rs) fun _ => hbackoff _
  refine Journal.keeps_bind (keeps_setStates _ rs) fun _ => ?_
  refine Journal.keeps_bind (keeps_listenForPacket _ _) fun heard => ?_
  cases heard with
  | true => exact hbackoff _
  | false =>
    refine Journal.keeps_bind (keeps_setStates _ rs) fun _ => ?_
    refine Journal.keeps_bind (keeps_wait _ _ _) fun timedOut => ?_
    cases timedOut with
    | false => exact hfail
    | true =>
      refine Journal.keeps_bind (keeps_markAcquired rs) fun acquired => ?_
      cases acquired with
      | false => exact hfail
      | true => exact Journal.keeps_pure _ _

lemma keeps_adquireBody (res : Name) (c : Choices D) (retry : UInt32) :
    Journal.Keeps (Lock.Defines ns) (adquireBody F res c retry) := by
  rw [adquireBody_eq]
  exact Journal.keeps_bind (Journal.keeps_view _ _) fun _ => keeps_pass _ _ _ _ _ _

lemma keeps_adquireAllBody (c : Choices D) (retry : UInt32) :
    Journal.Keeps (Lock.Defines ns) (adquireAllBody F c retry) := by
  rw [adquireAllBody_eq]
  exact Journal.keeps_bind (Journal.keeps_view _ _) fun _ =>
    Journal.keeps_bind (Journal.keeps_view _ _) fun _ => keeps_pass _ _ _ _ _ _

lemma keeps_retryLoop {body : Choices D → UInt32 → Thread (Option UInt32)}
    (hbody : ∀ c retry, Journal.Keeps (Lock.Defines ns) (body c retry)) (cs : List (Choices D))
    (retry : UInt32) : Journal.Keeps (Lock.Defines ns) (retryLoop body cs retry) := by
  induction cs generalizing retry with
  | nil =>
    refine Journal.keeps_bind (Journal.keeps_view _ _) fun b => ?_
    cases b <;> exact Journal.keeps_pure _ _
  | cons c cs ih =>
    refine Journal.keeps_bind (Journal.keeps_view _ _) fun b => ?_
    cases b with
    | false => exact Journal.keeps_pure _ _
    | true =>
      refine Journal.keeps_bind (hbody c retry) fun r => ?_
      cases r with
      | none => exact Journal.keeps_pure _ _
      | some retry => exact ih retry

end Keeps

section retryLoop

variable {body body' : Choices D → UInt32 → Thread (Option UInt32)} {retry : UInt32}

lemma retryLoop_nil (body : Choices D → UInt32 → Thread (Option UInt32)) (retry : UInt32)
    (s : Lock × List (Act × List DLPacket)) :
    retryLoop body [] retry s = (if s.1.mayTry retry then none else some false, s) := by
  rw [retryLoop, Journal.bind_apply, Journal.view_apply]
  by_cases h : s.1.mayTry retry
  · rw [if_pos h, if_pos (decide_eq_true h)]
    rfl
  · rw [if_neg h, if_neg (by simpa using h)]
    rfl

lemma retryLoop_cons (body : Choices D → UInt32 → Thread (Option UInt32)) (c : Choices D)
    (cs : List (Choices D)) (retry : UInt32) (s : Lock × List (Act × List DLPacket)) :
    retryLoop body (c :: cs) retry s =
      if s.1.mayTry retry then
        match (body c retry s).1 with
        | some retry' => retryLoop body cs retry' (body c retry s).2
        | none => (some true, (body c retry s).2)
      else (some false, s) := by
  rw [retryLoop, Journal.bind_apply, Journal.view_apply]
  by_cases h : s.1.mayTry retry
  · rw [if_pos h, if_pos (decide_eq_true h), Journal.bind_apply]
    cases (body c retry s).1 <;> rfl
  · rw [if_neg h, if_neg (by simpa using h)]
    rfl

/-- Bodies that do the same as long as the resources are the given ones. -/
lemma retryLoop_congr {ns : List Name}
    (hbody : ∀ c retry, Journal.Keeps (Lock.Defines ns) (body c retry))
    (heq : ∀ c retry s, s.1.Defines ns → body' c retry s = body c retry s) (cs : List (Choices D))
    (retry : UInt32) (s : Lock × List (Act × List DLPacket)) (hs : s.1.Defines ns) :
    retryLoop body' cs retry s = retryLoop body cs retry s := by
  induction cs generalizing retry s with
  | nil => rfl
  | cons c cs ih =>
    rw [retryLoop_cons, retryLoop_cons]
    simp only [heq c retry s hs]
    split_ifs
    · cases (body c retry s).1 with
      | none => rfl
      | some retry' => exact ih retry' _ ((hbody c retry).preserves s hs)
    · rfl

end retryLoop

/-! ### The two functions agree -/

/-- `adquire_lock(res)` with an existing resource. -/
lemma adquireLock_exec {L : Lock} (h : L.Defines [res]) (cs : List (Choices D)) :
    (adquireLock F res cs).exec L = (retryLoop (adquireBody F res) cs 0).exec L := by
  have hcreate : L.createResource res = L := by
    obtain ⟨R, hR⟩ := Lock.mem_names_iff.mp (h ▸ List.mem_singleton_self res)
    rw [Lock.createResource, hR]
  rw [Journal.exec, adquireLock, Journal.bind_apply, createResource, hcreate]
  rfl

lemma mayTry_zero (L : Lock) : L.mayTry 0 := by
  by_cases h : L.retryMax = 0
  · exact .inl h
  · exact .inr (UInt32.pos_iff_ne_zero.mpr h)

/-- The state that the resource has before does not matter, since each pass assigns it first. -/
lemma retryLoop_of_setState {L L' : Lock}
    (h : L'.setState res .starting = L.setState res .starting) (cs : List (Choices D)) :
    let r := (retryLoop (adquireBody F res) cs 0).exec L
    let r' := (retryLoop (adquireBody F res) cs 0).exec L'
    r'.1 = r.1 ∧ r'.2.2 = r.2.2 := by
  cases cs with
  | nil =>
    have hnil : ∀ L : Lock, (retryLoop (adquireBody F res) [] 0).exec L = (none, L, []) := by
      intro L
      rw [Journal.exec, retryLoop_nil, if_pos (mayTry_zero L)]
    simp [hnil]
  | cons c cs =>
    have hbeacon : L'.beaconTime = L.beaconTime := by
      have := congrArg (fun r : Lock × List DLPacket => r.1.beaconTime) h
      simpa [Lock.setState] using this
    have hset : setState res .starting (L', []) = setState res .starting (L, []) := by
      rw [setState, Journal.act_apply, Journal.act_apply]
      simp only [h]
    have hbody : adquireBody F res c 0 (L', []) = adquireBody F res c 0 (L, []) := by
      simp only [adquireBody, Journal.bind_apply, Journal.view_apply, hbeacon, hset]
    rw [Journal.exec, Journal.exec, retryLoop_cons, retryLoop_cons, if_pos (mayTry_zero L),
      if_pos (mayTry_zero L'), hbody]
    exact ⟨rfl, rfl⟩

/-- **The two functions agree.**  With the one resource `res`, `adquire_lock()` announces it,
waits for its beacon thread, and then does what `adquire_lock(res)` does from there. -/
theorem adquire_lock_agree {L : Lock} (h : L.names = [res]) (heard : List DLPacket)
    (cs : List (Choices D)) :
    let ready := heard.foldl Lock.hear (L.setState res .starting).1
    let one := (adquireLock F res cs).exec ready
    let all := (adquireLockAll F (fun _ => heard) cs).exec L
    all.1 = one.1 ∧ all.2.1 = one.2.1 ∧
      all.2.2 = (.setState res .starting, (L.setState res .starting).2) ::
        (.wait (.startedCv res) none, []) :: one.2.2 ∧
      (heard = [] →
        let one' := (adquireLock F res cs).exec L
        all.1 = one'.1 ∧
          all.2.2 = (.setState res .starting, (L.setState res .starting).2) ::
            (.wait (.startedCv res) none, []) :: one'.2.2) := by
  have hready : (heard.foldl Lock.hear (L.setState res .starting).1).Defines [res] :=
    Lock.defines_foldl_hear (Lock.setState_names.trans h)
  have hstart : ∀ s : Lock × List (Act × List DLPacket), s.1.Defines [res] →
      adquireLockAll F (fun _ => heard) cs s =
        retryLoop (adquireAllBody F) cs 0 (startAll (fun _ => heard) [res] s).2 := by
    intro s hs
    have hs : s.1.names = [res] := hs
    rw [adquireLockAll, Journal.bind_apply, Journal.view_apply, hs, if_neg (by simp)]
    rfl
  -- after the start both functions are the same loop over one resource
  have hall : (adquireLockAll F (fun _ => heard) cs).exec L =
      let one := (adquireLock F res cs).exec (heard.foldl Lock.hear (L.setState res .starting).1)
      (one.1, one.2.1, (.setState res .starting, (L.setState res .starting).2) ::
        (.wait (.startedCv res) none, []) :: one.2.2) := by
    rw [Journal.exec, hstart (L, []) h, retryLoop_congr (keeps_adquireBody F res)
      (fun c retry _ => adquireAllBody_of_singleton F c retry) cs 0 _ hready,
      adquireLock_exec F hready]
    have hkeeps : Journal.Keeps (Lock.Defines [res]) (retryLoop (adquireBody F res) cs 0) :=
      keeps_retryLoop (keeps_adquireBody F res) cs 0
    exact hkeeps.framed _ _
  refine ⟨by rw [hall], by rw [hall], by rw [hall], ?_⟩
  rintro rfl
  -- without packets the second `STARTING` repeats the first
  obtain ⟨hres, hjournal⟩ := retryLoop_of_setState F (Lock.setState_setState (L := L)) cs
  rw [hall, adquireLock_exec F hready, adquireLock_exec F h]
  exact ⟨hres, by rw [← hjournal]; rfl⟩

/-- The operations on numbers that `double` represents exactly. -/
def exactOps : DoubleOps ℚ where
  ofUInt n := n.toNat
  mul a b := a * b
  onePlus a := 1 + a
  toUInt a := UInt64.ofNat ⌊a⌋.toNat

/-- Two passes, of which the first meets a collision, and the second is undisturbed. -/
def collideOnce : List (Choices ℚ) :=
  [⟨1 / 4, ⟨[], true⟩, ⟨[], false⟩, 1 / 2, ⟨[], true⟩⟩,
    ⟨1 / 2, ⟨[], true⟩, ⟨[], true⟩, 0, ⟨[], true⟩⟩]

theorem adquire_lock_agree_twice :
    let L := (Lock.new 1 50).createResource [97]
    ((adquireLockAll exactOps (fun _ => []) collideOnce).exec L).1 = some true ∧
      ((adquireLockAll exactOps (fun _ => []) collideOnce).exec L).2.2.drop 2 =
        ((adquireLock exactOps [97] collideOnce).exec L).2.2 ∧
      ((adquireLock exactOps [97] collideOnce).exec L).2.2.map Prod.fst =
        [.setState [97] .starting, .wait .listenCv (some 187), .setState [97] .acquiring,
          .wait .cv (some 150), .reset [97], .wait .backoffCv (some 450),
          .setState [97] .starting, .wait .listenCv (some 225), .setState [97] .acquiring,
          .wait .cv (some 150), .setState [97] .acquired] := by
  have hnames : ((Lock.new 1 50).createResource [97]).names = [[97]] := rfl
  have h := (adquire_lock_agree exactOps hnames [] collideOnce).2.2.2 rfl
  have hres : ((adquireLock exactOps [97] collideOnce).exec
      ((Lock.new 1 50).createResource [97])).1 = some true := by decide +kernel
  exact ⟨h.1.trans hres, by rw [h.2]; rfl, by decide +kernel⟩

end Thread
end DistLock
