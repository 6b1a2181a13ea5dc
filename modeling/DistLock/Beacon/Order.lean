/-
The order of the announcements.

`setState` and the beacon thread send for the same resource, and both build a packet before
they send it.  If `setState` sends while the beacon thread still holds an older packet, the
older state is announced after the newer one.  Otherwise the announcements follow the
assignments, and the last one before a resource falls silent is `RELEASED`.
-/
import DistLock.Beacon.Threads

namespace DistLock

/-- The packet that the calling thread has built and not yet sent. -/
def ApiPc.held : ApiPc → Option (ℕ × DLPacket)
  | sending _ m => some m
  | _ => none

/-- The packet that the beacon thread has built and not yet sent. -/
def BeaconPc.held : BeaconPc → Option (ℕ × DLPacket)
  | sending m => some m
  | _ => none

/-- The assignment has been made, but `setState` has not sent its packet. -/
def ApiPc.Unsent : ApiPc → Prop
  | building _ | sending _ _ => True
  | _ => False

namespace Threads

/-- `setState` does not send while the beacon thread holds an older packet. -/
def InTurn (T : Threads) : Tick → Prop
  | .api => ∀ m ∈ T.api.held, ∀ m' ∈ T.beacon.held, m.1 ≤ m'.1
  | _ => True

instance (T : Threads) : (e : Tick) → Decidable (T.InTurn e)
  | .api => inferInstanceAs (Decidable (∀ m ∈ T.api.held, ∀ m' ∈ T.beacon.held, m.1 ≤ m'.1))
  | .call _ | .beacon | .timeout | .spurious => isTrue trivial

variable {T T' : Threads} {e : Tick} {es : List Tick} {id : UInt32} {name : Name}

/-- The packet carries the state of the assignment by which it is numbered. -/
def Genuine (T : Threads) (m : ℕ × DLPacket) : Prop :=
  T.stateAt m.1 = some (State.ofByte m.2.state)

lemma Genuine.le_length {m : ℕ × DLPacket} (h : T.Genuine m) : m.1 ≤ T.assigned.length :=
  Nat.lt_succ_iff.mp (List.getElem?_eq_some_iff.mp h).1

lemma genuine_packet (h : T.Sound) : T.Genuine T.packet := by
  rw [Genuine, packet, h.state, Resource.beacon_state, State.ofByte_toByte]

lemma genuine_assign {m : ℕ × DLPacket} (h : T.Genuine m) {op : Op}
    (hT : T'.assigned = T.assigned ++ [op.state]) : T'.Genuine m := by
  rw [Genuine, stateAt, hT]
  exact getElem?_assign op h

/-- What has been sent is in order, and the packets that are still held may be sent next. -/
structure Ordered (T : Threads) : Prop where
  api : ∀ m ∈ T.api.held, m = T.packet
  beacon : ∀ m ∈ T.beacon.held, T.Genuine m ∧ ∀ x ∈ T.sent, x.1 ≤ m.1
  genuine : ∀ x ∈ T.sent, T.Genuine x
  sorted : T.sent.Pairwise fun x y => x.1 ≤ y.1
  complete : ∀ n, 1 ≤ n → n ≤ T.assigned.length → (n = T.assigned.length → ¬ T.api.Unsent) →
    ∃ x ∈ T.sent, x.1 = n

lemma ordered_new (id : UInt32) (name : Name) : (new id name).Ordered where
  api _ h := absurd h (by simp [new, ApiPc.held])
  beacon _ h := absurd h (by simp [new, BeaconPc.held])
  genuine _ h := absurd h List.not_mem_nil
  sorted := .nil
  complete n h₁ h₂ := absurd (h₁.trans h₂) (by simp [new])

/-- A packet that is not older than the others may be sent. -/
lemma sorted_append {l : List (ℕ × DLPacket)} {m : ℕ × DLPacket}
    (h : l.Pairwise fun x y => x.1 ≤ y.1) (hm : ∀ x ∈ l, x.1 ≤ m.1) :
    (l ++ [m]).Pairwise fun x y => x.1 ≤ y.1 := by
  refine List.pairwise_append.mpr ⟨h, List.pairwise_singleton .., fun x hx y hy => ?_⟩
  rw [List.mem_singleton.mp hy]
  exact hm x hx

/-- A step that sends nothing and leaves the beacon thread where it is, or without a packet. -/
lemma Ordered.quiet (h : T.Ordered) (hsound : T.Sound)
    (hassigned : T'.assigned = T.assigned) (hsent : T'.sent = T.sent)
    (hapi : ∀ m ∈ T'.api.held, m = T'.packet)
    (hbeacon : ∀ m ∈ T'.beacon.held, m ∈ T.beacon.held ∨ m = T.packet)
    (hunsent : T'.api.Unsent ↔ T.api.Unsent) : T'.Ordered where
  api := hapi
  beacon m hm := by
    have hgen : ∀ {m}, T'.Genuine m ↔ T.Genuine m := by
      intro m
      rw [Genuine, Genuine, stateAt, stateAt, hassigned]
    rw [hgen, hsent]
    rcases hbeacon m hm with hm | rfl
    · exact h.beacon m hm
    · exact ⟨genuine_packet hsound, fun x hx => (h.genuine x hx).le_length⟩
  genuine x hx := by
    rw [Genuine, stateAt, hassigned]
    exact h.genuine x (hsent ▸ hx)
  sorted := hsent ▸ h.sorted
  complete n h₁ h₂ h₃ := by
    rw [hassigned] at h₂ h₃
    rw [hunsent] at h₃
    rw [hsent]
    exact h.complete n h₁ h₂ h₃

theorem ordered_step (h : T.Ordered) (hsound : T.Sound) (hok : T.InTurn e)
    (hs : T.step e = some T') : T'.Ordered := by
  cases effect_step hs with
  | call op hf =>
    exact h.quiet hsound rfl rfl (by simp [ApiPc.held]) (fun m hm => .inl hm)
      (by simp [hf, ApiPc.Unsent])
  | store op hf =>
    exact {
      api := fun m hm => absurd hm (by simp [ApiPc.held])
      beacon := fun m hm => ⟨genuine_assign (h.beacon m hm).1 rfl, (h.beacon m hm).2⟩
      genuine := fun x hx => genuine_assign (h.genuine x hx) rfl
      sorted := h.sorted
      complete := fun n h₁ h₂ h₃ => by
        -- only the new assignment has not been announced
        have hlen : (T.assigned ++ [op.state]).length = T.assigned.length + 1 := by simp
        rw [hlen] at h₂ h₃
        have hne : n ≠ T.assigned.length + 1 := fun hn => h₃ hn trivial
        exact h.complete n h₁ (by omega) fun _ => by rw [hf]; exact fun hu => hu }
  | build op hf =>
    refine h.quiet hsound rfl rfl ?_ (fun m hm => .inl hm) (by simp [hf, ApiPc.Unsent])
    intro m hm
    exact (Option.some.inj hm).symm
  | send op m hf =>
    have hm : m = T.packet := h.api m (by rw [hf]; rfl)
    have hgen : T.Genuine m := hm ▸ genuine_packet hsound
    have hlast : m.1 = T.assigned.length := by rw [hm]; rfl
    have hle : ∀ x ∈ T.sent, x.1 ≤ m.1 := by
      intro x hx
      rw [hlast]
      exact (h.genuine x hx).le_length
    exact {
      api := fun m hm => absurd hm (by simp [ApiPc.held])
      beacon := fun m' hm' => by
        refine ⟨(h.beacon m' hm').1, fun x hx => ?_⟩
        rcases List.mem_append.mp hx with hx | hx
        · exact (h.beacon m' hm').2 x hx
        · rw [List.mem_singleton.mp hx]
          exact hok m (by rw [hf]; rfl) m' hm'
      genuine := fun x hx => by
        rcases List.mem_append.mp hx with hx | hx
        · exact h.genuine x hx
        · rw [List.mem_singleton.mp hx]
          exact hgen
      sorted := sorted_append h.sorted hle
      complete := fun n h₁ h₂ _ => by
        rcases eq_or_ne n T.assigned.length with hn | hn
        · exact ⟨m, List.mem_append_right _ (List.mem_singleton_self m), hlast.trans hn.symm⟩
        · obtain ⟨x, hx, hxn⟩ := h.complete n h₁ h₂ fun hn' => absurd hn' hn
          exact ⟨x, List.mem_append_left _ hx, hxn⟩ }
  | notify op hf =>
    refine h.quiet hsound (by simp) (by simp) ?_ ?_ ?_
    · cases op <;> simp [Op.rest, ApiPc.held]
    · intro m hm
      rw [notifyBeacon_beacon] at hm
      split_ifs at hm
      · exact absurd hm (by simp [BeaconPc.held])
      · exact .inl hm
    · cases op <;> simp [hf, Op.rest, ApiPc.Unsent]
  | clear hf | read hf hr | skip hf hr | drop hf | join hf hb =>
    exact h.quiet hsound rfl rfl (by simp [ApiPc.held]) (fun m hm => .inl hm)
      (by simp [hf, ApiPc.Unsent])
  | wake hf =>
    refine h.quiet hsound (by simp) (by simp) (by simp [ApiPc.held]) ?_
      (by simp [hf, ApiPc.Unsent])
    intro m hm
    rw [notifyCv_beacon] at hm
    split_ifs at hm
    · exact absurd hm (by simp [BeaconPc.held])
    · exact .inl hm
  | transmit m hm =>
    have hheld : m ∈ T.beacon.held := by rw [hm]; rfl
    exact {
      api := h.api
      beacon := fun m hm => absurd hm (by simp [BeaconPc.held])
      genuine := fun x hx => by
        rcases List.mem_append.mp hx with hx | hx
        · exact h.genuine x hx
        · rw [List.mem_singleton.mp hx]
          exact (h.beacon m hheld).1
      sorted := sorted_append h.sorted (h.beacon m hheld).2
      complete := fun n h₁ h₂ h₃ => by
        obtain ⟨x, hx, hxn⟩ := h.complete n h₁ h₂ h₃
        exact ⟨x, List.mem_append_left _ hx, hxn⟩ }
  | move hm =>
    refine h.quiet hsound rfl rfl h.api ?_ Iff.rfl
    intro m hheld
    cases hm with
    | build hb => exact .inr (Option.some.inj hheld).symm
    | _ => exact absurd hheld (by simp [BeaconPc.held])

/-- The newest announcement is not older than the others. -/
lemma Ordered.le_last (h : T.Ordered) {x y : ℕ × DLPacket} (hx : x ∈ T.sent)
    (hy : T.sent.getLast? = some y) : x.1 ≤ y.1 := by
  obtain ⟨l, hl⟩ := List.getLast?_eq_some_iff.mp hy
  have hsorted := hl ▸ h.sorted
  rw [hl] at hx
  rcases List.mem_append.mp hx with hx | hx
  · exact (List.pairwise_append.mp hsorted).2.2 x hx y (List.mem_singleton_self y)
  · rw [List.mem_singleton.mp hx]

/-- The state that has been announced last. -/
def announced (T : Threads) : State :=
  (T.sent.getLast?.map fun m => State.ofByte m.2.state).getD .idle

lemma announced_append {m : ℕ × DLPacket} (h : T'.sent = T.sent ++ [m]) :
    T'.announced = State.ofByte m.2.state := by
  rw [announced, h, List.getLast?_concat]
  rfl

lemma announced_congr (h : T'.sent = T.sent) : T'.announced = T.announced := by
  rw [announced, announced, h]

/-- If an assignment has been announced, and none of the later ones, its state is the one that
has been announced last. -/
lemma Ordered.announced_eq (h : T.Ordered) {n : ℕ} {s : State} (hs : T.stateAt n = some s)
    (hle : ∀ x ∈ T.sent, x.1 ≤ n) (hn : 1 ≤ n → ∃ x ∈ T.sent, x.1 = n) : T.announced = s := by
  rw [announced]
  cases hlast : T.sent.getLast? with
  | none =>
    -- nothing has been announced, so that it is the state of a new resource
    rw [List.getLast?_eq_none_iff.mp hlast] at hn
    have hzero : n = 0 := by
      by_contra hpos
      obtain ⟨x, hx, -⟩ := hn (by omega)
      cases hx
    rw [hzero] at hs
    exact Option.some.inj hs
  | some y =>
    have hmem : y ∈ T.sent := List.mem_of_getLast? hlast
    have hy : y.1 = n := by
      refine le_antisymm (hle y hmem) ?_
      rcases Nat.eq_zero_or_pos n with h₀ | hpos
      · rw [h₀]
        exact Nat.zero_le _
      · obtain ⟨x, hx, hxn⟩ := hn hpos
        exact hxn ▸ h.le_last hx hlast
    have hgen := h.genuine y hmem
    rw [Genuine, hy, hs] at hgen
    exact (Option.some.inj hgen).symm

/-- Unless an announcement is due, the current state has been announced last. -/
lemma Ordered.announced_current (h : T.Ordered) (hsound : T.Sound) (hapi : ¬ T.api.Unsent) :
    T.announced = T.res.state :=
  h.announced_eq hsound.state (fun x hx => (h.genuine x hx).le_length) fun hpos =>
    h.complete _ hpos le_rfl fun _ => hapi

/-- What the beacon thread is going to send is the current state, or it has been announced last. -/
lemma Ordered.held_beacon (h : T.Ordered) (hsound : T.Sound) {m : ℕ × DLPacket}
    (hm : m ∈ T.beacon.held) :
    State.ofByte m.2.state = T.res.state ∨ State.ofByte m.2.state = T.announced := by
  obtain ⟨hgen, hle⟩ := h.beacon m hm
  rcases eq_or_ne m.1 T.assigned.length with heq | hne
  · rw [Genuine, heq, hsound.state] at hgen
    exact .inl (Option.some.inj hgen).symm
  · refine .inr (h.announced_eq hgen hle fun hpos => ?_).symm
    exact h.complete m.1 hpos hgen.le_length fun heq => absurd heq hne

/-- What `setState` is going to send is the current state. -/
lemma Ordered.held_api (h : T.Ordered) {m : ℕ × DLPacket} (hm : m ∈ T.api.held) :
    State.ofByte m.2.state = T.res.state := by
  rw [h.api m hm, packet, Resource.beacon_state, State.ofByte_toByte]

/-- **The announcements follow the assignments.**  If `setState` and the beacon thread send in
turn, the packets come in the order of the assignments whose states they carry, every
assignment has been announced when its `setState` is over, and the last packet after a
`release` carries `RELEASED`. -/
theorem sent_in_order (hrun : Lib.Run step InTurn (new id name) es T) :
    T.sent.Pairwise (fun x y => x.1 ≤ y.1) ∧
    (∀ x ∈ T.sent, T.stateAt x.1 = some (State.ofByte x.2.state)) ∧
    (¬ T.api.InSetState → ∀ n, 1 ≤ n → n ≤ T.assigned.length → ∃ x ∈ T.sent, x.1 = n) ∧
    (T.api = .free (some .release) →
      ∃ x, T.sent.getLast? = some x ∧ State.ofByte x.2.state = .released) := by
  obtain ⟨hsound, h⟩ : T.Sound ∧ T.Ordered := by
    refine hrun.invariant (I := fun T => T.Sound ∧ T.Ordered) ?_
      ⟨sound_new id name, ordered_new id name⟩
    rintro T e T' ⟨hsound, h⟩ hok hs
    exact ⟨sound_step hsound hs, ordered_step h hsound hok hs⟩
  have hcomplete : ¬ T.api.InSetState →
      ∀ n, 1 ≤ n → n ≤ T.assigned.length → ∃ x ∈ T.sent, x.1 = n := by
    intro hapi n h₁ h₂
    refine h.complete n h₁ h₂ fun _ hunsent => hapi ?_
    cases hpc : T.api <;> simp_all [ApiPc.Unsent, ApiPc.InSetState]
  refine ⟨h.sorted, h.genuine, hcomplete, fun hapi => ?_⟩
  have hlast : T.stateAt T.assigned.length = some .released := by
    rw [hsound.state, (hsound.returned hapi).1]
  have hpos : 1 ≤ T.assigned.length := by
    rcases Nat.eq_zero_or_pos T.assigned.length with h₀ | h₀
    · rw [h₀] at hlast
      exact absurd hlast (by simp [stateAt])
    · exact h₀
  obtain ⟨x, hx, hxn⟩ := hcomplete (by rw [hapi]; exact fun hs => hs) _ hpos le_rfl
  obtain ⟨y, hend⟩ : ∃ y, T.sent.getLast? = some y :=
    ⟨_, List.getLast?_eq_some_getLast (List.ne_nil_of_mem hx)⟩
  have hy : T.Genuine y := h.genuine y (List.mem_of_getLast? hend)
  -- the last packet is not older than the one of `release`
  have hyn : y.1 = T.assigned.length := le_antisymm hy.le_length (hxn ▸ h.le_last hx hend)
  refine ⟨y, hend, ?_⟩
  rw [Genuine, hyn, hlast] at hy
  exact (Option.some.inj hy).symm

/-- A turn of the beacon thread falls into a `release`. -/
theorem sent_in_order_released :
    ∃ T, Lib.Run step InTurn (new 1 [97])
        [.call (.setState .acquired), .api, .api, .api, .api, .beacon, .beacon, .call .release,
          .api, .beacon, .beacon, .api, .api, .api, .api, .api, .api, .beacon, .timeout, .beacon,
          .api] T ∧
      T.api = .free (some .release) ∧
      ∃ x, T.sent.getLast? = some x ∧ State.ofByte x.2.state = .released := by
  have hrun : Lib.Run step InTurn (new 1 [97])
      [.call (.setState .acquired), .api, .api, .api, .api, .beacon, .beacon, .call .release,
        .api, .beacon, .beacon, .api, .api, .api, .api, .api, .api, .beacon, .timeout, .beacon,
        .api] _ := Lib.Run.of_exec rfl
  exact ⟨_, hrun, rfl, (sent_in_order hrun).2.2.2 rfl⟩

/-- The beacon thread builds a packet, `release` announces `RELEASED`, and then the packet is
sent, so that the last announcement is `ACQUIRED`. -/
theorem sent_after_release :
    ∃ T, Lib.Run step (fun _ _ => True) (new 1 [97])
        [.call (.setState .acquired), .api, .api, .api, .api, .beacon, .beacon, .beacon,
          .call .release, .api, .api, .api, .api, .api, .api, .api, .beacon, .beacon, .timeout,
          .beacon, .api] T ∧
      T.api = .free (some .release) ∧
      T.sent.map (fun x => (x.1, State.ofByte x.2.state)) =
        [(1, .acquired), (2, .released), (1, .acquired)] :=
  ⟨_, Lib.Run.of_exec rfl, rfl, rfl⟩

/-- If `setState` sends out of turn, the older packet comes after the newer one. -/
theorem sent_out_of_turn {op : Op} {m m' : ℕ × DLPacket} (hapi : T.api = .sending op m)
    (hb : T.beacon = .sending m') :
    ∃ T', Lib.Run step (fun _ _ => True) T [.api, .beacon] T' ∧ T'.sent = T.sent ++ [m, m'] := by
  have h₁ : T.step .api = some { T with api := .notifying op, sent := T.sent ++ [m] } := by
    simp only [step, runApi, hapi]
  have h₂ : ({ T with api := .notifying op, sent := T.sent ++ [m] } : Threads).step .beacon =
      some { T with
        api := .notifying op, beacon := .resting, sent := T.sent ++ [m] ++ [m'] } := by
    simp only [step, runBeacon, hb]
  exact ⟨_, .cons trivial h₁ (.cons trivial h₂ (.nil _)), List.append_assoc ..⟩

end Threads
end DistLock
