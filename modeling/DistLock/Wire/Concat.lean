/-
Writing into a packet as concatenation (`Packet.h`, `Packet.cc`).

Bytes, integers, strings and other packets are written into a packet one after the other.  Each
of them should only add its own bytes at the end.  There are two exceptions: the writer for an
empty packet swaps the two buffers, so what the target holds moves into the packet that is
written, and the string writer counts with 32 bits, so a string of `2 ^ 32` bytes or more is never
finished.  Without these the writes are a concatenation (`concatenates_iff`).
-/
import DistLock.Wire.Integers
import Mathlib.Data.List.GetD
import Mathlib.Logic.Function.Basic

namespace DistLock

/-- A `Packet`.  The iterator is a position in the packet's own buffer, or `none` if it points
into another buffer. -/
structure Packet where
  buffer : List UInt8
  it : Option ℕ
  deriving DecidableEq

namespace Packet

/-- `Packet::begin`. -/
def toBegin (p : Packet) : Packet := { p with it := some 0 }

/-- `Packet::operator << (unsigned char)`, with the iterator. -/
def writeByte (p : Packet) (data : UInt8) : Packet where
  buffer := writeUChar p.buffer data
  it := some 0

/-- The integer writers, with the iterator. -/
def writeIntValue (p : Packet) (v : IntValue) : Packet where
  buffer := v.write p.buffer
  it := some 0

/-- The loop of `Packet::operator << (std::string)`, from the index `i` on; `none` when the fuel
is used up. -/
def writeStringFrom (data : List UInt8) : ℕ → UInt32 → Packet → Option Packet
  | 0, _, _ => none
  | fuel + 1, i, p =>
    if i.toNat < data.length then
      writeStringFrom data fuel (i + 1) (p.writeByte (data.getD i.toNat 0))
    else some p

/-- `Packet::operator << (std::string)`. -/
def writeString (fuel : ℕ) (p : Packet) (data : List UInt8) : Option Packet :=
  writeStringFrom data fuel 0 p

/-- `Packet::operator << (Packet&)`: the target and the packet that is written, afterwards.  When
the buffers are swapped, the iterator that is copied points into what is now the target's
buffer. -/
def writePacket (p data : Packet) : Packet × Packet :=
  if data.buffer = [] then
    ({ buffer := data.buffer, it := data.it }, { buffer := p.buffer, it := none })
  else ({ buffer := p.buffer ++ data.buffer, it := none }, data)

/-- `Packet::Packet(Packet*)`: the new packet, and the original afterwards. -/
def copy (pkt : Packet) : Packet × Packet :=
  let r := writePacket { buffer := [], it := none } pkt
  (r.1.toBegin, r.2)

end Packet

/-- What is written into a packet; other packets are given by their names. -/
inductive Item (ι : Type)
  | int (v : IntValue)
  | string (data : List UInt8)
  | packet (i : ι)
  deriving DecidableEq

/-- The packet that is written to, and the other packets. -/
structure Packets (ι : Type) where
  target : Packet
  others : ι → Packet

variable {ι : Type} [DecidableEq ι]

/-- `operator <<`, for each kind of item. -/
def Item.write (fuel : ℕ) (s : Packets ι) : Item ι → Option (Packets ι)
  | int v => some { s with target := s.target.writeIntValue v }
  | string data => (s.target.writeString fuel data).map fun p => { s with target := p }
  | packet i =>
    let r := s.target.writePacket (s.others i)
    some { target := r.1, others := Function.update s.others i r.2 }

/-- The bytes of an item, where a packet stands for its own buffer. -/
def Item.encode (buffers : ι → List UInt8) : Item ι → List UInt8
  | int v => v.write []
  | string data => data
  | packet i => buffers i

namespace Packets

/-- The buffers of the other packets. -/
def buffers (s : Packets ι) (i : ι) : List UInt8 := (s.others i).buffer

/-- A sequence of writes. -/
def writeAll (fuel : ℕ) (s : Packets ι) (items : List (Item ι)) : Option (Packets ι) :=
  items.foldlM (Item.write fuel) s

/-- The encodings of the items are appended to the target, and the other buffers are as before. -/
def Appends (s : Packets ι) (items : List (Item ι)) (s' : Packets ι) : Prop :=
  s'.target.buffer = s.target.buffer ++ items.flatMap (Item.encode s.buffers) ∧
    ∀ i, s'.buffers i = s.buffers i

/-- The writes return, and are a concatenation. -/
def Concatenates (s : Packets ι) (items : List (Item ι)) : Prop :=
  ∃ fuel s', s.writeAll fuel items = some s' ∧ s.Appends items s'

/-- An empty packet is written when the old content and the items before it make up a non-empty
buffer. -/
def MovesAway (s : Packets ι) (items : List (Item ι)) : Prop :=
  ∃ before i after, items = before ++ Item.packet i :: after ∧ s.buffers i = [] ∧
    s.target.buffer ++ before.flatMap (Item.encode s.buffers) ≠ []

end Packets

/-! ### The single writers -/

namespace Packet

/-- A counter of 32 bits does not reach the end of a long string. -/
lemma writeStringFrom_of_le {data : List UInt8} (h : 2 ^ 32 ≤ data.length) (fuel : ℕ) (i : UInt32)
    (p : Packet) : writeStringFrom data fuel i p = none := by
  induction fuel generalizing i p with
  | zero => rfl
  | succ fuel ih =>
    have hi := i.toNat_lt
    rw [writeStringFrom, if_pos (by omega), ih]

lemma writeStringFrom_of_lt {data : List UInt8} (h : data.length < 2 ^ 32) {fuel : ℕ} {i : UInt32}
    {p : Packet} (hi : i.toNat ≤ data.length) (hfuel : data.length < i.toNat + fuel) :
    ∃ p', writeStringFrom data fuel i p = some p' ∧
      p'.buffer = p.buffer ++ data.drop i.toNat := by
  induction fuel generalizing i p with
  | zero => omega
  | succ fuel ih =>
    rw [writeStringFrom]
    split_ifs with hlt
    · have hsucc : (i + 1).toNat = i.toNat + 1 :=
        BitVec.toNat_add_of_lt (show i.toNat + 1 < 2 ^ 32 by omega)
      obtain ⟨p', hp', hbuffer⟩ := ih (i := i + 1) (p := p.writeByte (data.getD i.toNat 0))
        (by omega) (by omega)
      refine ⟨p', hp', ?_⟩
      rw [hbuffer, writeByte, writeUChar, List.append_assoc, hsucc, List.getD_eq_getElem _ _ hlt,
        List.singleton_append, List.getElem_cons_drop]
    · rw [List.drop_eq_nil_of_le (not_lt.mp hlt), List.append_nil]
      exact ⟨p, rfl, rfl⟩

/-- Enough fuel for a string is one more than its length. -/
lemma writeString_of_lt {data : List UInt8} (h : data.length < 2 ^ 32) {fuel : ℕ}
    (hfuel : data.length < fuel) (p : Packet) :
    ∃ p', p.writeString fuel data = some p' ∧ p'.buffer = p.buffer ++ data :=
  writeStringFrom_of_lt h (Nat.zero_le _) (by rwa [UInt32.toNat_zero, Nat.zero_add])

/-- With less fuel there is no result. -/
lemma length_lt_of_writeStringFrom {data : List UInt8} {fuel : ℕ} {i : UInt32} {p p' : Packet}
    (h : writeStringFrom data fuel i p = some p') : data.length < i.toNat + fuel := by
  induction fuel generalizing i p with
  | zero => cases h
  | succ fuel ih =>
    rw [writeStringFrom] at h
    split_ifs at h with hlt
    · have hsucc := Nat.mod_le (i.toNat + 1) (2 ^ 32)
      have hlen := ih h
      rw [UInt32.toNat_add] at hlen
      change data.length < (i.toNat + 1) % 2 ^ 32 + fuel at hlen
      omega
    · omega

lemma writeString_some {data : List UInt8} {fuel : ℕ} {p p' : Packet}
    (h : p.writeString fuel data = some p') :
    data.length < 2 ^ 32 ∧ p'.buffer = p.buffer ++ data := by
  rcases Nat.lt_or_ge data.length (2 ^ 32) with hlt | hle
  · have hfuel := length_lt_of_writeStringFrom h
    rw [UInt32.toNat_zero, Nat.zero_add] at hfuel
    obtain ⟨p'', hp'', hbuffer⟩ := writeString_of_lt hlt hfuel p
    obtain rfl := Option.some.inj (h.symm.trans hp'')
    exact ⟨hlt, hbuffer⟩
  · exact absurd h (by rw [writeString, writeStringFrom_of_le hle]; exact nofun)

/-- A non-empty packet is copied. -/
lemma writePacket_of_ne_nil {p data : Packet} (h : data.buffer ≠ []) :
    (p.writePacket data).1.buffer = p.buffer ++ data.buffer ∧ (p.writePacket data).2 = data := by
  rw [writePacket, if_neg h]
  exact ⟨rfl, rfl⟩

/-- An empty packet takes the buffer of the target. -/
lemma writePacket_of_nil {p data : Packet} (h : data.buffer = []) :
    (p.writePacket data).1.buffer = [] ∧ (p.writePacket data).2.buffer = p.buffer := by
  rw [writePacket, if_pos h]
  exact ⟨h, rfl⟩

/-- An empty target is always overwritten with a copy. -/
lemma writePacket_empty {p data : Packet} (h : p.buffer = []) :
    (p.writePacket data).1.buffer = data.buffer ∧ (p.writePacket data).2.buffer = data.buffer := by
  by_cases hdata : data.buffer = []
  · obtain ⟨h₁, h₂⟩ := writePacket_of_nil (p := p) hdata
    exact ⟨h₁.trans hdata.symm, h₂.trans (h.trans hdata.symm)⟩
  · obtain ⟨h₁, h₂⟩ := writePacket_of_ne_nil (p := p) hdata
    rw [h₁, h₂, h]
    exact ⟨rfl, rfl⟩

/-- The copying constructor starts from an empty target. -/
lemma copy_buffer (pkt : Packet) :
    pkt.copy.1.buffer = pkt.buffer ∧ pkt.copy.2.buffer = pkt.buffer :=
  writePacket_empty rfl

end Packet

/-! ### Sequences of writes -/

namespace Packets

variable {s s₁ s' : Packets ι} {items : List (Item ι)} {fuel : ℕ}

lemma writeAll_cons {x : Item ι} (h : s.writeAll fuel (x :: items) = some s') :
    ∃ s₁, x.write fuel s = some s₁ ∧ s₁.writeAll fuel items = some s' :=
  Option.bind_eq_some_iff.mp h

/-- What the item `x` does, unless it is an empty packet. -/
lemma appends_of_write {x : Item ι} (hx : ∀ i, x = .packet i → s.buffers i ≠ [])
    (h : x.write fuel s = some s₁) :
    s₁.target.buffer = s.target.buffer ++ x.encode s.buffers ∧ s₁.buffers = s.buffers := by
  cases x with
  | int v =>
    obtain rfl := Option.some.inj h
    exact ⟨v.write_eq_append _, rfl⟩
  | string data =>
    obtain ⟨p, hp, rfl⟩ := Option.map_eq_some_iff.mp h
    exact ⟨(Packet.writeString_some hp).2, rfl⟩
  | packet i =>
    obtain rfl := Option.some.inj h
    obtain ⟨hbuffer, hdata⟩ := Packet.writePacket_of_ne_nil (p := s.target) (hx i rfl)
    refine ⟨hbuffer, ?_⟩
    funext j
    rw [buffers, hdata, Function.update_eq_self]
    rfl

/-- What the writer for an empty packet does. -/
lemma write_empty {i : ι} (hi : s.buffers i = []) (h : (Item.packet i).write fuel s = some s₁) :
    s₁.target.buffer = [] ∧ s₁.buffers i = s.target.buffer ∧
      ∀ j, j ≠ i → s₁.buffers j = s.buffers j := by
  obtain rfl := Option.some.inj h
  obtain ⟨hbuffer, hdata⟩ := Packet.writePacket_of_nil (p := s.target) hi
  refine ⟨hbuffer, ?_, fun j hj => ?_⟩
  · exact (congrArg Packet.buffer (Function.update_self ..)).trans hdata
  · exact congrArg Packet.buffer (Function.update_of_ne hj ..)

/-- A non-empty packet keeps its buffer for good. -/
lemma buffers_eq_of_ne_nil {i : ι} (h : s.writeAll fuel items = some s')
    (hi : s.buffers i ≠ []) : s'.buffers i = s.buffers i := by
  induction items generalizing s with
  | nil =>
    obtain rfl := Option.some.inj h
    rfl
  | cons x items ih =>
    obtain ⟨s₁, hx, h⟩ := writeAll_cons h
    have hstep : s₁.buffers i = s.buffers i := by
      by_cases hempty : ∃ j, x = .packet j ∧ s.buffers j = []
      · obtain ⟨j, rfl, hj⟩ := hempty
        exact (write_empty hj hx).2.2 i fun hij => hi (hij ▸ hj)
      · exact congrFun (appends_of_write (fun j hj hnil => hempty ⟨j, hj, hnil⟩) hx).2 i
    rw [ih h (hstep ▸ hi), hstep]

omit [DecidableEq ι] in
lemma movesAway_cons {x : Item ι} : s.MovesAway (x :: items) ↔
    (∃ i, x = .packet i ∧ s.buffers i = [] ∧ s.target.buffer ≠ []) ∨
      ∃ before i after, items = before ++ Item.packet i :: after ∧ s.buffers i = [] ∧
        s.target.buffer ++ x.encode s.buffers ++ before.flatMap (Item.encode s.buffers) ≠ [] := by
  constructor
  · rintro ⟨before, i, after, hitems, hi, hne⟩
    cases before with
    | nil =>
      obtain ⟨rfl, rfl⟩ := List.cons.inj hitems
      exact .inl ⟨i, rfl, hi, by simpa using hne⟩
    | cons y before =>
      obtain ⟨rfl, rfl⟩ := List.cons.inj hitems
      exact .inr ⟨before, i, after, rfl, hi, by simpa using hne⟩
  · rintro (⟨i, rfl, hi, hne⟩ | ⟨before, i, after, rfl, hi, hne⟩)
    · exact ⟨[], i, items, rfl, hi, by simpa using hne⟩
    · exact ⟨x :: before, i, after, rfl, hi, by simpa using hne⟩

omit [DecidableEq ι] in
/-- An item that appends its encoding leaves what comes after it as it is. -/
lemma appends_cons_iff {x : Item ι}
    (htarget : s₁.target.buffer = s.target.buffer ++ x.encode s.buffers)
    (hbuffers : s₁.buffers = s.buffers) :
    s.Appends (x :: items) s' ↔ s₁.Appends items s' := by
  rw [Appends, Appends, htarget, hbuffers, List.flatMap_cons, List.append_assoc]

/-- **When the writes return, they are a concatenation** if and only if no buffer is moved into
an empty packet. -/
lemma appends_iff (h : s.writeAll fuel items = some s') :
    s.Appends items s' ↔ ¬ s.MovesAway items := by
  -- on the items; what a swap has done to a buffer no later item undoes
  induction items generalizing s with
  | nil =>
    obtain rfl := Option.some.inj h
    refine iff_of_true ⟨by simp, fun _ => rfl⟩ ?_
    rintro ⟨before, i, after, hitems, -⟩
    simp at hitems
  | cons x items ih =>
    obtain ⟨s₁, hx, hrest⟩ := writeAll_cons h
    by_cases hmove : ∃ i, x = .packet i ∧ s.buffers i = [] ∧ s.target.buffer ≠ []
    · -- the buffer that has moved stays where it is
      refine iff_of_false ?_ (not_not.mpr (movesAway_cons.mpr (.inl hmove)))
      obtain ⟨i, rfl, hi, hne⟩ := hmove
      rintro ⟨-, hsame⟩
      obtain ⟨-, hmoved, -⟩ := write_empty hi hx
      have hkept := buffers_eq_of_ne_nil (i := i) hrest (by rwa [hmoved])
      exact hne (hmoved.symm.trans (hkept.symm.trans ((hsame i).trans hi)))
    · have hstep : s₁.target.buffer = s.target.buffer ++ x.encode s.buffers ∧
          s₁.buffers = s.buffers := by
        by_cases hempty : ∃ i, x = .packet i ∧ s.buffers i = []
        · -- two empty buffers are swapped
          obtain ⟨i, rfl, hi⟩ := hempty
          have htarget : s.target.buffer = [] := by
            by_contra hne
            exact hmove ⟨i, rfl, hi, hne⟩
          obtain ⟨h₁, h₂, hothers⟩ := write_empty hi hx
          refine ⟨by rw [h₁, htarget, Item.encode, hi]; rfl, ?_⟩
          funext j
          by_cases hj : j = i
          · rw [hj, h₂, htarget, hi]
          · exact hothers j hj
        · exact appends_of_write (fun i hi hnil => hempty ⟨i, hi, hnil⟩) hx
      rw [appends_cons_iff hstep.1 hstep.2, ih hrest, movesAway_cons, or_iff_right hmove, MovesAway,
        hstep.1, hstep.2]

/-- The writes return if and only if every string is finished. -/
lemma writeAll_some_iff :
    (∃ fuel s', s.writeAll fuel items = some s') ↔
      ∀ data, .string data ∈ items → data.length < 2 ^ 32 := by
  constructor
  · rintro ⟨fuel, s', h⟩
    induction items generalizing s with
    | nil => exact nofun
    | cons x items ih =>
      obtain ⟨s₁, hx, h⟩ := writeAll_cons h
      intro data hdata
      rcases List.mem_cons.mp hdata with rfl | hdata
      · obtain ⟨p, hp, -⟩ := Option.map_eq_some_iff.mp hx
        exact (Packet.writeString_some hp).1
      · exact ih h data hdata
  · intro hshort
    refine ⟨2 ^ 32, ?_⟩
    induction items generalizing s with
    | nil => exact ⟨s, rfl⟩
    | cons x items ih =>
      have hx : ∃ s₁, x.write (2 ^ 32) s = some s₁ := by
        cases x with
        | int v => exact ⟨_, rfl⟩
        | packet i => exact ⟨_, rfl⟩
        | string data =>
          have hlt := hshort data List.mem_cons_self
          obtain ⟨p, hp, -⟩ := Packet.writeString_of_lt hlt hlt s.target
          exact ⟨_, Option.map_eq_some_iff.mpr ⟨p, hp, rfl⟩⟩
      obtain ⟨s₁, hx⟩ := hx
      obtain ⟨s', h⟩ := ih (s := s₁) fun data hdata => hshort data (List.mem_cons_of_mem _ hdata)
      exact ⟨s', by rw [writeAll, List.foldlM_cons, hx]; exact h⟩

/-- **Writing into a packet is concatenation** if and only if every string is shorter than
`2 ^ 32` bytes and no empty packet is written into a non-empty one.  Copying a packet as a whole
always gives the same buffer and leaves the original as it is. -/
theorem concatenates_iff (s : Packets ι) (items : List (Item ι)) :
    (s.Concatenates items ↔
      (∀ data, .string data ∈ items → data.length < 2 ^ 32) ∧ ¬ s.MovesAway items) ∧
    ∀ pkt : Packet, pkt.copy.1.buffer = pkt.buffer ∧ pkt.copy.2.buffer = pkt.buffer := by
  refine ⟨⟨?_, ?_⟩, Packet.copy_buffer⟩
  · rintro ⟨fuel, s', h, happends⟩
    exact ⟨writeAll_some_iff.mp ⟨fuel, s', h⟩, (appends_iff h).mp happends⟩
  · rintro ⟨hshort, hmoves⟩
    obtain ⟨fuel, s', h⟩ := writeAll_some_iff.mpr hshort
    exact ⟨fuel, s', h, (appends_iff h).mpr hmoves⟩

/-- An empty packet, written after one byte, takes this byte away. -/
theorem not_concatenates_empty :
    ¬ (Packets.mk { buffer := [1], it := some 0 }
      fun _ : Unit => { buffer := [], it := some 0 }).Concatenates [.packet ()] := by
  rintro ⟨fuel, s', h, htarget, -⟩
  obtain rfl := Option.some.inj h
  cases htarget

end Packets
end DistLock
