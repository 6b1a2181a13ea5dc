/-
Datagrams on their way to a lock packet (`UDPDatagram.h`, `DLPacket.cc`).

A received payload is pushed into a `UDPDatagram` byte by byte, the decoding constructor of
`DLPacket` copies the datagram and reads its fields from the first byte on.  A packet that was
built, however often, is decoded to its own fields (`decode_build`).  An arbitrary payload is
decoded without running past its end if and only if it has a whole header and its name is ended by
a NUL or long enough (`isSome_decode_iff`).
-/
import DistLock.Wire.Concat
import DistLock.Wire.DLPacket

namespace DistLock

/-! ### Readers of a fixed width -/

namespace Reader

variable {α β : Type}

/-- The reader consumes `k` bytes, and fails if and only if there are fewer. -/
def Consumes (k : ℕ) (m : Reader α) : Prop :=
  ∀ s, (m s).map Prod.snd = if k ≤ s.length then some (s.drop k) else none

/-- What comes after a reader of `k` bytes is left with the bytes behind these. -/
lemma Consumes.isSome_bind {k : ℕ} {m : Reader α} {f : α → Reader β} {P : List UInt8 → Prop}
    (hm : m.Consumes k) (hf : ∀ a s, (f a s).isSome ↔ P s) (s : List UInt8) :
    ((m >>= f) s).isSome ↔ k ≤ s.length ∧ P (s.drop k) := by
  have hs := hm s
  rw [bind_apply]
  cases hr : m s with
  | none =>
    rw [hr, Option.map_none] at hs
    split_ifs at hs with hk
    exact iff_of_false (by simp) fun h => hk h.1
  | some r =>
    rw [hr, Option.map_some] at hs
    split_ifs at hs with hk
    rw [Option.bind_some, hf, Option.some.inj hs]
    exact (and_iff_right hk).symm

end Reader

namespace Packet

lemma consumes_readUChar : readUChar.Consumes 1 := by
  intro s
  cases s <;> simp [readUChar]

lemma consumes_readUInt : readUInt.Consumes 4 := by
  intro s
  have hread := congrArg (Option.map Prod.snd) (toNat_readUInt s)
  rw [Reader.map_apply, Option.map_map] at hread
  change Option.map Prod.snd (readUInt s) = _ at hread
  rw [hread, Lib.BigEndian.read]
  split_ifs <;> rfl

/-- The bytes in front of the iterator, if it points into the packet's own buffer. -/
def front (p : Packet) : Option (List UInt8) := p.it.map fun k => p.buffer.drop k

end Packet

/-! ### Datagrams -/

/-- `UDPDatagram(src, dst, sport, dport, payload, p_len)`: the packet that a payload is pushed
into. -/
def UDPDatagram (payload : List UInt8) : Packet :=
  payload.foldl Packet.writeByte { buffer := [], it := some 0 }

namespace DLPacket

/-- `DLPacket::build`, over whatever the buffer holds. -/
def buildOver (p : DLPacket) (pkt : Packet) : Packet :=
  let pkt := { pkt with buffer := [] }
  let pkt := pkt.writeByte p.state
  let pkt := pkt.writeIntValue (.uint p.memberId)
  let pkt := pkt.writeIntValue (.uint p.count)
  let pkt := pkt.writeByte p.options
  (resourceBytes p.resource).foldl Packet.writeByte pkt

/-- `DLPacket(UDPDatagram*)`: the fields, unless the decoder runs past the end of the copy. -/
def decode (dgram : Packet) : Option DLPacket := dgram.copy.1.front.bind ofPayload

lemma foldl_writeByte (bs : List UInt8) (pkt : Packet) :
    (bs.foldl Packet.writeByte pkt).buffer = pkt.buffer ++ bs := by
  induction bs generalizing pkt with
  | nil => exact (List.append_nil _).symm
  | cons b bs ih =>
    rw [List.foldl_cons, ih, Packet.writeByte, Packet.writeUChar, List.append_assoc]
    rfl

lemma UDPDatagram_buffer (payload : List UInt8) : (UDPDatagram payload).buffer = payload :=
  foldl_writeByte payload _

/-- The decoder reads the payload from its first byte on. -/
lemma decode_UDPDatagram (payload : List UInt8) :
    decode (UDPDatagram payload) = ofPayload payload := by
  have hfront : (UDPDatagram payload).copy.1.front = some payload := by
    show some ((UDPDatagram payload).copy.1.buffer.drop 0) = _
    rw [List.drop_zero, (Packet.copy_buffer _).1, UDPDatagram_buffer]
  rw [decode, hfront, Option.bind_some]

/-! ### Built packets -/

/-- The buffer is cleared first, so what it held does not matter. -/
lemma buildOver_buffer (p : DLPacket) (pkt : Packet) : (p.buildOver pkt).buffer = p.build := by
  rw [buildOver, foldl_writeByte, build, foldl_writeUChar]
  rfl

lemma iterate_buildOver (p : DLPacket) (pkt : Packet) (n : ℕ) :
    (p.buildOver^[n + 1] pkt).buffer = p.build := by
  rw [Function.iterate_succ_apply', buildOver_buffer]

lemma length_resourceBytes_le (n : Name) : (resourceBytes n).length ≤ RES_BUFF + 1 := by
  rw [resourceBytes, List.length_map, List.length_range]
  split_ifs <;> omega

lemma length_build_le (p : DLPacket) : p.build.length ≤ 75 := by
  have hname := length_resourceBytes_le p.resource
  have hint : ∀ n, (Packet.writeUInt [] n).length = 4 := fun _ => rfl
  rw [build_eq]
  simp only [List.length_cons, List.length_append, hint]
  change _ ≤ 64 + 1 at hname
  omega

/-- `r` is the longest prefix of `s` without NUL. -/
def IsNulFreePrefix (s r : List UInt8) : Prop :=
  (r <+: s ∧ 0 ∉ r) ∧ ∀ r', r' <+: s → 0 ∉ r' → r' <+: r

lemma isNulFreePrefix_cStr (s : List UInt8) : IsNulFreePrefix s (cStr s) := by
  refine ⟨⟨List.takeWhile_prefix _, fun hmem => ?_⟩, fun r' hpre hnul => ?_⟩
  · have hbyte := List.mem_takeWhile_imp hmem
    simp at hbyte
  · obtain ⟨t, rfl⟩ := hpre
    have hself : cStr r' = r' := cStr_eq_self hnul
    rw [cStr, List.takeWhile_append_of_pos fun b hb => ?_]
    · exact List.prefix_append _ _
    · simpa using fun h0 : b = 0 => hnul (h0 ▸ hb)

/-- **The wire format of the lock packet**: whatever was built before, the bytes are the same, they
are at most 75, and they are decoded to the same fields and to the longest NUL-free prefix of the
first `RES_BUFF` bytes of the name. -/
theorem decode_build (p : DLPacket) (pkt : Packet) (n : ℕ) :
    (p.buildOver^[n + 1] pkt).buffer = p.build ∧ p.build.length ≤ 75 ∧
      ∃ q, decode (UDPDatagram p.build) = some q ∧
        q.state = p.state ∧ q.memberId = p.memberId ∧ q.count = p.count ∧
        q.options = p.options ∧ IsNulFreePrefix (p.resource.take 64) q.resource := by
  refine ⟨iterate_buildOver p pkt n, length_build_le p, ?_⟩
  exact ⟨_, (decode_UDPDatagram _).trans (ofPayload_build p), rfl, rfl, rfl, rfl,
    isNulFreePrefix_cStr _⟩

/-! ### Arbitrary payloads -/

/-- The name loop ends with a NUL or after `n` bytes. -/
lemma isSome_readResource (n : ℕ) (s : List UInt8) :
    (readResource n s).isSome ↔ n ≤ s.length ∨ 0 ∈ s := by
  induction n generalizing s with
  | zero => simp [readResource]
  | succ n ih =>
    cases s with
    | nil => simp [readResource, Packet.readUChar]
    | cons b s =>
      by_cases hb : b = 0
      · subst hb
        simp [readResource]
      · have hrest : readResource (n + 1) (b :: s) =
            (readResource n s).map fun r => (b :: r.1, r.2) := by
          rw [readResource, Reader.bind_apply, Packet.readUChar_cons, Option.bind_some, if_neg hb,
            Reader.bind_apply]
          cases readResource n s <;> rfl
        rw [hrest, Option.isSome_map, ih, List.length_cons, List.mem_cons, Nat.succ_le_succ_iff,
          or_iff_right (Ne.symm hb)]

/-- **An arbitrary payload is decoded without running past its end** if and only if it has the ten
bytes of the header, and after them a NUL or the `RES_BUFF` bytes that the name loop reads. -/
theorem isSome_decode_iff (payload : List UInt8) :
    (decode (UDPDatagram payload)).isSome ↔
      10 ≤ payload.length ∧ (74 ≤ payload.length ∨ 0 ∈ payload.drop 10) := by
  have hname : ∀ (f : List UInt8 → DLPacket) s,
      ((readResource RES_BUFF >>= fun res => pure (f res) : Reader DLPacket) s).isSome ↔
        64 ≤ s.length ∨ 0 ∈ s := by
    intro f s
    have hres := isSome_readResource RES_BUFF s
    rw [Reader.bind_apply]
    cases hr : readResource RES_BUFF s <;> rw [hr] at hres <;> exact hres
  -- the fields before the name take 10 bytes
  have hread : (read payload).isSome ↔ 1 ≤ payload.length ∧ _ :=
    Packet.consumes_readUChar.isSome_bind (fun _ => Packet.consumes_readUInt.isSome_bind fun _ =>
      Packet.consumes_readUInt.isSome_bind fun _ => Packet.consumes_readUChar.isSome_bind fun _ =>
        hname _) payload
  rw [decode_UDPDatagram, ofPayload, Option.isSome_map, hread]
  simp only [List.length_drop, List.drop_drop]
  constructor
  · rintro ⟨h₁, h₂, h₃, h₄, h⟩
    exact ⟨by omega, h.imp_left fun h64 => by omega⟩
  · rintro ⟨h10, h⟩
    exact ⟨by omega, by omega, by omega, by omega, h.imp_left fun h74 => by omega⟩

/-- A payload of one byte ends within the header. -/
theorem not_isSome_decode_one_byte : ¬ (decode (UDPDatagram [1])).isSome := by decide

end DLPacket
end DistLock
