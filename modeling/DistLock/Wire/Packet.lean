/-
The byte buffer of `Packet.h`: the writers `operator<<` append to the buffer, most
significant byte first, and the readers `operator>>` advance an iterator over it.

A buffer is the list of its bytes, and the iterator is represented by the bytes that are
still in front of it.  The readers of the source do not check for the end of the buffer;
here a reader that would run past the end returns `none`.
-/
import DistLock.Lib.BigEndian

namespace DistLock

open Lib

/-- A reader of the buffer: it consumes bytes in front of the iterator. -/
abbrev Reader : Type → Type := StateT (List UInt8) Option

@[simp] lemma Reader.pure_apply {α : Type} (a : α) (s : List UInt8) :
    (pure a : Reader α) s = some (a, s) := rfl

@[simp] lemma Reader.bind_apply {α β : Type} (m : Reader α) (f : α → Reader β) (s : List UInt8) :
    (m >>= f) s = (m s).bind fun r => f r.1 r.2 := rfl

@[simp] lemma Reader.map_apply {α β : Type} (f : α → β) (m : Reader α) (s : List UInt8) :
    (f <$> m) s = (m s).map fun r => (f r.1, r.2) := by
  show (m s).bind _ = _
  cases m s <;> rfl

namespace Packet

/-- `Packet::operator << (unsigned char)`. -/
def writeUChar (buffer : List UInt8) (data : UInt8) : List UInt8 := buffer ++ [data]

/-- `Packet::operator << (unsigned int)`. -/
def writeUInt (buffer : List UInt8) (data : UInt32) : List UInt8 :=
  let buffer := writeUChar buffer ((data >>> 24) &&& 255).toUInt8
  let buffer := writeUChar buffer ((data >>> 16) &&& 255).toUInt8
  let buffer := writeUChar buffer ((data >>> 8) &&& 255).toUInt8
  writeUChar buffer data.toUInt8

/-- `Packet::operator >> (unsigned char&)`. -/
def readUChar : Reader UInt8
  | [] => none
  | byte :: rest => some (byte, rest)

/-- `Packet::operator >> (unsigned int&)`. -/
def readUInt : Reader UInt32 := do
  let byte₁ ← readUChar
  let byte₂ ← readUChar
  let byte₃ ← readUChar
  let byte₄ ← readUChar
  return (byte₁.toUInt32 <<< 24) ||| (byte₂.toUInt32 <<< 16) ||| (byte₃.toUInt32 <<< 8) |||
    byte₄.toUInt32

@[simp] lemma readUChar_cons (b : UInt8) (rest : List UInt8) :
    readUChar (b :: rest) = some (b, rest) := rfl

/-- The shifts of the reader put the four bytes into disjoint positions. -/
lemma toNat_bytes (b₁ b₂ b₃ b₄ : UInt8) :
    ((b₁.toUInt32 <<< 24) ||| (b₂.toUInt32 <<< 16) ||| (b₃.toUInt32 <<< 8) |||
      b₄.toUInt32).toNat =
      2 ^ 24 * b₁.toNat + 2 ^ 16 * b₂.toNat + 2 ^ 8 * b₃.toNat + b₄.toNat := by
  have h₁ := b₁.toNat_lt
  have h₂ := b₂.toNat_lt
  have h₃ := b₃.toNat_lt
  have h₄ := b₄.toNat_lt
  have e₁ : b₁.toNat * 2 ^ (UInt32.toNat 24 % 32) % 2 ^ 32 = 2 ^ 24 * b₁.toNat := by
    show b₁.toNat * 2 ^ 24 % 2 ^ 32 = _
    omega
  have e₂ : b₂.toNat * 2 ^ (UInt32.toNat 16 % 32) % 2 ^ 32 = 2 ^ 16 * b₂.toNat := by
    show b₂.toNat * 2 ^ 16 % 2 ^ 32 = _
    omega
  have e₃ : b₃.toNat * 2 ^ (UInt32.toNat 8 % 32) % 2 ^ 32 = 2 ^ 8 * b₃.toNat := by
    show b₃.toNat * 2 ^ 8 % 2 ^ 32 = _
    omega
  simp only [UInt32.toNat_or, UInt32.toNat_shiftLeft, UInt8.toNat_toUInt32, Nat.shiftLeft_eq]
  rw [e₁, e₂, e₃]
  -- a multiple of a power of two and a number below it have no bit in common
  rw [← Nat.two_pow_add_eq_or_of_lt (show 2 ^ 16 * b₂.toNat < 2 ^ 24 by omega),
    show 2 ^ 24 * b₁.toNat + 2 ^ 16 * b₂.toNat = 2 ^ 16 * (2 ^ 8 * b₁.toNat + b₂.toNat) by ring,
    ← Nat.two_pow_add_eq_or_of_lt (show 2 ^ 8 * b₃.toNat < 2 ^ 16 by omega),
    show 2 ^ 16 * (2 ^ 8 * b₁.toNat + b₂.toNat) + 2 ^ 8 * b₃.toNat =
      2 ^ 8 * (2 ^ 16 * b₁.toNat + 2 ^ 8 * b₂.toNat + b₃.toNat) by ring,
    ← Nat.two_pow_add_eq_or_of_lt (show b₄.toNat < 2 ^ 8 by omega)]

lemma writeUInt_nil (x : UInt32) : writeUInt [] x = BigEndian.bytes 4 x.toNat := by
  simp only [writeUInt, writeUChar, List.nil_append, List.cons_append, BigEndian.bytes,
    List.cons.injEq, and_true]
  refine ⟨?_, ?_, ?_, ?_⟩
  all_goals
    refine BigEndian.eq_byte (x := x.toBitVec) fun i hi => ?_
    simp [BigEndian.getElem_mask hi]

lemma toNat_readUInt (s : List UInt8) : (UInt32.toNat <$> readUInt) s = BigEndian.read 4 s := by
  rw [Reader.map_apply]
  match s with
  | [] | [_] | [_, _] | [_, _, _] => rfl
  | b₁ :: b₂ :: b₃ :: b₄ :: rest =>
    have hread : readUInt (b₁ :: b₂ :: b₃ :: b₄ :: rest) = some
        ((b₁.toUInt32 <<< 24) ||| (b₂.toUInt32 <<< 16) ||| (b₃.toUInt32 <<< 8) ||| b₄.toUInt32,
          rest) := rfl
    rw [hread, Option.map_some, toNat_bytes]
    simp [BigEndian.read, BigEndian.value]
    omega

/-- What the integer writer appends, the integer reader gives back. -/
lemma readUInt_writeUInt (n : UInt32) (rest : List UInt8) :
    readUInt (writeUInt [] n ++ rest) = some (n, rest) := by
  have hread := toNat_readUInt (writeUInt [] n ++ rest)
  rw [writeUInt_nil, BigEndian.read_bytes, Nat.mod_eq_of_lt n.toNat_lt, Reader.map_apply] at hread
  obtain ⟨⟨m, t⟩, hm, hmt⟩ := Option.map_eq_some_iff.mp hread
  obtain ⟨hval, rfl⟩ : m.toNat = n.toNat ∧ t = rest := Prod.mk.inj hmt
  rw [writeUInt_nil, hm, UInt32.toNat_inj.mp hval]

lemma writeUInt_eq_append (buffer : List UInt8) (n : UInt32) :
    writeUInt buffer n = buffer ++ writeUInt [] n := by
  simp [writeUInt, writeUChar]

end Packet
end DistLock
