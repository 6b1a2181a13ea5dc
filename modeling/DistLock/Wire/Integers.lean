/-
The integer writers and readers of `Packet.h`.

Every writer is declared, by the comment above it, to write a fixed number of bytes, most
significant first, and the readers of these widths read big-endian numbers.  The writer for
`long int`, which is declared to write four bytes, writes two; a sequence of values is read
back if and only if it has no `long int` (`reads_back_iff`).
-/
import DistLock.Wire.Packet
import Mathlib.Algebra.Order.BigOperators.Group.List

namespace DistLock

open Lib

namespace Packet

/-! ### The writers -/

/-- `Packet::operator << (char)`. -/
def writeChar (buffer : List UInt8) (data : Int8) : List UInt8 := writeUChar buffer data.toUInt8

/-- `Packet::operator << (int)`. -/
def writeInt (buffer : List UInt8) (data : Int32) : List UInt8 := writeUInt buffer data.toUInt32

/-- `Packet::operator << (short int)`. -/
def writeShort (buffer : List UInt8) (data : Int16) : List UInt8 :=
  let buffer := writeUChar buffer ((data >>> 8) &&& 255).toUInt16.toUInt8
  writeUChar buffer (data &&& 255).toUInt16.toUInt8

/-- `Packet::operator << (long int)`; a `long int` has 64 bits. -/
def writeLong (buffer : List UInt8) (data : Int64) : List UInt8 :=
  let buffer := writeUChar buffer ((data >>> 8) &&& 255).toUInt64.toUInt8
  writeUChar buffer (data &&& 255).toUInt64.toUInt8

/-- `Packet::operator << (long long int)`. -/
def writeLongLong (buffer : List UInt8) (data : Int64) : List UInt8 :=
  let buffer := writeUChar buffer ((data >>> 56) &&& 255).toUInt64.toUInt8
  let buffer := writeUChar buffer ((data >>> 48) &&& 255).toUInt64.toUInt8
  let buffer := writeUChar buffer ((data >>> 40) &&& 255).toUInt64.toUInt8
  let buffer := writeUChar buffer ((data >>> 32) &&& 255).toUInt64.toUInt8
  let buffer := writeUChar buffer ((data >>> 24) &&& 255).toUInt64.toUInt8
  let buffer := writeUChar buffer ((data >>> 16) &&& 255).toUInt64.toUInt8
  let buffer := writeUChar buffer ((data >>> 8) &&& 255).toUInt64.toUInt8
  writeUChar buffer data.toUInt64.toUInt8

/-- `Packet::operator << (uint64_t)`. -/
def writeUInt64 (buffer : List UInt8) (data : UInt64) : List UInt8 :=
  let buffer := writeUChar buffer ((data >>> 56) &&& 255).toUInt8
  let buffer := writeUChar buffer ((data >>> 48) &&& 255).toUInt8
  let buffer := writeUChar buffer ((data >>> 40) &&& 255).toUInt8
  let buffer := writeUChar buffer ((data >>> 32) &&& 255).toUInt8
  let buffer := writeUChar buffer ((data >>> 24) &&& 255).toUInt8
  let buffer := writeUChar buffer ((data >>> 16) &&& 255).toUInt8
  let buffer := writeUChar buffer ((data >>> 8) &&& 255).toUInt8
  writeUChar buffer data.toUInt8

/-! ### The readers -/

/-- `Packet::operator >> (short unsigned int&)`. -/
def readUShort : Reader UInt16 := do
  let byte₁ ← readUChar
  let byte₂ ← readUChar
  return (byte₁.toUInt16 <<< 8) ||| byte₂.toUInt16

/-- `Packet::operator >> (uint64_t&)`. -/
def readUInt64 : Reader UInt64 := do
  let int₁ ← readUInt
  let int₂ ← readUInt
  return (int₁.toUInt64 <<< 32) ||| int₂.toUInt64

/-! ### What the writers append -/

lemma writeUChar_nil (x : UInt8) : writeUChar [] x = BigEndian.bytes 1 x.toNat := by
  simp [writeUChar, BigEndian.bytes]

lemma writeChar_nil (x : Int8) : writeChar [] x = BigEndian.bytes 1 x.toUInt8.toNat :=
  writeUChar_nil _

lemma writeShort_nil (x : Int16) : writeShort [] x = BigEndian.bytes 2 x.toUInt16.toNat := by
  simp only [writeShort, writeUChar, List.nil_append, List.cons_append, BigEndian.bytes,
    List.cons.injEq, and_true]
  refine ⟨?_, ?_⟩
  all_goals
    refine BigEndian.eq_byte (x := x.toBitVec) fun i hi => ?_
    simp [BigEndian.getElem_mask hi, BigEndian.getLsbD_sshiftRight, hi]

lemma writeInt_nil (x : Int32) : writeInt [] x = BigEndian.bytes 4 x.toUInt32.toNat :=
  writeUInt_nil _

lemma writeLongLong_nil (x : Int64) :
    writeLongLong [] x = BigEndian.bytes 8 x.toUInt64.toNat := by
  simp only [writeLongLong, writeUChar, List.nil_append, List.cons_append, BigEndian.bytes,
    List.cons.injEq, and_true]
  refine ⟨?_, ?_, ?_, ?_, ?_, ?_, ?_, ?_⟩
  all_goals
    refine BigEndian.eq_byte (x := x.toBitVec) fun i hi => ?_
    simp [BigEndian.getElem_mask hi, BigEndian.getLsbD_sshiftRight, hi]

lemma writeUInt64_nil (x : UInt64) : writeUInt64 [] x = BigEndian.bytes 8 x.toNat := by
  simp only [writeUInt64, writeUChar, List.nil_append, List.cons_append, BigEndian.bytes,
    List.cons.injEq, and_true]
  refine ⟨?_, ?_, ?_, ?_, ?_, ?_, ?_, ?_⟩
  all_goals
    refine BigEndian.eq_byte (x := x.toBitVec) fun i hi => ?_
    simp [BigEndian.getElem_mask hi]

/-! ### What the readers read -/

/-- The shift of the reader puts the two bytes into disjoint positions. -/
lemma toNat_bytes₂ (b₁ b₂ : UInt8) :
    ((b₁.toUInt16 <<< 8) ||| b₂.toUInt16).toNat = 2 ^ 8 * b₁.toNat + b₂.toNat := by
  have h₁ := b₁.toNat_lt
  have hshift : b₁.toNat * 2 ^ (UInt16.toNat 8 % 16) % 2 ^ 16 = 2 ^ 8 * b₁.toNat := by
    show b₁.toNat * 2 ^ 8 % 2 ^ 16 = _
    omega
  simp only [UInt16.toNat_or, UInt16.toNat_shiftLeft, UInt8.toNat_toUInt16, Nat.shiftLeft_eq]
  rw [hshift, ← Nat.two_pow_add_eq_or_of_lt b₂.toNat_lt]

/-- And the two halves of a 64-bit number. -/
lemma toNat_ints (i₁ i₂ : UInt32) :
    ((i₁.toUInt64 <<< 32) ||| i₂.toUInt64).toNat = 2 ^ 32 * i₁.toNat + i₂.toNat := by
  have h₁ := i₁.toNat_lt
  have hshift : i₁.toNat * 2 ^ (UInt64.toNat 32 % 64) % 2 ^ 64 = 2 ^ 32 * i₁.toNat := by
    show i₁.toNat * 2 ^ 32 % 2 ^ 64 = _
    omega
  simp only [UInt64.toNat_or, UInt64.toNat_shiftLeft, UInt32.toNat_toUInt64, Nat.shiftLeft_eq]
  rw [hshift, ← Nat.two_pow_add_eq_or_of_lt i₂.toNat_lt]

lemma toNat_readUChar (s : List UInt8) : (UInt8.toNat <$> readUChar) s = BigEndian.read 1 s := by
  rw [Reader.map_apply]
  cases s with
  | nil => rfl
  | cons b rest => simp [BigEndian.read, BigEndian.value]

lemma toNat_readUShort (s : List UInt8) :
    (UInt16.toNat <$> readUShort) s = BigEndian.read 2 s := by
  rw [Reader.map_apply]
  match s with
  | [] | [_] => rfl
  | b₁ :: b₂ :: rest =>
    have hread : readUShort (b₁ :: b₂ :: rest) =
        some ((b₁.toUInt16 <<< 8) ||| b₂.toUInt16, rest) := rfl
    rw [hread, Option.map_some, toNat_bytes₂]
    simp [BigEndian.read, BigEndian.value]

lemma toNat_readUInt64 (s : List UInt8) :
    (UInt64.toNat <$> readUInt64) s = BigEndian.read 8 s := by
  have hread : readUInt64 s = (readUInt s).bind fun r => (readUInt r.2).map fun q =>
      ((r.1.toUInt64 <<< 32) ||| q.1.toUInt64, q.2) := by
    rw [readUInt64, Reader.bind_apply]
    congr 1
    funext r
    rw [Reader.bind_apply]
    cases readUInt r.2 <;> rfl
  rw [Reader.map_apply, hread, BigEndian.read_add 4 4, ← toNat_readUInt, Reader.map_apply]
  cases readUInt s with
  | none => rfl
  | some r =>
    simp only [Option.bind_some, Option.map_some]
    rw [← toNat_readUInt, Reader.map_apply, Option.map_map, Option.map_map]
    congr 1
    funext q
    exact Prod.ext (toNat_ints r.1 q.1) rfl

end Packet

/-- A value, with the type that chooses the writer. -/
inductive IntValue
  | uchar (data : UInt8)
  | char (data : Int8)
  | short (data : Int16)
  | int (data : Int32)
  | uint (data : UInt32)
  | long (data : Int64)
  | longLong (data : Int64)
  | uint64 (data : UInt64)
  deriving DecidableEq

namespace IntValue

/-- The number itself. -/
def toInt : IntValue → ℤ
  | uchar data => data.toNat
  | char data => data.toInt
  | short data => data.toInt
  | int data => data.toInt
  | uint data => data.toNat
  | long data => data.toInt
  | longLong data => data.toInt
  | uint64 data => data.toNat

/-- `Packet::operator <<`. -/
def write (buffer : List UInt8) : IntValue → List UInt8
  | uchar data => Packet.writeUChar buffer data
  | char data => Packet.writeChar buffer data
  | short data => Packet.writeShort buffer data
  | int data => Packet.writeInt buffer data
  | uint data => Packet.writeUInt buffer data
  | long data => Packet.writeLong buffer data
  | longLong data => Packet.writeLongLong buffer data
  | uint64 data => Packet.writeUInt64 buffer data

/-- The number of bytes that the comment above the writer declares. -/
def width : IntValue → ℕ
  | uchar _ | char _ => 1
  | short _ => 2
  | int _ | uint _ | long _ => 4
  | longLong _ | uint64 _ => 8

/-- The unsigned reader of the declared width. -/
def read : IntValue → Reader ℕ
  | uchar _ | char _ => UInt8.toNat <$> Packet.readUChar
  | short _ => UInt16.toNat <$> Packet.readUShort
  | int _ | uint _ | long _ => UInt32.toNat <$> Packet.readUInt
  | longLong _ | uint64 _ => UInt64.toNat <$> Packet.readUInt64

/-- The value was written by the writer for `long int`. -/
def IsLong : IntValue → Prop
  | long _ => True
  | _ => False

instance : DecidablePred IsLong
  | long _ => isTrue trivial
  | uchar _ | char _ | short _ | int _ | uint _ | longLong _ | uint64 _ => isFalse id

/-- All values, written one after the other to an empty packet. -/
def writeAll (vs : List IntValue) : List UInt8 := vs.foldl write []

/-- The readers of all values, in the same order. -/
def readAll : List IntValue → Reader (List ℕ)
  | [] => return []
  | v :: vs => do
    let n ← v.read
    let ns ← readAll vs
    return n :: ns

/-- The values are read back modulo the powers of their declared widths, and the whole buffer is
consumed. -/
def ReadsBack (vs : List IntValue) : Prop :=
  ∃ ns, readAll vs (writeAll vs) = some (ns, []) ∧
    ns.map Nat.cast = vs.map fun v => v.toInt % 2 ^ (8 * v.width)

/-! ### Writing and reading one value -/

/-- The number whose bytes are written. -/
def toUnsigned : IntValue → ℕ
  | uchar data => data.toNat
  | char data => data.toUInt8.toNat
  | short data => data.toUInt16.toNat
  | int data => data.toUInt32.toNat
  | uint data => data.toNat
  | long data => data.toUInt64.toNat
  | longLong data => data.toUInt64.toNat
  | uint64 data => data.toNat

lemma toNat_emod {n : ℕ} (x : BitVec n) : ((x.toNat % 2 ^ n : ℕ) : ℤ) = x.toInt % 2 ^ n := by
  rw [BitVec.toInt_eq_toNat_bmod]
  push_cast
  have h := Int.bmod_emod (x := (x.toNat : ℤ)) (m := 2 ^ n)
  push_cast at h
  exact h.symm

/-- A signed value and its bit pattern agree modulo the power of the width. -/
lemma toUnsigned_mod {v : IntValue} (h : ¬ v.IsLong) :
    ((v.toUnsigned % 2 ^ (8 * v.width) : ℕ) : ℤ) = v.toInt % 2 ^ (8 * v.width) := by
  cases v with
  | long => exact absurd trivial h
  | uchar data | uint data | uint64 data => exact Int.natCast_mod _ _
  | char data | short data | int data | longLong data => exact toNat_emod data.toBitVec

lemma write_eq_append (v : IntValue) (buffer : List UInt8) :
    v.write buffer = buffer ++ v.write [] := by
  cases v <;> simp [write, Packet.writeUChar, Packet.writeChar, Packet.writeShort,
    Packet.writeInt, Packet.writeUInt, Packet.writeLong, Packet.writeLongLong,
    Packet.writeUInt64]

/-- The writers write what their comments declare, except for the one for `long int`. -/
lemma write_nil {v : IntValue} (h : ¬ v.IsLong) :
    v.write [] = BigEndian.bytes v.width v.toUnsigned := by
  cases v with
  | long => exact absurd trivial h
  | uchar data => exact Packet.writeUChar_nil data
  | char data => exact Packet.writeChar_nil data
  | short data => exact Packet.writeShort_nil data
  | int data => exact Packet.writeInt_nil data
  | uint data => exact Packet.writeUInt_nil data
  | longLong data => exact Packet.writeLongLong_nil data
  | uint64 data => exact Packet.writeUInt64_nil data

lemma length_write_of_isLong {v : IntValue} (h : v.IsLong) : (v.write []).length + 2 = v.width := by
  cases v with
  | long => rfl
  | uchar | char | short | int | uint | longLong | uint64 => exact absurd h id

lemma length_write_le (v : IntValue) : (v.write []).length ≤ v.width := by
  by_cases h : v.IsLong
  · have hlen := length_write_of_isLong h
    omega
  · rw [write_nil h, BigEndian.length_bytes]

lemma read_eq (v : IntValue) : v.read = BigEndian.read v.width := by
  funext s
  cases v with
  | uchar | char => exact Packet.toNat_readUChar s
  | short => exact Packet.toNat_readUShort s
  | int | uint | long => exact Packet.toNat_readUInt s
  | longLong | uint64 => exact Packet.toNat_readUInt64 s

/-! ### Sequences of values -/

lemma writeAll_eq_flatMap (vs : List IntValue) : writeAll vs = vs.flatMap (write []) := by
  have hfold : ∀ (us : List IntValue) buffer, us.foldl write buffer =
      buffer ++ us.flatMap (write []) := by
    intro us
    induction us with
    | nil => intro buffer; simp
    | cons v us ih =>
      intro buffer
      rw [List.foldl_cons, ih, write_eq_append, List.flatMap_cons, List.append_assoc]
  exact hfold vs []

lemma readAll_eq (vs : List IntValue) : readAll vs = BigEndian.readAll (vs.map width) := by
  induction vs with
  | nil => rfl
  | cons v vs ih =>
    funext s
    rw [readAll, List.map_cons, BigEndian.readAll, Reader.bind_apply, read_eq]
    congr 1
    funext r
    rw [Reader.bind_apply, ih]
    cases BigEndian.readAll (vs.map width) r.2 <;> rfl

/-- A `long int` leaves its readers two bytes short. -/
lemma length_writeAll {vs : List IntValue} (h : ∃ v ∈ vs, v.IsLong) :
    (writeAll vs).length < (vs.map width).sum := by
  rw [writeAll_eq_flatMap, List.length_flatMap]
  refine List.sum_lt_sum _ _ (fun v _ => length_write_le v) ?_
  obtain ⟨v, hv, hlong⟩ := h
  have hlen := length_write_of_isLong hlong
  exact ⟨v, hv, by omega⟩

/-- **What the integer writers write, the readers of the declared widths read back**, if and only
if the writer for `long int` is not used. -/
theorem reads_back_iff (vs : List IntValue) : ReadsBack vs ↔ ∀ v ∈ vs, ¬ v.IsLong := by
  constructor
  · rintro ⟨ns, hread, -⟩ v hv hlong
    have hlen := BigEndian.length_of_readAll (readAll_eq vs ▸ hread)
    have hshort := length_writeAll ⟨v, hv, hlong⟩
    simp at hlen
    omega
  · intro h
    have hbytes : writeAll vs =
        (vs.map fun v => (v.width, v.toUnsigned)).flatMap (fun i => BigEndian.bytes i.1 i.2) := by
      rw [writeAll_eq_flatMap, List.flatMap_map]
      exact List.flatMap_congr fun v hv => write_nil (h v hv)
    have hread := BigEndian.readAll_bytes (vs.map fun v => (v.width, v.toUnsigned)) []
    rw [List.append_nil, ← hbytes, List.map_map, List.map_map] at hread
    refine ⟨_, (congrFun (readAll_eq vs) _).trans hread, ?_⟩
    rw [List.map_map]
    exact List.map_congr_left fun v hv => toUnsigned_mod (h v hv)

/-- A single `long int` is not read back. -/
theorem not_readsBack_long : ¬ ReadsBack [long 1] := by
  rintro ⟨ns, hread, -⟩
  have hnone : readAll [long 1] (writeAll [long 1]) = none := by decide
  rw [hnone] at hread
  cases hread

end IntValue
end DistLock
