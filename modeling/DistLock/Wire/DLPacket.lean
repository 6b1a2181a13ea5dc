/-
The lock packet (`DLPacket.h`, `DLPacket.cc`): its fields, the encoder `build` and the
decoding constructor `DLPacket(UDPDatagram*)`.

The name of a resource is a `std::string`, that is, a list of arbitrary bytes.  On the wire
a name of at most `RES_BUFF` bytes is followed by a NUL byte and a longer one is cut after
`RES_BUFF` bytes; the decoder stops at the first NUL or after `RES_BUFF` bytes.
-/
import DistLock.Wire.Packet
import Mathlib.Data.List.GetD
import Mathlib.Data.List.TakeWhile

namespace DistLock

/-- The name of a resource. -/
abbrev Name : Type := List UInt8

/-- `#define RES_BUFF`. -/
def RES_BUFF : ℕ := 64

/-- The fields of a `DLPacket`. -/
structure DLPacket where
  state : UInt8
  memberId : UInt32
  options : UInt8
  count : UInt32
  resource : Name
  deriving DecidableEq

namespace DLPacket

/-- `DLPacket(unsigned char s, unsigned int id)`. -/
def new (s : UInt8) (id : UInt32) : DLPacket where
  state := s
  memberId := id
  options := 0
  count := 1
  resource := []

def setResource (p : DLPacket) (res : Name) : DLPacket := { p with resource := res }

def setCount (p : DLPacket) (c : UInt32) : DLPacket := { p with count := c }

/-- The bytes that `build` writes for a name: `resource[i]` is the terminating NUL for the
index `resource.length()`. -/
def resourceBytes (resource : Name) : List UInt8 :=
  (List.range (if resource.length > RES_BUFF then RES_BUFF else resource.length + 1)).map
    fun i => resource.getD i 0

/-- `DLPacket::build`, from an empty buffer. -/
def build (p : DLPacket) : List UInt8 :=
  let buffer := Packet.writeUChar [] p.state
  let buffer := Packet.writeUInt buffer p.memberId
  let buffer := Packet.writeUInt buffer p.count
  let buffer := Packet.writeUChar buffer p.options
  (resourceBytes p.resource).foldl Packet.writeUChar buffer

/-- The name loop of the decoder: it ends after `n` bytes or with the first NUL. -/
def readResource : ℕ → Reader (List UInt8)
  | 0 => return []
  | n + 1 => do
    let byte ← Packet.readUChar
    if byte = 0 then return [byte]
    let res ← readResource n
    return byte :: res

/-- `std::string::c_str` assigned to a string: everything before the first NUL. -/
def cStr (s : List UInt8) : List UInt8 := s.takeWhile (· ≠ 0)

/-- `DLPacket(UDPDatagram*)`, as a reader of the payload. -/
def read : Reader DLPacket := do
  let state ← Packet.readUChar
  let memberId ← Packet.readUInt
  let count ← Packet.readUInt
  let options ← Packet.readUChar
  let res ← readResource RES_BUFF
  return { state, memberId, options, count, resource := cStr res }

/-- The packet that a payload decodes to, unless the decoder runs past its end. -/
def ofPayload (payload : List UInt8) : Option DLPacket := (read payload).map Prod.fst

/-! ### The round trip -/

/-- A name of at most `RES_BUFF` bytes is written with its terminating NUL. -/
lemma resourceBytes_of_le {n : Name} (h : n.length ≤ RES_BUFF) : resourceBytes n = n ++ [0] := by
  rw [resourceBytes, if_neg (not_lt.mpr h)]
  refine List.ext_getElem (by simp) fun i h₁ h₂ => ?_
  rw [List.getElem_map, List.getElem_range, List.getElem_append]
  split_ifs with hi
  · exact List.getD_eq_getElem _ _ hi
  · rw [List.getElem_singleton, List.getD_eq_default _ _ (not_lt.mp hi)]

/-- A longer name is cut. -/
lemma resourceBytes_of_gt {n : Name} (h : RES_BUFF < n.length) :
    resourceBytes n = n.take RES_BUFF := by
  rw [resourceBytes, if_pos h]
  refine List.ext_getElem (by simp [h.le]) fun i h₁ h₂ => ?_
  rw [List.getElem_map, List.getElem_range, List.getElem_take]
  exact List.getD_eq_getElem _ _ _

lemma foldl_writeUChar (bs buffer : List UInt8) :
    bs.foldl Packet.writeUChar buffer = buffer ++ bs := by
  induction bs generalizing buffer with
  | nil => simp
  | cons b bs ih => simp [ih, Packet.writeUChar]

/-- The wire format: one byte of state, the member id and the count in four bytes each, one
byte of options, and the name. -/
lemma build_eq (p : DLPacket) :
    p.build = p.state :: (Packet.writeUInt [] p.memberId ++ (Packet.writeUInt [] p.count ++
      p.options :: resourceBytes p.resource)) := by
  rw [build]
  rw [foldl_writeUChar, Packet.writeUInt_eq_append (Packet.writeUInt _ _),
    Packet.writeUInt_eq_append (Packet.writeUChar _ _)]
  simp [Packet.writeUChar]

lemma cStr_cons_zero (s : List UInt8) : cStr (0 :: s) = [] := by simp [cStr]

lemma cStr_cons {b : UInt8} (hb : b ≠ 0) (s : List UInt8) : cStr (b :: s) = b :: cStr s := by
  simp [cStr, hb]

/-- The decoder stops at the NUL that ends a short name. -/
lemma readResource_nul {n : ℕ} {s : List UInt8} (h : s.length < n) (rest : List UInt8) :
    ∃ res rest', readResource n (s ++ 0 :: rest) = some (res, rest') ∧ cStr res = cStr s := by
  induction s generalizing n with
  | nil =>
    obtain ⟨n, rfl⟩ := Nat.exists_eq_succ_of_ne_zero (Nat.ne_of_gt h)
    exact ⟨[0], rest, by simp [readResource], rfl⟩
  | cons b s ih =>
    obtain ⟨n, rfl⟩ := Nat.exists_eq_succ_of_ne_zero (Nat.ne_of_gt (Nat.zero_lt_of_lt h))
    by_cases hb : b = 0
    · subst hb
      exact ⟨[0], s ++ 0 :: rest, by simp [readResource],
        by rw [cStr_cons_zero, cStr_cons_zero]⟩
    · obtain ⟨res, rest', hres, hc⟩ := ih (n := n) (by simpa using h)
      refine ⟨b :: res, rest', ?_, by rw [cStr_cons hb, cStr_cons hb, hc]⟩
      simp [readResource, hb, hres]

/-- The decoder stops after as many bytes as it is allowed to read. -/
lemma readResource_take {n : ℕ} {s : List UInt8} (h : n ≤ s.length) :
    ∃ res rest', readResource n s = some (res, rest') ∧ cStr res = cStr (s.take n) := by
  induction n generalizing s with
  | zero => exact ⟨[], s, rfl, by rw [List.take_zero]⟩
  | succ n ih =>
    cases s with
    | nil => simp at h
    | cons b s =>
      by_cases hb : b = 0
      · subst hb
        exact ⟨[0], s, by simp [readResource],
          by rw [List.take_succ_cons, cStr_cons_zero, cStr_cons_zero]⟩
      · obtain ⟨res, rest', hres, hc⟩ := ih (s := s) (by simpa using h)
        refine ⟨b :: res, rest', ?_, by rw [List.take_succ_cons, cStr_cons hb, cStr_cons hb, hc]⟩
        simp [readResource, hb, hres]

/-- Whatever its length, a name is read back as the part of its first `RES_BUFF` bytes that
lies before the first NUL. -/
lemma readResource_resourceBytes (n : Name) :
    ∃ res rest', readResource RES_BUFF (resourceBytes n) = some (res, rest') ∧
      cStr res = cStr (n.take RES_BUFF) := by
  rcases lt_trichotomy n.length RES_BUFF with h | h | h
  · rw [resourceBytes_of_le h.le, List.take_of_length_le h.le]
    exact readResource_nul h []
  · rw [resourceBytes_of_le h.le]
    have htake : (n ++ [0]).take RES_BUFF = n.take RES_BUFF := List.take_append_of_le_length h.ge
    exact htake ▸ readResource_take (by simp [h])
  · rw [resourceBytes_of_gt h]
    have htake : (n.take RES_BUFF).take RES_BUFF = n.take RES_BUFF := by
      rw [List.take_take, min_self]
    have hres := readResource_take (n := RES_BUFF) (s := n.take RES_BUFF) (by simp [h.le])
    rwa [htake] at hres

/-- **The round trip of a packet**: all fields survive, except that of the name only the part
before the first NUL of its first `RES_BUFF` bytes does. -/
theorem ofPayload_build (p : DLPacket) :
    ofPayload p.build = some { p with resource := cStr (p.resource.take RES_BUFF) } := by
  obtain ⟨res, rest', hres, hc⟩ := readResource_resourceBytes p.resource
  rw [ofPayload, build_eq]
  simp only [read, Reader.bind_apply, Packet.readUChar_cons, Option.bind_some,
    Packet.readUInt_writeUInt, hres, Reader.pure_apply, Option.map_some, hc]

/-- Names that survive the wire: at most `RES_BUFF` bytes, none of them NUL. -/
def FitsWire (n : Name) : Prop := n.length ≤ RES_BUFF ∧ 0 ∉ n

instance : DecidablePred FitsWire := fun n =>
  inferInstanceAs (Decidable (n.length ≤ RES_BUFF ∧ 0 ∉ n))

lemma cStr_eq_self {n : Name} (h : 0 ∉ n) : cStr n = n := by
  refine List.takeWhile_eq_self_iff.mpr fun b hb => ?_
  simpa using fun hb' : b = 0 => h (hb' ▸ hb)

lemma ofPayload_build_of_fitsWire {p : DLPacket} (h : FitsWire p.resource) :
    ofPayload p.build = some p := by
  rw [ofPayload_build, List.take_of_length_le h.1, cStr_eq_self h.2]

end DLPacket
end DistLock
