/-
Big-endian bytes of natural numbers, and readers of fixed-width numbers.

`bytes w n` are the lowest `w` bytes of `n`, most significant first, and `read w` reads as many
bytes and fails if there are fewer.  Numbers that are written one after the other are read back
modulo the powers of their widths, and a sequence of readers consumes exactly the sum of its
widths.
-/
import Mathlib.Data.List.Basic
import Mathlib.Tactic.Ring

namespace Lib.BigEndian

/-- The lowest `w` bytes of a number, most significant first. -/
def bytes : ℕ → ℕ → List UInt8
  | 0, _ => []
  | w + 1, n => UInt8.ofNat (n / 2 ^ (8 * w)) :: bytes w n

/-- The number that a list of bytes stands for. -/
def value : List UInt8 → ℕ
  | [] => 0
  | b :: bs => 2 ^ (8 * bs.length) * b.toNat + value bs

@[simp] lemma length_bytes (w n : ℕ) : (bytes w n).length = w := by
  induction w with
  | zero => rfl
  | succ w ih => rw [bytes, List.length_cons, ih]

lemma value_bytes (w n : ℕ) : value (bytes w n) = n % 2 ^ (8 * w) := by
  induction w with
  | zero => simp [bytes, value, Nat.mod_one]
  | succ w ih =>
    have hbyte : (UInt8.ofNat (n / 2 ^ (8 * w))).toNat = n / 2 ^ (8 * w) % 2 ^ 8 :=
      UInt8.toNat_ofNat'
    rw [bytes, value, ih, length_bytes, hbyte, Nat.mul_add, pow_add, Nat.mod_mul]
    ring

/-! ### Bits -/

lemma getElem_mask {i : ℕ} (hi : i < 8) : (255#8)[i] = true := by
  revert i
  decide

/-- A byte of a number, cut out of its bits. -/
lemma ofNat_div {n : ℕ} (x : BitVec n) (k : ℕ) :
    UInt8.ofNat (x.toNat / 2 ^ k) = UInt8.ofBitVec (x.extractLsb' k 8) := by
  apply UInt8.toNat_inj.mp
  rw [UInt8.toNat_ofNat']
  show _ = (x.extractLsb' k 8).toNat
  rw [BitVec.extractLsb'_toNat, Nat.shiftRight_eq_div_pow]

/-- A byte is recognised by its bits. -/
lemma eq_byte {n k : ℕ} {x : BitVec n} {b : UInt8}
    (h : ∀ i (hi : i < 8), b.toBitVec[i] = x.getLsbD (k + i)) :
    b = UInt8.ofNat (x.toNat / 2 ^ k) := by
  rw [ofNat_div]
  apply UInt8.toBitVec_inj.mp
  ext i hi
  rw [h i hi]
  exact (BitVec.getElem_extractLsb' hi).symm

/-- The sign does not reach the bytes that are cut out. -/
lemma getLsbD_sshiftRight {n k i : ℕ} (x : BitVec n) (hi : i < 8) (hk : k + 8 ≤ n) :
    (x.sshiftRight k).getLsbD i = x.getLsbD (k + i) := by
  have hnot : ¬ n ≤ i := by omega
  rw [BitVec.getLsbD_sshiftRight, if_pos (by omega)]
  simp only [hnot, decide_false, Bool.not_false, Bool.true_and]

/-! ### Readers -/

/-- A reader of a number of `w` bytes. -/
def read (w : ℕ) : StateT (List UInt8) Option ℕ := fun s =>
  if w ≤ s.length then some (value (s.take w), s.drop w) else none

lemma read_bytes (w n : ℕ) (rest : List UInt8) :
    read w (bytes w n ++ rest) = some (n % 2 ^ (8 * w), rest) := by
  rw [read, if_pos (by simp), List.take_left' (by simp), List.drop_left' (by simp), value_bytes]

lemma length_of_read {w n : ℕ} {s t : List UInt8} (h : read w s = some (n, t)) :
    s.length = w + t.length := by
  rw [read] at h
  split_ifs at h with hw
  obtain ⟨-, rfl⟩ := Prod.mk.inj (Option.some.inj h)
  rw [List.length_drop]
  omega

lemma value_append (s t : List UInt8) :
    value (s ++ t) = 2 ^ (8 * t.length) * value s + value t := by
  induction s with
  | nil => simp [value]
  | cons b s ih =>
    rw [List.cons_append, value, ih, value, List.length_append, Nat.mul_add, pow_add]
    ring

/-- A long number is read in two parts. -/
lemma read_add (v w : ℕ) (s : List UInt8) :
    read (v + w) s = (read v s).bind fun r => (read w r.2).map fun q =>
      (2 ^ (8 * w) * r.1 + q.1, q.2) := by
  simp only [read]
  by_cases hv : v ≤ s.length
  · rw [if_pos hv, Option.bind_some, List.length_drop]
    by_cases hw : w ≤ s.length - v
    · have hlen : ((s.drop v).take w).length = w := by
        rw [List.length_take, List.length_drop]
        omega
      rw [if_pos (by omega), if_pos hw, Option.map_some, List.take_add, value_append, hlen,
        List.drop_drop]
    · rw [if_neg (by omega), if_neg hw, Option.map_none]
  · rw [if_neg (by omega), if_neg hv, Option.bind_none]

/-- Readers in a row. -/
def readAll : List ℕ → StateT (List UInt8) Option (List ℕ)
  | [] => fun s => some ([], s)
  | w :: ws => fun s => (read w s).bind fun r => (readAll ws r.2).map fun rs => (r.1 :: rs.1, rs.2)

/-- **What is written is read back**, modulo the widths. -/
theorem readAll_bytes (items : List (ℕ × ℕ)) (rest : List UInt8) :
    readAll (items.map Prod.fst) (items.flatMap (fun i => bytes i.1 i.2) ++ rest) =
      some (items.map fun i => i.2 % 2 ^ (8 * i.1), rest) := by
  induction items with
  | nil => rfl
  | cons i items ih =>
    rw [List.map_cons, List.flatMap_cons, List.append_assoc]
    show (read i.1 _).bind _ = _
    rw [read_bytes, Option.bind_some, ih]
    rfl

/-- **Readers in a row consume the sum of their widths.** -/
theorem length_of_readAll {ws ns : List ℕ} {s t : List UInt8}
    (h : readAll ws s = some (ns, t)) : s.length = ws.sum + t.length := by
  induction ws generalizing s ns with
  | nil =>
    obtain ⟨-, rfl⟩ := Prod.mk.inj (Option.some.inj h)
    simp
  | cons w ws ih =>
    obtain ⟨⟨n, s'⟩, hread, h⟩ := Option.bind_eq_some_iff.mp h
    obtain ⟨⟨ns', t'⟩, hall, h⟩ := Option.map_eq_some_iff.mp h
    obtain ⟨-, rfl⟩ := Prod.mk.inj h
    rw [length_of_read hread, ih hall, List.sum_cons, Nat.add_assoc]

end Lib.BigEndian
