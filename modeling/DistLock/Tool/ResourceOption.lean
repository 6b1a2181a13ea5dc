/-
The option `-r` of the command line (`dist_lock.cc`).

Its argument is a name, or a name and a count with a colon between them.  With a colon, `main` takes
the first two fields between colons, and what `atoi` makes of the second one is the count.  `atoi`
reads a number at the beginning and ignores the rest, and its result has 32 bits.  So other
arguments than those of the grammar are accepted as well, namely all those whose second field
`atoi` makes a positive number of (`conforms_iff`).
-/
import DistLock.Lib.OrdMap
import DistLock.Tool.Tokenizer

namespace DistLock

open Lib (OrdMap)
open Lib.Search

/-! ### Numbers in strings -/

/-- `isspace`. -/
def isSpace (b : UInt8) : Bool := b = 32 ∨ 9 ≤ b ∧ b ≤ 13

/-- `isdigit`. -/
def isDigit (b : UInt8) : Bool := 48 ≤ b ∧ b ≤ 57

/-- The value of decimal digits. -/
def ofDigits (ds : List UInt8) : ℕ := ds.foldl (fun n d => 10 * n + (d.toNat - 48)) 0

/-- The optional sign of a number: whether it is a minus, and what follows. -/
def sign : List UInt8 → Bool × List UInt8
  | 45 :: s => (true, s)
  | 43 :: s => (false, s)
  | s => (false, s)

/-- `strtol` to the base 10, on a string up to its terminating NUL; numbers out of range are
clamped. -/
def strtol (s : List UInt8) : ℤ :=
  let r := sign (s.dropWhile isSpace)
  let n : ℤ := ofDigits (r.2.takeWhile isDigit)
  max (-2 ^ 63) (min (2 ^ 63 - 1) (if r.1 then -n else n))

/-- `atoi`, which is `(int) strtol`. -/
def atoi (s : List UInt8) : Int32 := Int32.ofInt (strtol s)

/-- `StringTokenizer::nextIntToken`. -/
def StringTokenizer.nextIntToken (T : StringTokenizer) : Int32 × StringTokenizer :=
  let r := T.nextToken
  (atoi r.1, r.2)

/-! ### The option -/

/-- How `main` goes on after an option: with the next one, by `exit` after a message, or with the
usage message. -/
inductive OptStatus
  | next
  | exit (message : String) (code : ℕ)
  | usage
  deriving DecidableEq

/-- `#define RESOURCECOUNT`. -/
def RESOURCECOUNT : UInt32 := 1

/-- A colon. -/
abbrev colon : UInt8 := 58

/-- The case `'r'` of `main`, with `res_map` before and after. -/
def optionR (resMap : OrdMap Name UInt32) (optarg : Name) : OptStatus × OrdMap Name UInt32 :=
  if optarg.length > 0 then
    if (find [colon] optarg).isSome then
      let st := StringTokenizer.new optarg [colon]
      let r := st.nextToken
      let count := r.2.nextIntToken
      if count.1 < 1 then
        (.exit "resource counter must be an integer greater than 0" 1, resMap)
      else (.next, resMap.insert r.1 count.1.toUInt32)
    else (.next, resMap.insert optarg RESOURCECOUNT)
  else (.usage, resMap)

/-- The argument is `name:count`. -/
structure Grammar (arg name : Name) (count : ℕ) : Prop where
  colon_notMem : colon ∉ name
  name_ne_nil : name ≠ []
  digits : ∃ ds : List UInt8, arg = name ++ colon :: ds ∧ (∀ d ∈ ds, isDigit d = true) ∧
    ofDigits ds = count
  pos : 1 ≤ count
  le : count ≤ 2147483647

/-- The counter error. -/
def counterError : OptStatus := .exit "resource counter must be an integer greater than 0" 1

/-- The argument is accepted as its grammar says, or rejected because it is not in the grammar. -/
def Conforms (arg : Name) : Prop :=
  ∀ resMap, (∀ name count, Grammar arg name count →
      optionR resMap arg = (.next, resMap.insert name (UInt32.ofNat count))) ∧
    ((¬ ∃ name count, Grammar arg name count) → optionR resMap arg = (counterError, resMap))

/-- The `n`-th field between colons. -/
def field (arg : Name) (n : ℕ) : Name := (fields colon arg)[n]?.getD []

/-! ### Digits -/

lemma not_isSpace_of_isDigit {b : UInt8} (h : isDigit b = true) : isSpace b = false := by
  simp only [isDigit, decide_eq_true_eq, UInt8.le_iff_toNat_le] at h
  simp only [isSpace, decide_eq_false_iff_not, UInt8.le_iff_toNat_le, ← UInt8.toNat_inj]
  change 48 ≤ b.toNat ∧ b.toNat ≤ 57 at h
  show ¬ (b.toNat = 32 ∨ 9 ≤ b.toNat ∧ b.toNat ≤ 13)
  omega

lemma sign_of_isDigit {ds : List UInt8} (h : ∀ d ∈ ds, isDigit d = true) :
    sign ds = (false, ds) := by
  rw [sign.eq_def]
  split
  · next s => exact absurd (h 45 List.mem_cons_self) (by decide)
  · next s => exact absurd (h 43 List.mem_cons_self) (by decide)
  · rfl

/-- Digits are read as their value, as long as it is in range. -/
lemma strtol_of_digits {ds : List UInt8} (h : ∀ d ∈ ds, isDigit d = true)
    (hle : ofDigits ds ≤ 2147483647) : strtol ds = ofDigits ds := by
  have hspace : ds.dropWhile isSpace = ds := by
    cases ds with
    | nil => rfl
    | cons d ds =>
      exact List.dropWhile_cons_of_neg (by simp [not_isSpace_of_isDigit (h d List.mem_cons_self)])
  have hdigits : ds.takeWhile isDigit = ds := List.takeWhile_eq_self_iff.mpr h
  rw [strtol, hspace, sign_of_isDigit h]
  simp only [hdigits, Bool.false_eq_true, if_false]
  omega

lemma toInt_atoi {ds : List UInt8} (h : ∀ d ∈ ds, isDigit d = true)
    (hle : ofDigits ds ≤ 2147483647) : (atoi ds).toInt = ofDigits ds := by
  rw [atoi, strtol_of_digits h hle]
  exact Int32.toInt_ofInt_of_le (by omega) (by omega)

/-! ### What the option does -/

/-- The name and the count are the first two fields. -/
lemma optionR_of_mem {arg : Name} (h : colon ∈ arg) (resMap : OrdMap Name UInt32) :
    optionR resMap arg =
      if atoi (field arg 1) < 1 then (counterError, resMap)
      else (.next, resMap.insert (field arg 0) (atoi (field arg 1)).toUInt32) := by
  have hne : arg ≠ [] := List.ne_nil_of_mem h
  obtain ⟨htidy, hfields⟩ := StringTokenizer.new_spec (c := colon) arg
  obtain ⟨hname, hdelim, htidy', hrest⟩ :=
    StringTokenizer.nextToken_spec (StringTokenizer.new_delim hne) htidy
  obtain ⟨hcount, -⟩ := StringTokenizer.nextToken_spec hdelim htidy'
  rw [hfields] at hname hrest
  rw [hrest, List.head?_tail] at hcount
  rw [List.head?_eq_getElem?] at hname
  rw [optionR, if_pos (List.length_pos_iff.mpr hne), if_pos (isSome_find_iff.mpr h)]
  simp only [StringTokenizer.nextIntToken, hname, hcount]
  rfl

/-- An argument of the grammar has two fields. -/
lemma Grammar.exists_fields {arg name : Name} {count : ℕ} (h : Grammar arg name count) :
    ∃ ds, fields colon arg = [name, ds] ∧ (∀ d ∈ ds, isDigit d = true) ∧ ofDigits ds = count := by
  obtain ⟨ds, rfl, hdigits, hval⟩ := h.digits
  have hcolon : colon ∉ ds := fun hmem => absurd (hdigits colon hmem) (by decide)
  have hds : ds ≠ [] := by
    rintro rfl
    have hpos := h.pos
    rw [← hval] at hpos
    exact absurd hpos (by decide)
  refine ⟨ds, ?_, hdigits, hval⟩
  rw [fields_append_cons, fields_of_notMem h.colon_notMem h.name_ne_nil,
    fields_of_notMem hcolon hds]
  rfl

lemma Grammar.field_eq {arg name : Name} {count : ℕ} (h : Grammar arg name count) :
    field arg 0 = name ∧ (atoi (field arg 1)).toInt = count := by
  obtain ⟨ds, hfields, hdigits, hval⟩ := h.exists_fields
  rw [field, field, hfields, ← hval]
  exact ⟨rfl, toInt_atoi hdigits (hval ▸ h.le)⟩

lemma Grammar.colon_mem {arg name : Name} {count : ℕ} (h : Grammar arg name count) :
    colon ∈ arg := by
  obtain ⟨ds, rfl, -⟩ := h.digits
  exact List.mem_append_right _ List.mem_cons_self

lemma Grammar.optionR_eq {arg name : Name} {count : ℕ} (h : Grammar arg name count)
    (resMap : OrdMap Name UInt32) :
    ¬ atoi (field arg 1) < 1 ∧
      optionR resMap arg = (.next, resMap.insert name (UInt32.ofNat count)) := by
  obtain ⟨hname, hcount⟩ := h.field_eq
  have hpos := h.pos
  have hle := h.le
  have hnot : ¬ atoi (field arg 1) < 1 := by
    rw [Int32.lt_iff_toInt_lt, hcount]
    show ¬ (count : ℤ) < 1
    omega
  have hval : (atoi (field arg 1)).toUInt32 = UInt32.ofNat count := by
    rw [← Int32.ofInt_toInt (atoi (field arg 1)), hcount]
    rfl
  rw [optionR_of_mem h.colon_mem, if_neg hnot, hname, hval]
  exact ⟨hnot, rfl⟩

/-- **The option accepts exactly its grammar** on the arguments of the grammar, and on those whose
second field `atoi` does not make a positive number of. -/
theorem conforms_iff {arg : Name} (h : colon ∈ arg) :
    Conforms arg ↔ (∃ name count, Grammar arg name count) ∨ atoi (field arg 1) < 1 := by
  constructor
  · intro hconf
    by_contra hnot
    obtain ⟨hgrammar, hpos⟩ := not_or.mp hnot
    have hrejected := (hconf .empty).2 hgrammar
    rw [optionR_of_mem h, if_neg hpos] at hrejected
    cases hrejected
  · rintro (⟨name, count, hgrammar⟩ | hneg) resMap
    · refine ⟨fun name' count' hgrammar' => (hgrammar'.optionR_eq resMap).2, fun hnone => ?_⟩
      exact absurd ⟨name, count, hgrammar⟩ hnone
    · refine ⟨fun name count hgrammar => absurd hneg (hgrammar.optionR_eq resMap).1, fun _ => ?_⟩
      rw [optionR_of_mem h, if_pos hneg]

/-- `a:2` is accepted with the count two, and `a:0` is rejected. -/
theorem conforms_two_zero : Conforms [97, 58, 50] ∧ Conforms [97, 58, 48] := by
  constructor
  · refine (conforms_iff (by decide)).mpr (.inl ⟨[97], 2, by decide, by decide, ?_, ?_, ?_⟩)
    · exact ⟨[50], rfl, List.forall_mem_singleton.mpr (by decide), rfl⟩
    all_goals decide
  · exact (conforms_iff (by decide)).mpr (.inr (by decide))

/-- `a:2x` is accepted with the count two. -/
theorem not_conforms_junk : ¬ Conforms [97, 58, 50, 120] := by
  intro hconf
  have hgrammar : ¬ ∃ name count, Grammar [97, 58, 50, 120] name count := by
    rintro ⟨name, count, h⟩
    obtain ⟨ds, hfields, hdigits, -⟩ := h.exists_fields
    have hjunk : fields colon [97, 58, 50, 120] = [[97], [50, 120]] := by decide
    obtain ⟨-, hds⟩ := List.cons.inj (hjunk.symm.trans hfields)
    obtain ⟨rfl, -⟩ := List.cons.inj hds
    exact absurd (hdigits 120 (by decide)) (by decide)
  have hrejected := (hconf .empty).2 hgrammar
  rw [optionR_of_mem (by decide), if_neg (by decide)] at hrejected
  cases hrejected

end DistLock
