/-
The list of resources that the command line exports (`dist_lock.cc`).

`main` writes `res_map` as `name:count`, in the order of the names and with commas between them, and
the option `-r` reads such arguments.  What the options store are names without colons and positive
numbers (`optionR_next`), so each part of the list is in the grammar of the option, and the parts in
any order rebuild the map (`optionsR_resourceList`).
-/
import DistLock.Tool.ResourceOption

namespace DistLock

open Lib (OrdMap)
open Lib.Search

/-! ### Writing -/

/-- The digits of a number. -/
def decimal (n : ℕ) : Name :=
  if n < 10 then [UInt8.ofNat (48 + n)] else decimal (n / 10) ++ [UInt8.ofNat (48 + n % 10)]

/-- `std::to_string`. -/
def stdToString (i : ℤ) : Name := if i < 0 then 45 :: decimal i.natAbs else decimal i.natAbs

/-- A comma. -/
abbrev comma : UInt8 := 44

/-- The string `res` of one entry of `res_map`, whose count is taken as an `int`. -/
def resOf (resource : Name) (count : UInt32) : Name :=
  resource ++ [colon] ++ stdToString count.toInt32.toInt

/-- The string `str_res_list`, without its last comma. -/
def strResList (resMap : OrdMap Name UInt32) : Name :=
  let str := resMap.entries.foldl (fun str e => str ++ resOf e.1 e.2 ++ [comma]) []
  if str.length > 0 then substr str 0 (str.length - 1) else str

/-- The options `-r` of a command line in their order: `res_map` after them, when `main` accepts all
of them. -/
def optionsR (resMap : OrdMap Name UInt32) : List Name → Option (OrdMap Name UInt32)
  | [] => some resMap
  | optarg :: args =>
    match optionR resMap optarg with
    | (.next, resMap') => optionsR resMap' args
    | _ => none

/-- What an option stores. -/
structure Stored (resource : Name) (count : UInt32) : Prop where
  name_ne_nil : resource ≠ []
  colon_notMem : colon ∉ resource
  pos : 1 ≤ count.toNat
  le : count.toNat ≤ 2147483647

/-! ### Digits -/

lemma isDigit_ofNat {d : ℕ} (h : d < 10) :
    isDigit (UInt8.ofNat (48 + d)) = true ∧ (UInt8.ofNat (48 + d)).toNat - 48 = d := by
  have hval : (UInt8.ofNat (48 + d)).toNat = 48 + d :=
    UInt8.toNat_ofNat_of_lt' (Nat.lt_trans (Nat.add_lt_add_left h 48) (by decide))
  rw [hval, isDigit, decide_eq_true_eq, UInt8.le_iff_toNat_le, UInt8.le_iff_toNat_le, hval]
  show (48 ≤ 48 + d ∧ 48 + d ≤ 57) ∧ 48 + d - 48 = d
  omega

lemma ofDigits_concat (ds : List UInt8) (d : UInt8) :
    ofDigits (ds ++ [d]) = 10 * ofDigits ds + (d.toNat - 48) := by
  rw [ofDigits, List.foldl_append]
  rfl

/-- The digits of a number are read as the number. -/
lemma decimal_spec (n : ℕ) : (∀ d ∈ decimal n, isDigit d = true) ∧ ofDigits (decimal n) = n := by
  induction n using decimal.induct with
  | case1 n hn =>
    obtain ⟨hdigit, hval⟩ := isDigit_ofNat hn
    rw [decimal, if_pos hn]
    refine ⟨List.forall_mem_singleton.mpr hdigit, ?_⟩
    rw [← List.nil_append [_], ofDigits_concat, hval]
    exact Nat.zero_add n
  | case2 n hn ih =>
    obtain ⟨hdigits, hval⟩ := ih
    obtain ⟨hdigit, hlast⟩ := isDigit_ofNat (Nat.mod_lt n (by omega : 10 > 0))
    rw [decimal, if_neg hn, ofDigits_concat, hval, hlast]
    constructor
    · intro d hd
      rcases List.mem_append.mp hd with hd | hd
      · exact hdigits d hd
      · exact List.mem_singleton.mp hd ▸ hdigit
    · omega

/-! ### What is stored -/

lemma toNat_toUInt32 {i : Int32} (h : ¬ i < 1) :
    1 ≤ i.toUInt32.toNat ∧ i.toUInt32.toNat ≤ 2147483647 := by
  have hpos : ¬ i.toInt < 1 := by rwa [Int32.lt_iff_toInt_lt] at h
  have hnonneg : 0 ≤ i := by
    rw [Int32.le_iff_toInt_le]
    show 0 ≤ i.toInt
    omega
  have hle := i.toInt_lt
  rw [Int32.toNat_toUInt32_of_le hnonneg]
  show 1 ≤ i.toInt.toNat ∧ i.toInt.toNat ≤ 2147483647
  omega

/-- An accepted argument is stored under its name. -/
lemma optionR_next {resMap resMap' : OrdMap Name UInt32} {optarg : Name}
    (h : optionR resMap optarg = (.next, resMap')) :
    ∃ resource count, Stored resource count ∧ resMap' = resMap.insert resource count := by
  by_cases hcolon : colon ∈ optarg
  · rw [optionR_of_mem hcolon] at h
    split_ifs at h with hcount
    · cases h
    · obtain ⟨-, rfl⟩ := Prod.mk.inj h
      -- the count is a second field, so that there is a first one
      have hlen : 1 < (fields colon optarg).length := by
        by_contra hshort
        rw [field, List.getElem?_eq_none (by omega)] at hcount
        exact hcount (by decide)
      have hfield : field optarg 0 ∈ fields colon optarg := by
        rw [field, List.getElem?_eq_getElem (by omega)]
        exact List.getElem_mem _
      obtain ⟨hne, hnot⟩ := mem_fields hfield
      obtain ⟨hpos, hle⟩ := toNat_toUInt32 hcount
      exact ⟨_, _, ⟨hne, hnot, hpos, hle⟩, rfl⟩
  · have hne : optarg ≠ [] := by
      rintro rfl
      cases h
    have hfind : ¬ (find [colon] optarg).isSome := fun hsome => hcolon (isSome_find_iff.mp hsome)
    rw [optionR, if_pos (List.length_pos_iff.mpr hne), if_neg hfind] at h
    obtain ⟨-, rfl⟩ := Prod.mk.inj h
    exact ⟨optarg, RESOURCECOUNT, ⟨hne, hcolon, by decide, by decide⟩, rfl⟩

/-- All entries of a map are as the options store them. -/
def AllStored (resMap : OrdMap Name UInt32) : Prop :=
  ∀ resource count, resMap.find? resource = some count → Stored resource count

lemma AllStored.insert {resMap : OrdMap Name UInt32} (h : AllStored resMap) {resource : Name}
    {count : UInt32} (hstored : Stored resource count) :
    AllStored (resMap.insert resource count) := by
  intro resource' count' hfind
  rw [OrdMap.find?_insert] at hfind
  split_ifs at hfind with heq
  · obtain rfl := Option.some.inj hfind
    exact heq ▸ hstored
  · exact h resource' count' hfind

lemma optionsR_cons {resMap resMap' : OrdMap Name UInt32} {optarg : Name} {args : List Name} :
    optionsR resMap (optarg :: args) = some resMap' ↔
      ∃ resMap₁, optionR resMap optarg = (.next, resMap₁) ∧
        optionsR resMap₁ args = some resMap' := by
  rw [optionsR]
  split
  · next resMap₁ hnext =>
    rw [hnext]
    exact ⟨fun h => ⟨resMap₁, rfl, h⟩, fun ⟨_, hnext', h⟩ => (Prod.mk.inj hnext').2 ▸ h⟩
  · next hnot =>
    exact iff_of_false nofun fun ⟨resMap₁, hnext, _⟩ => hnot resMap₁ hnext

/-- The options keep what is stored well formed, and store something. -/
lemma optionsR_stored {resMap resMap' : OrdMap Name UInt32} {args : List Name}
    (h : optionsR resMap args = some resMap') (hstored : AllStored resMap)
    (hne : args ≠ [] ∨ resMap.entries ≠ []) :
    AllStored resMap' ∧ resMap'.entries ≠ [] := by
  induction args generalizing resMap with
  | nil =>
    obtain rfl := Option.some.inj h
    exact ⟨hstored, hne.resolve_left (not_not_intro rfl)⟩
  | cons optarg args ih =>
    obtain ⟨resMap₁, hnext, hrest⟩ := optionsR_cons.mp h
    obtain ⟨resource, count, hentry, rfl⟩ := optionR_next hnext
    refine ih hrest (hstored.insert hentry) (.inr ?_)
    exact List.ne_nil_of_mem (OrdMap.mem_entries_iff.mpr OrdMap.find?_insert_self)

/-! ### One entry -/

namespace Stored

variable {resource : Name} {count : UInt32}

lemma resOf_eq (h : Stored resource count) :
    resOf resource count = resource ++ colon :: decimal count.toNat := by
  have hle := h.le
  have hint : count.toInt32.toInt = count.toNat :=
    BitVec.toInt_eq_toNat_of_lt (show 2 * count.toNat < 4294967296 by omega)
  rw [resOf, hint, stdToString, if_neg (by omega), Int.natAbs_natCast, List.append_assoc]
  rfl

/-- What is written is in the grammar of the option. -/
lemma grammar (h : Stored resource count) :
    Grammar (resOf resource count) resource count.toNat := by
  obtain ⟨hdigits, hval⟩ := decimal_spec count.toNat
  exact ⟨h.colon_notMem, h.name_ne_nil, ⟨_, h.resOf_eq, hdigits, hval⟩, h.pos, h.le⟩

/-- What is written is read as it was. -/
lemma optionR_resOf (h : Stored resource count) (resMap : OrdMap Name UInt32) :
    optionR resMap (resOf resource count) = (.next, resMap.insert resource count) := by
  rw [(h.grammar.optionR_eq resMap).2, UInt32.ofNat_toNat]

lemma comma_notMem (h : Stored resource count) (hcomma : comma ∉ resource) :
    comma ∉ resOf resource count := by
  rw [h.resOf_eq]
  intro hmem
  rcases List.mem_append.mp hmem with hmem | hmem
  · exact hcomma hmem
  · rcases List.mem_cons.mp hmem with heq | hmem
    · exact absurd heq (by decide)
    · exact absurd ((decimal_spec _).1 comma hmem) (by decide)

end Stored

/-! ### The list -/

/-- The loop over `res_map` writes a comma after each entry. -/
lemma foldl_resOf {es : List ((_ : Name) × UInt32)} (hne : es ≠ []) (str : Name) :
    es.foldl (fun str e => str ++ resOf e.1 e.2 ++ [comma]) str =
      str ++ [comma].intercalate (es.map fun e => resOf e.1 e.2) ++ [comma] := by
  induction es generalizing str with
  | nil => exact absurd rfl hne
  | cons e es ih =>
    rw [List.foldl_cons]
    cases es with
    | nil =>
      rw [List.map_singleton, List.intercalate_singleton]
      rfl
    | cons e' es =>
      rw [ih (List.cons_ne_nil _ _), List.map_cons (l := e' :: es), List.map_cons,
        List.intercalate_cons_cons]
      simp only [List.append_assoc]

/-- Without its last comma, the list has the commas between the entries. -/
lemma strResList_eq {resMap : OrdMap Name UInt32} (hne : resMap.entries ≠ []) :
    strResList resMap = [comma].intercalate (resMap.entries.map fun e => resOf e.1 e.2) := by
  have hpos : 0 < ([comma].intercalate (resMap.entries.map fun e => resOf e.1 e.2) ++
      [comma]).length := by
    rw [List.length_append]
    exact Nat.succ_pos _
  rw [strResList, foldl_resOf hne, List.nil_append]
  show (if _ then _ else _) = _
  rw [if_pos hpos, substr, List.drop_zero, ← List.dropLast_eq_take, List.dropLast_concat]

/-- The parts of the list are the entries. -/
lemma splitOn_strResList {resMap : OrdMap Name UInt32} (hstored : AllStored resMap)
    (hne : resMap.entries ≠ []) (hcomma : ∀ resource ∈ resMap.keys, comma ∉ resource) :
    (strResList resMap).splitOn comma = resMap.entries.map fun e => resOf e.1 e.2 := by
  rw [strResList_eq hne]
  refine List.splitOn_intercalate comma (fun part hpart => ?_) (by simpa using hne)
  obtain ⟨⟨resource, count⟩, hentry, rfl⟩ := List.mem_map.mp hpart
  have hfind := OrdMap.mem_entries_iff.mp hentry
  exact (hstored _ _ hfind).comma_notMem (hcomma _ (OrdMap.mem_keys_iff.mpr ⟨count, hfind⟩))

/-- Entries that are written and read again are inserted. -/
lemma optionsR_map_resOf {es : List ((_ : Name) × UInt32)} (h : ∀ e ∈ es, Stored e.1 e.2)
    (resMap : OrdMap Name UInt32) :
    optionsR resMap (es.map fun e => resOf e.1 e.2) = some (resMap.insertAll es) := by
  induction es generalizing resMap with
  | nil => rfl
  | cons e es ih =>
    rw [List.map_cons, optionsR_cons]
    exact ⟨_, (h e List.mem_cons_self).optionR_resOf resMap,
      ih (fun e he => h e (List.mem_cons_of_mem _ he)) _⟩

/-- **The exported list can be fed back**, in any order. -/
theorem optionsR_resourceList {args : List Name} {resMap : OrdMap Name UInt32} (hne : args ≠ [])
    (h : optionsR .empty args = some resMap)
    (hcomma : ∀ resource ∈ resMap.keys, comma ∉ resource) {parts : List Name}
    (hparts : parts.Perm ((strResList resMap).splitOn comma)) :
    optionsR .empty parts = some resMap := by
  obtain ⟨hstored, hentries⟩ := optionsR_stored h nofun (.inl hne)
  rw [splitOn_strResList hstored hentries hcomma] at hparts
  let write : ((_ : Name) × UInt32) → Name := fun e => resOf e.1 e.2
  obtain ⟨es, rfl, hes⟩ : Relation.Comp (· = List.map write ·) List.Perm parts resMap.entries :=
    List.eq_map_comp_perm write ▸ hparts
  have hread : ∀ e ∈ es, Stored e.1 e.2 := fun e he =>
    hstored e.1 e.2 (OrdMap.mem_entries_iff.mp (hes.mem_iff.mp he))
  rw [optionsR_map_resOf hread, OrdMap.insertAll_of_perm hes]

/-- The options `b:2`, `a` and `b:3`, and the list in the reverse order. -/
theorem optionsR_resourceList_reverse :
    optionsR .empty
        ((strResList ((OrdMap.empty.insert [97] 1).insert [98] 3)).splitOn comma).reverse =
      some ((OrdMap.empty.insert [97] 1).insert [98] 3) := by
  have htwo : Grammar [98, 58, 50] [98] 2 :=
    ⟨by decide, by decide, ⟨[50], rfl, List.forall_mem_singleton.mpr (by decide), rfl⟩,
      by decide, by decide⟩
  have hthree : Grammar [98, 58, 51] [98] 3 :=
    ⟨by decide, by decide, ⟨[51], rfl, List.forall_mem_singleton.mpr (by decide), rfl⟩,
      by decide, by decide⟩
  have hrun : optionsR .empty [[98, 58, 50], [97], [98, 58, 51]] =
      some ((OrdMap.empty.insert [97] 1).insert [98] 3) :=
    optionsR_cons.mpr ⟨_, (htwo.optionR_eq _).2,
      optionsR_cons.mpr ⟨_, rfl, optionsR_cons.mpr ⟨_, (hthree.optionR_eq _).2, rfl⟩⟩⟩
  exact optionsR_resourceList (List.cons_ne_nil _ _) hrun (by decide) (List.reverse_perm _)

end DistLock
