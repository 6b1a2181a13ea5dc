/-
Ordered maps: a finite map is kept as the list of its entries in strictly increasing key
order, so that two maps with the same lookups are equal and iterating over a map visits the
keys in order.

The entries are dependent pairs, which gives access to the lookup theory of
`Mathlib.Data.List.Sigma`.
-/
import Mathlib.Data.List.Lex
import Mathlib.Data.List.Sigma
import Mathlib.Data.Set.Card
import Mathlib.Order.Lattice

namespace Lib

/-- A finite map with ordered keys. -/
structure OrdMap (K V : Type*) [LinearOrder K] where
  entries : List ((_ : K) × V)
  sorted : entries.Pairwise fun a b => a.1 < b.1

namespace OrdMap

variable {K V : Type*} [LinearOrder K]

instance [DecidableEq V] : DecidableEq (OrdMap K V) := fun m m' =>
  decidable_of_iff (m.entries = m'.entries)
    ⟨fun h => by cases m; cases m'; cases h; rfl, fun h => h ▸ rfl⟩

/-- The empty map. -/
def empty : OrdMap K V := ⟨[], .nil⟩

instance : Inhabited (OrdMap K V) := ⟨empty⟩

/-- The value stored at a key. -/
def find? (m : OrdMap K V) (k : K) : Option V := m.entries.dlookup k

/-- The keys, in increasing order. -/
def keys (m : OrdMap K V) : List K := m.entries.keys

/-- Insertion into a sorted list of entries; the value of an existing key is overwritten. -/
def insertEntry (k : K) (v : V) : List ((_ : K) × V) → List ((_ : K) × V)
  | [] => [⟨k, v⟩]
  | e :: es =>
    if k < e.1 then ⟨k, v⟩ :: e :: es
    else if k = e.1 then ⟨k, v⟩ :: es
    else e :: insertEntry k v es

lemma mem_insertEntry {k : K} {v : V} {a : (_ : K) × V} {es : List ((_ : K) × V)}
    (h : a ∈ insertEntry k v es) : a = ⟨k, v⟩ ∨ a ∈ es := by
  induction es with
  | nil => simpa [insertEntry] using h
  | cons e es ih =>
    rw [insertEntry] at h
    split_ifs at h <;> simp only [List.mem_cons] at h ⊢ <;> tauto

lemma insertEntry_sorted (k : K) (v : V) {es : List ((_ : K) × V)}
    (h : es.Pairwise fun a b => a.1 < b.1) :
    (insertEntry k v es).Pairwise fun a b => a.1 < b.1 := by
  induction es with
  | nil => simp [insertEntry]
  | cons e es ih =>
    obtain ⟨he, hes⟩ := List.pairwise_cons.mp h
    rw [insertEntry]
    split_ifs with h₁ h₂
    · refine List.pairwise_cons.mpr ⟨fun a ha => ?_, h⟩
      rcases List.mem_cons.mp ha with rfl | ha
      · exact h₁
      · exact h₁.trans (he a ha)
    · subst h₂
      exact List.pairwise_cons.mpr ⟨he, hes⟩
    · refine List.pairwise_cons.mpr ⟨fun a ha => ?_, ih hes⟩
      rcases mem_insertEntry ha with rfl | ha
      · exact lt_of_le_of_ne (not_lt.mp h₁) (Ne.symm h₂)
      · exact he a ha

/-- Stores a value at a key, replacing the one that was there. -/
def insert (m : OrdMap K V) (k : K) (v : V) : OrdMap K V :=
  ⟨insertEntry k v m.entries, insertEntry_sorted k v m.sorted⟩

variable {m m' : OrdMap K V} {k k' : K} {v : V}

@[simp] lemma find?_empty : (empty : OrdMap K V).find? k = none := rfl

@[simp] lemma find?_insert_self : (m.insert k v).find? k = some v := by
  obtain ⟨es, hes⟩ := m
  show (insertEntry k v es).dlookup k = some v
  clear hes
  induction es with
  | nil => simp [insertEntry]
  | cons e es ih =>
    rw [insertEntry]
    split_ifs with h₁ h₂
    · simp
    · simp
    · rw [List.dlookup_cons_ne _ _ h₂, ih]

lemma find?_insert_of_ne (h : k' ≠ k) : (m.insert k v).find? k' = m.find? k' := by
  obtain ⟨es, hes⟩ := m
  show (insertEntry k v es).dlookup k' = es.dlookup k'
  clear hes
  induction es with
  | nil => rw [insertEntry, List.dlookup_cons_ne _ _ h]
  | cons e es ih =>
    obtain ⟨k₀, v₀⟩ := e
    rw [insertEntry]
    split_ifs with h₁ h₂
    · exact List.dlookup_cons_ne _ _ h
    · subst h₂
      rw [List.dlookup_cons_ne _ _ h, List.dlookup_cons_ne _ _ h]
    · by_cases hk : k' = k₀
      · subst hk
        simp
      · rw [List.dlookup_cons_ne _ _ hk, List.dlookup_cons_ne _ _ hk, ih]

lemma find?_insert : (m.insert k v).find? k' = if k' = k then some v else m.find? k' := by
  split_ifs with h
  · subst h
    exact find?_insert_self
  · exact find?_insert_of_ne h

@[simp] lemma length_keys : m.keys.length = m.entries.length := List.length_map _

lemma keys_nodup : m.keys.Nodup :=
  List.nodupKeys_iff_pairwise.mpr (m.sorted.imp ne_of_lt)

lemma mem_keys_iff : k ∈ m.keys ↔ ∃ v, m.find? k = some v := by
  rw [keys, find?, ← List.dlookup_isSome, Option.isSome_iff_exists]

lemma mem_entries_iff : (⟨k, v⟩ : (_ : K) × V) ∈ m.entries ↔ m.find? k = some v :=
  List.mem_dlookup_iff m.keys_nodup |>.symm

lemma mem_entries_insert {e : (_ : K) × V} :
    e ∈ (m.insert k v).entries ↔ e = ⟨k, v⟩ ∨ e ∈ m.entries ∧ e.1 ≠ k := by
  obtain ⟨k', v'⟩ := e
  rw [mem_entries_iff, find?_insert, mem_entries_iff]
  rcases eq_or_ne k' k with rfl | hne
  · simp [eq_comm]
  · simp [hne]

/-- Counting the entries by their values counts keys. -/
lemma countP_entries (m : OrdMap K V) (p : V → Bool) :
    m.entries.countP (fun e => p e.2) = {k | ∃ v, m.find? k = some v ∧ p v = true}.ncard := by
  have hnd : ((m.entries.filter fun e => p e.2).map Sigma.fst).Nodup :=
    m.keys_nodup.sublist (List.filter_sublist.map Sigma.fst)
  have hset : {k | ∃ v, m.find? k = some v ∧ p v = true} =
      ((m.entries.filter fun e => p e.2).map Sigma.fst).toFinset := by
    ext k
    simp only [Set.mem_ofPred_eq, List.coe_toFinset, List.mem_map, List.mem_filter]
    constructor
    · rintro ⟨v, hv, hp⟩
      exact ⟨⟨k, v⟩, ⟨mem_entries_iff.mpr hv, hp⟩, rfl⟩
    · rintro ⟨⟨k', v⟩, ⟨he, hp⟩, rfl⟩
      exact ⟨v, mem_entries_iff.mp he, hp⟩
  rw [hset, Set.ncard_coe_finset, List.toFinset_card_of_nodup hnd, List.length_map,
    List.countP_eq_length_filter]

/-- A value that is not counted does not add to the count. -/
lemma countP_insert_le {p : V → Bool} (hv : p v = false) :
    (m.insert k v).entries.countP (fun e => p e.2) ≤ m.entries.countP fun e => p e.2 := by
  obtain ⟨es, hes⟩ := m
  show (insertEntry k v es).countP _ ≤ es.countP _
  clear hes
  induction es with
  | nil => simp [insertEntry, hv]
  | cons e es ih =>
    rw [insertEntry]
    split_ifs
    · simp [List.countP_cons, hv]
    · simp [List.countP_cons, hv]
    · rw [List.countP_cons, List.countP_cons]
      omega

/-- Overwriting an existing entry keeps the keys and their order. -/
lemma keys_insert_of_mem (h : k ∈ m.keys) : (m.insert k v).keys = m.keys := by
  obtain ⟨es, hes⟩ := m
  show (insertEntry k v es).keys = es.keys
  change k ∈ es.keys at h
  induction es with
  | nil => exact absurd h (by simp)
  | cons e es ih =>
    obtain ⟨he, hes⟩ := List.pairwise_cons.mp hes
    rw [insertEntry]
    split_ifs with h₁ h₂
    · -- the key is smaller than all keys of the list, so it does not occur
      exfalso
      rcases List.mem_cons.mp (by simpa using h) with h | h
      · exact absurd h₁ (h ▸ lt_irrefl _)
      · obtain ⟨v, hv⟩ := List.exists_of_mem_keys h
        exact absurd (h₁.trans (he _ hv)) (lt_irrefl _)
    · simp [h₂]
    · rw [List.keys_cons, List.mem_cons] at h
      simp [ih hes (h.resolve_left h₂)]

/-- A map is determined by its lookups. -/
theorem ext_find? (h : ∀ k, m.find? k = m'.find? k) : m = m' := by
  have hperm : m.entries.Perm m'.entries :=
    List.lookup_ext m.keys_nodup m'.keys_nodup fun k v => by
      rw [← find?, ← find?, h k]
  have heq : m.entries = m'.entries :=
    hperm.eq_of_pairwise (fun a b _ _ hab hba => absurd (hab.trans hba) (lt_irrefl _))
      m.sorted m'.sorted
  cases m; cases m'; cases heq; rfl

/-- An insertion adds one entry at most. -/
lemma length_insert_le (m : OrdMap K V) (k : K) (v : V) :
    (m.insert k v).entries.length ≤ m.entries.length + 1 := by
  obtain ⟨es, hes⟩ := m
  show (insertEntry k v es).length ≤ es.length + 1
  clear hes
  induction es with
  | nil => exact le_refl 1
  | cons e es ih =>
    rw [insertEntry]
    split_ifs with h₁ h₂
    · exact le_refl _
    · exact Nat.le_succ _
    · exact Nat.succ_le_succ ih

/-! ### Many insertions -/

/-- Entries are inserted one after the other. -/
def insertAll (m : OrdMap K V) (es : List ((_ : K) × V)) : OrdMap K V :=
  es.foldl (fun m e => m.insert e.1 e.2) m

/-- A key of the list has its value, whatever was there before. -/
lemma find?_insertAll {es : List ((_ : K) × V)} (h : es.NodupKeys) (m : OrdMap K V) (k : K) :
    (m.insertAll es).find? k = (es.dlookup k).or (m.find? k) := by
  induction es generalizing m with
  | nil => rfl
  | cons e es ih =>
    obtain ⟨k₀, v₀⟩ := e
    obtain ⟨hnot, hes⟩ := List.nodupKeys_cons.mp h
    show ((m.insert k₀ v₀).insertAll es).find? k = _
    rw [ih hes, find?_insert]
    split_ifs with hk
    · subst hk
      rw [List.dlookup_eq_none.mpr hnot, List.dlookup_cons_eq]
      rfl
    · rw [List.dlookup_cons_ne _ _ hk]

lemma find?_empty_insertAll {es : List ((_ : K) × V)} (h : es.NodupKeys) (k : K) :
    (empty.insertAll es).find? k = es.dlookup k := by
  rw [find?_insertAll h, find?_empty, Option.or_none]

lemma mem_entries_insertAll {es : List ((_ : K) × V)} (h : es.NodupKeys) {e : (_ : K) × V} :
    e ∈ (empty.insertAll es).entries ↔ e ∈ es := by
  obtain ⟨k, v⟩ := e
  rw [mem_entries_iff, find?_empty_insertAll h]
  exact List.mem_dlookup_iff h

/-- The entries of a map in any order rebuild it. -/
theorem insertAll_of_perm {es : List ((_ : K) × V)} (h : es.Perm m.entries) :
    empty.insertAll es = m := by
  have hnd : es.NodupKeys := (List.perm_nodupKeys h).mpr m.keys_nodup
  exact ext_find? fun k => (find?_empty_insertAll hnd k).trans (List.perm_dlookup k hnd h)

/-! ### Maps over maps -/

/-- The entries whose keys satisfy `p`. -/
def filterKeys (p : K → Bool) (m : OrdMap K V) : OrdMap K V :=
  ⟨m.entries.filter fun e => p e.1, m.sorted.filter _⟩

section filterKeys

variable {p : K → Bool}

lemma find?_filterKeys : (m.filterKeys p).find? k = if p k then m.find? k else none := by
  refine Option.ext fun v => ?_
  rw [← mem_entries_iff, filterKeys, List.mem_filter, mem_entries_iff]
  by_cases hp : p k <;> simp [hp]

/-- A map without one of its keys. -/
lemma find?_filterKeys_ne [∀ a, Decidable (a ≠ k)] :
    (m.filterKeys (· ≠ k)).find? k' = if k' = k then none else m.find? k' := by
  rw [find?_filterKeys]
  by_cases h : k' = k <;> simp [h]

lemma filterKeys_insert (h : p k = true) :
    (m.insert k v).filterKeys p = (m.filterKeys p).insert k v := by
  refine ext_find? fun k' => ?_
  rw [find?_filterKeys, find?_insert, find?_insert, find?_filterKeys]
  rcases eq_or_ne k' k with rfl | hk
  · simp [h]
  · simp [hk]

lemma filterKeys_insert_of_not (h : p k = false) :
    (m.insert k v).filterKeys p = m.filterKeys p := by
  refine ext_find? fun k' => ?_
  rw [find?_filterKeys, find?_insert, find?_filterKeys]
  rcases eq_or_ne k' k with rfl | hk
  · simp [h]
  · simp [hk]

end filterKeys

/-- The map with `f` applied to its values. -/
def mapValues {W : Type*} (f : V → W) (m : OrdMap K V) : OrdMap K W :=
  ⟨m.entries.map fun e => ⟨e.1, f e.2⟩, List.pairwise_map.mpr m.sorted⟩

section mapValues

variable {W : Type*} {f : V → W}

lemma find?_mapValues : (m.mapValues f).find? k = (m.find? k).map f := by
  refine Option.ext fun w => ?_
  rw [← mem_entries_iff, mapValues, List.mem_map, Option.map_eq_some_iff]
  constructor
  · rintro ⟨⟨k', v⟩, he, heq⟩
    cases heq
    exact ⟨v, mem_entries_iff.mp he, rfl⟩
  · rintro ⟨v, hv, rfl⟩
    exact ⟨⟨k, v⟩, mem_entries_iff.mpr hv, rfl⟩

@[simp] lemma keys_mapValues : (m.mapValues f).keys = m.keys := by
  rw [keys, mapValues, List.keys, List.map_map]
  rfl

end mapValues

end OrdMap

/-! ### The orders of the fixed-width integers that occur as keys -/

instance linearOrderUInt8 : LinearOrder UInt8 where
  le_refl := UInt8.le_refl
  le_trans _ _ _ := UInt8.le_trans
  lt_iff_le_not_ge a b := by
    rw [UInt8.lt_iff_toNat_lt, UInt8.le_iff_toNat_le, UInt8.le_iff_toNat_le]
    omega
  le_antisymm _ _ := UInt8.le_antisymm
  le_total := UInt8.le_total
  toDecidableLE := inferInstance
  toDecidableEq := inferInstance

instance linearOrderUInt32 : LinearOrder UInt32 where
  le_refl := UInt32.le_refl
  le_trans _ _ _ := UInt32.le_trans
  lt_iff_le_not_ge a b := by
    rw [UInt32.lt_iff_toNat_lt, UInt32.le_iff_toNat_le, UInt32.le_iff_toNat_le]
    omega
  le_antisymm _ _ := UInt32.le_antisymm
  le_total := UInt32.le_total
  toDecidableLE := inferInstance
  toDecidableEq := inferInstance

end Lib
