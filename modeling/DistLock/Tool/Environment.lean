/-
The environment of the command (`dist_lock.cc`).

The environment is kept twice: as the map `env_list`, and as the array `env_array` of C strings,
which is built anew after each change.  The strings of the array are allocated here one by one, so
that the loop that deletes them is a loop over addresses: it can leave the array, or delete what is
not there.  Neither happens, because a change adds one name at most (`updateEnvironmentArray_spec`),
and what the command gets is the map, one string for each name (`execEnvironment_spec`).
-/
import DistLock.Tool.Export
import Mathlib.Algebra.Group.Nat.Even

namespace DistLock

open Lib (OrdMap)
open Lib.Search

/-- A C string. -/
structure CString where
  bytes : Name
  nul_notMem : 0 ∉ bytes

/-- The character `=`. -/
abbrev equals : UInt8 := 61

/-- The globals of the environment, and the strings that are allocated for it.  The array has
addresses, and `none` for NULL. -/
structure Env where
  envList : OrdMap Name Name
  envArray : Option (List (Option ℕ))
  heap : ℕ → Option Name
  next : ℕ

namespace Env

/-- The globals at the start. -/
def start : Env := { envList := .empty, envArray := none, heap := fun _ => none, next := 0 }

/-- `delete`, which does nothing to NULL; without a result when nothing lives at the address. -/
def delete (heap : ℕ → Option Name) : Option ℕ → Option (ℕ → Option Name)
  | none => some heap
  | some a => if (heap a).isSome then some (Function.update heap a none) else none

/-- The first `n` strings of the array are deleted; without a result when the loop leaves the
array. -/
def deleteStrings (heap : ℕ → Option Name) (array : List (Option ℕ)) (n : ℕ) :
    Option (ℕ → Option Name) :=
  if n ≤ array.length then (array.take n).foldlM delete heap else none

/-- What `strcpy` leaves of the string of an entry. -/
def entryString (e : (_ : Name) × Name) : Name := DLPacket.cStr (e.1 ++ [equals] ++ e.2)

/-- The loop that allocates the strings, and the NULL behind them. -/
def fill (heap : ℕ → Option Name) (next : ℕ) :
    List ((_ : Name) × Name) → List (Option ℕ) × (ℕ → Option Name) × ℕ
  | [] => ([none], heap, next)
  | e :: es =>
    let r := fill (Function.update heap next (some (entryString e))) (next + 1) es
    (some next :: r.1, r.2)

/-- The old array is deleted.  The bound of the loop is computed as a `size_t`. -/
def deleteArray (E : Env) : Option (ℕ → Option Name) :=
  match E.envArray with
  | some array => deleteStrings E.heap array ((E.envList.entries.length + (2 ^ 64 - 1)) % 2 ^ 64)
  | none => some E.heap

/-- `updateEnvironmentArray`. -/
def updateEnvironmentArray (E : Env) : Option Env := do
  let heap ← deleteArray E
  let r := fill heap E.next E.envList.entries
  some { E with envArray := some r.1, heap := r.2.1, next := r.2.2 }

/-- `registerEnv`. -/
def registerEnv (E : Env) (name val : Name) : Option Env :=
  updateEnvironmentArray { E with envList := E.envList.insert name val }

/-- A string of the environment, cut at its first `=`.  The `int` of the position is large enough
for what a process can be given.  Without a `=`, `find` gives `npos`, and both parts are the whole
string. -/
def splitEnv (e : Name) : (_ : Name) × Name :=
  match find [equals] e with
  | some p => ⟨substr e 0 p, substr e (p + 1) e.length⟩
  | none => ⟨e, e⟩

/-- `inheritEnvironment`. -/
def inheritEnvironment (E : Env) (envp : List CString) : Option Env :=
  updateEnvironmentArray
    { E with envList := E.envList.insertAll (envp.map fun e => splitEnv e.bytes) }

/-- `prefix_env + "_ID"`. -/
def idName (prefixEnv : Name) : Name := prefixEnv ++ [95, 73, 68]

/-- `prefix_env + "_RESOURCES"`. -/
def resourcesName (prefixEnv : Name) : Name := prefixEnv ++ [95, 82, 69, 83, 79, 85, 82, 67, 69, 83]

/-- What `main` does to the environment before it executes the command. -/
def execEnvironment (envp : List CString) (prefixEnv : CString) (id : UInt32)
    (resList : CString) : Option Env := do
  let E ← inheritEnvironment .start envp
  let E ← registerEnv E (idName prefixEnv.bytes) (stdToString id.toNat)
  registerEnv E (resourcesName prefixEnv.bytes) resList.bytes

/-- What is read from an array up to its NULL. -/
def readStrings (heap : ℕ → Option Name) : List (Option ℕ) → Option (List Name)
  | [] => none
  | none :: _ => some []
  | some a :: array => do
    let s ← heap a
    let rest ← readStrings heap array
    some (s :: rest)

/-- The array ends with NULL, and before it there are these strings. -/
def Hands (E : Env) (strings : List Name) : Prop :=
  ∃ array, E.envArray = some array ∧ array.getLast? = some none ∧
    array.length = strings.length + 1 ∧ readStrings E.heap array = some strings

/-! ### The array -/

/-- The addresses of the array are different ones where something lives, and what is beyond `next`
is free. -/
structure Owns (E : Env) (ptrs : List ℕ) : Prop where
  array : E.envArray = some (ptrs.map some ++ [none])
  nodup : ptrs.Nodup
  live : ∀ a ∈ ptrs, (E.heap a).isSome
  fresh : ∀ a, E.next ≤ a → E.heap a = none

/-- Different live addresses are deleted without failure, and nothing is allocated. -/
lemma foldlM_delete {ptrs : List ℕ} (hnd : ptrs.Nodup) {heap : ℕ → Option Name}
    (hlive : ∀ a ∈ ptrs, (heap a).isSome) :
    ∃ heap', (ptrs.map some).foldlM delete heap = some heap' ∧
      ∀ a, heap a = none → heap' a = none := by
  induction ptrs generalizing heap with
  | nil => exact ⟨heap, rfl, fun _ h => h⟩
  | cons p ptrs ih =>
    obtain ⟨hp, hnd⟩ := List.nodup_cons.mp hnd
    have hlive' : ∀ a ∈ ptrs, (Function.update heap p none a).isSome := by
      intro a ha
      rw [Function.update_of_ne (ne_of_mem_of_not_mem ha hp)]
      exact hlive a (List.mem_cons_of_mem _ ha)
    obtain ⟨heap', hfold, hkeep⟩ := ih hnd hlive'
    refine ⟨heap', ?_, fun a ha => hkeep a ?_⟩
    · rw [List.map_cons, List.foldlM_cons, delete, if_pos (hlive p List.mem_cons_self)]
      exact hfold
    · rcases eq_or_ne a p with rfl | hne
      · exact Function.update_self a none heap
      · rw [Function.update_of_ne hne, ha]

/-- What the second loop allocates. -/
lemma fill_spec (es : List ((_ : Name) × Name)) (heap : ℕ → Option Name) (next : ℕ)
    (hfresh : ∀ a, next ≤ a → heap a = none) :
    ∃ heap', fill heap next es =
        ((List.range' next es.length).map some ++ [none], heap', next + es.length) ∧
      (∀ a, a < next → heap' a = heap a) ∧ (∀ a, next + es.length ≤ a → heap' a = none) ∧
      readStrings heap' ((List.range' next es.length).map some ++ [none]) =
        some (es.map entryString) := by
  induction es generalizing heap next with
  | nil => exact ⟨heap, rfl, fun _ _ => rfl, hfresh, rfl⟩
  | cons e es ih =>
    have hfresh' : ∀ a, next + 1 ≤ a →
        Function.update heap next (some (entryString e)) a = none := by
      intro a ha
      rw [Function.update_of_ne (by omega)]
      exact hfresh a (by omega)
    obtain ⟨heap', hfill, hbelow, habove, hread⟩ := ih _ (next + 1) hfresh'
    have hhead : heap' next = some (entryString e) := by
      rw [hbelow next (by omega), Function.update_self]
    rw [List.length_cons, List.range'_succ]
    refine ⟨heap', ?_, fun a ha => ?_, fun a ha => habove a (by omega), ?_⟩
    · rw [fill, hfill]
      simp only [List.map_cons, List.cons_append, Prod.mk.injEq, true_and]
      omega
    · rw [hbelow a (by omega), Function.update_of_ne (by omega)]
    · rw [List.map_cons, List.cons_append, readStrings, hhead, hread]
      rfl

/-- Something lives at the addresses that are read. -/
lemma live_of_readStrings {heap : ℕ → Option Name} {ptrs : List ℕ} {strings : List Name}
    (h : readStrings heap (ptrs.map some ++ [none]) = some strings) :
    ∀ a ∈ ptrs, (heap a).isSome := by
  induction ptrs generalizing strings with
  | nil => exact nofun
  | cons p ptrs ih =>
    rw [List.map_cons, List.cons_append, readStrings] at h
    obtain ⟨s, hs, h⟩ := Option.bind_eq_some_iff.mp h
    obtain ⟨rest, hrest, -⟩ := Option.bind_eq_some_iff.mp h
    intro a ha
    rcases List.mem_cons.mp ha with rfl | ha
    · exact Option.isSome_iff_exists.mpr ⟨s, hs⟩
    · exact ih hrest a ha

variable {E : Env} {ptrs : List ℕ}

/-- The first loop stays in the array, as long as there is at most one entry more than strings. -/
lemma Owns.deleteStrings (h : E.Owns ptrs) {n : ℕ} (hn : n ≤ ptrs.length) :
    ∃ heap', deleteStrings E.heap (ptrs.map some ++ [none]) n = some heap' ∧
      ∀ a, E.heap a = none → heap' a = none := by
  have hlen : n ≤ (ptrs.map some ++ [none]).length := by
    rw [List.length_append, List.length_map]
    omega
  have htake : (ptrs.map some ++ [none]).take n = (ptrs.take n).map some := by
    rw [List.take_append_of_le_length (by rwa [List.length_map]), List.map_take]
  rw [Env.deleteStrings, if_pos hlen, htake]
  exact foldlM_delete (h.nodup.sublist (List.take_sublist n ptrs)) fun a ha =>
    h.live a (List.mem_of_mem_take ha)

/-- Before an update: there is no array yet, or the list is not empty and has at most one entry more
than the array has strings. -/
def Ready (E : Env) : Prop :=
  (E.envArray = none ∧ ∀ a, E.next ≤ a → E.heap a = none) ∨
    ∃ ptrs, E.Owns ptrs ∧ 1 ≤ E.envList.entries.length ∧
      E.envList.entries.length ≤ ptrs.length + 1

/-- After an update: the array has the strings of the list. -/
structure Current (E : Env) : Prop where
  owns : ∃ ptrs, E.Owns ptrs ∧ ptrs.length = E.envList.entries.length
  hands : E.Hands (E.envList.entries.map entryString)

/-- The old array is deleted without failure, and nothing is allocated. -/
lemma Ready.deleteArray (h : E.Ready) :
    ∃ heap', deleteArray E = some heap' ∧ ∀ a, E.next ≤ a → heap' a = none := by
  rw [Env.deleteArray]
  rcases h with ⟨hnone, hfresh⟩ | ⟨ptrs, hown, hpos, hlen⟩
  · rw [hnone]
    exact ⟨E.heap, rfl, hfresh⟩
  · have hbound : (E.envList.entries.length + (2 ^ 64 - 1)) % 2 ^ 64 ≤ ptrs.length := by omega
    obtain ⟨heap', hdelete, hkeep⟩ := hown.deleteStrings hbound
    rw [hown.array]
    exact ⟨heap', hdelete, fun a ha => hkeep a (hown.fresh a ha)⟩

/-- **An update neither deletes a string twice nor leaves the array**, and builds the array of the
list. -/
theorem updateEnvironmentArray_spec (h : E.Ready) :
    ∃ E', updateEnvironmentArray E = some E' ∧ E'.envList = E.envList ∧ E'.Current := by
  obtain ⟨heap, hdelete, hfree⟩ := h.deleteArray
  obtain ⟨heap', hfill, -, habove, hread⟩ := fill_spec E.envList.entries heap E.next hfree
  have hupdate : updateEnvironmentArray E = some { E with
      envArray := some ((List.range' E.next E.envList.entries.length).map some ++ [none])
      heap := heap'
      next := E.next + E.envList.entries.length } := by
    rw [updateEnvironmentArray, hdelete, Option.bind_eq_bind, Option.bind_some, hfill]
  refine ⟨_, hupdate, rfl, ?_, _, rfl, List.getLast?_concat, ?_, hread⟩
  · exact ⟨_, ⟨rfl, List.nodup_range', live_of_readStrings hread, habove⟩, List.length_range'⟩
  · rw [List.length_append, List.length_map, List.length_map, List.length_range']
    rfl

lemma registerEnv_spec (h : E.Current) (name val : Name) :
    ∃ E', registerEnv E name val = some E' ∧ E'.envList = E.envList.insert name val ∧
      E'.Current := by
  obtain ⟨ptrs, hown, hlen⟩ := h.owns
  have hready : Ready { E with envList := E.envList.insert name val } := by
    refine .inr ⟨ptrs, ⟨hown.array, hown.nodup, hown.live, hown.fresh⟩, ?_, ?_⟩
    · exact List.length_pos_of_mem (OrdMap.mem_entries_iff.mpr OrdMap.find?_insert_self)
    · exact hlen ▸ OrdMap.length_insert_le E.envList name val
  exact updateEnvironmentArray_spec hready

/-- What the command gets is the map: what was inherited, with the two new values. -/
lemma execEnvironment_eq (envp : List CString) (prefixEnv : CString) (id : UInt32)
    (resList : CString) :
    ∃ E, execEnvironment envp prefixEnv id resList = some E ∧
      E.envList = ((OrdMap.empty.insertAll (envp.map fun e => splitEnv e.bytes)).insert
        (idName prefixEnv.bytes) (stdToString id.toNat)).insert
        (resourcesName prefixEnv.bytes) resList.bytes ∧
      E.Hands (E.envList.entries.map entryString) := by
  have hready : Ready { start with
      envList := start.envList.insertAll (envp.map fun e => splitEnv e.bytes) } :=
    .inl ⟨rfl, fun _ _ => rfl⟩
  obtain ⟨E₁, hinherit, hlist₁, hcur₁⟩ := updateEnvironmentArray_spec hready
  obtain ⟨E₂, hid, hlist₂, hcur₂⟩ :=
    registerEnv_spec hcur₁ (idName prefixEnv.bytes) (stdToString id.toNat)
  obtain ⟨E₃, hres, hlist₃, hcur₃⟩ :=
    registerEnv_spec hcur₂ (resourcesName prefixEnv.bytes) resList.bytes
  refine ⟨E₃, ?_, ?_, hcur₃.hands⟩
  · rw [execEnvironment, inheritEnvironment, hinherit, Option.bind_eq_bind, Option.bind_some, hid]
    exact hres
  · rw [hlist₃, hlist₂, hlist₁]
    rfl

/-! ### The strings -/

/-- The name of a string of the environment. -/
def envName (e : Name) : Name := (splitEnv e).1

/-- An entry that survives being written and cut again. -/
structure Clean (e : (_ : Name) × Name) : Prop where
  equals_notMem : equals ∉ e.1
  name_nul : 0 ∉ e.1
  val_nul : 0 ∉ e.2

lemma splitEnv_append {name : Name} (h : equals ∉ name) (val : Name) :
    splitEnv (name ++ equals :: val) = ⟨name, val⟩ := by
  have hval : substr (name ++ equals :: val) (name.length + 1) (name ++ equals :: val).length =
      val := by
    rw [substr, ← List.drop_drop, List.drop_left, List.drop_one, List.tail_cons]
    refine List.take_of_length_le ?_
    rw [List.length_append, List.length_cons]
    omega
  rw [splitEnv, find_append_cons h val]
  show (⟨substr _ 0 name.length, _⟩ : (_ : Name) × Name) = _
  rw [hval, substr, List.drop_zero, List.take_left]

/-- A string with a `=` is its name, the `=` and its value. -/
lemma eq_of_splitEnv {e : Name} (h : equals ∈ e) :
    equals ∉ (splitEnv e).1 ∧ e = (splitEnv e).1 ++ equals :: (splitEnv e).2 := by
  obtain ⟨name, val, rfl, hname⟩ := List.eq_append_cons_of_mem h
  rw [splitEnv_append hname]
  exact ⟨hname, rfl⟩

lemma clean_splitEnv {e : CString} (h : equals ∈ e.bytes) : Clean (splitEnv e.bytes) := by
  obtain ⟨hname, heq⟩ := eq_of_splitEnv h
  have hnul := e.nul_notMem
  rw [heq, List.mem_append, List.mem_cons, not_or, not_or] at hnul
  exact ⟨hname, hnul.1, hnul.2.2⟩

namespace Clean

variable {e : (_ : Name) × Name}

lemma entryString_eq (h : Clean e) : entryString e = e.1 ++ equals :: e.2 := by
  have hnul : 0 ∉ e.1 ++ [equals] ++ e.2 := by
    rw [List.mem_append, List.mem_append, List.mem_singleton, not_or, not_or]
    exact ⟨⟨h.name_nul, by decide⟩, h.val_nul⟩
  rw [entryString, DLPacket.cStr_eq_self hnul, List.append_assoc]
  rfl

lemma envName_entryString (h : Clean e) : envName (entryString e) = e.1 := by
  rw [envName, h.entryString_eq, splitEnv_append h.equals_notMem]

end Clean

lemma clean_append {prefixEnv : CString} (hpre : equals ∉ prefixEnv.bytes) {suffix val : Name}
    (hequals : equals ∉ suffix) (hsuffix : 0 ∉ suffix) (hval : 0 ∉ val) :
    Clean ⟨prefixEnv.bytes ++ suffix, val⟩ where
  equals_notMem := List.mem_append.not.mpr (not_or.mpr ⟨hpre, hequals⟩)
  name_nul := List.mem_append.not.mpr (not_or.mpr ⟨prefixEnv.nul_notMem, hsuffix⟩)
  val_nul := hval

/-- An inherited string is written as it was. -/
lemma entryString_splitEnv {e : CString} (h : equals ∈ e.bytes) :
    entryString (splitEnv e.bytes) = e.bytes := by
  rw [(clean_splitEnv h).entryString_eq]
  exact (eq_of_splitEnv h).2.symm

lemma nul_notMem_stdToString (n : ℕ) : 0 ∉ stdToString n := by
  rw [stdToString, if_neg (by omega), Int.natAbs_natCast]
  intro hmem
  exact absurd ((decimal_spec n).1 0 hmem) (by decide)

lemma idName_ne_resourcesName (prefixEnv : Name) : idName prefixEnv ≠ resourcesName prefixEnv :=
  fun h => absurd (List.append_cancel_left h) (by decide)

/-- **The command inherits its environment**, with the two variables of the tool. -/
theorem execEnvironment_spec {envp : List CString} {prefixEnv : CString}
    (henvp : ∀ e ∈ envp, equals ∈ e.bytes) (hnames : (envp.map fun e => envName e.bytes).Nodup)
    (hpre : equals ∉ prefixEnv.bytes) (id : UInt32) (resList : CString) :
    ∃ E strings, execEnvironment envp prefixEnv id resList = some E ∧ E.Hands strings ∧
      (strings.map envName).Nodup ∧
      ∀ s, s ∈ strings ↔
        s = idName prefixEnv.bytes ++ equals :: stdToString id.toNat ∨
        s = resourcesName prefixEnv.bytes ++ equals :: resList.bytes ∨
        (∃ e ∈ envp, e.bytes = s) ∧ envName s ≠ idName prefixEnv.bytes ∧
          envName s ≠ resourcesName prefixEnv.bytes := by
  obtain ⟨E, hexec, hlist, hhands⟩ := execEnvironment_eq envp prefixEnv id resList
  have hnd : (envp.map fun e => splitEnv e.bytes).NodupKeys := by
    show ((envp.map fun e => splitEnv e.bytes).map Sigma.fst).Nodup
    rw [List.map_map]
    exact hnames
  -- the list has been read first, and the two entries inserted afterwards, the id before the list
  have hmem : ∀ e, e ∈ E.envList.entries ↔
      e = ⟨resourcesName prefixEnv.bytes, resList.bytes⟩ ∨
      (e = ⟨idName prefixEnv.bytes, stdToString id.toNat⟩ ∨
        e ∈ envp.map (fun e => splitEnv e.bytes) ∧ e.1 ≠ idName prefixEnv.bytes) ∧
        e.1 ≠ resourcesName prefixEnv.bytes := by
    intro e
    rw [hlist, OrdMap.mem_entries_insert, OrdMap.mem_entries_insert,
      OrdMap.mem_entries_insertAll hnd]
  -- no name contains `=` and nothing contains NUL, so that the strings can be taken apart again
  have hid : Clean ⟨idName prefixEnv.bytes, stdToString id.toNat⟩ :=
    clean_append hpre (by decide) (by decide) (nul_notMem_stdToString id.toNat)
  have hres : Clean ⟨resourcesName prefixEnv.bytes, resList.bytes⟩ :=
    clean_append hpre (by decide) (by decide) resList.nul_notMem
  have hclean : ∀ e ∈ E.envList.entries, Clean e := by
    intro e he
    rcases (hmem e).mp he with rfl | ⟨rfl | ⟨he, -⟩, -⟩
    · exact hres
    · exact hid
    · obtain ⟨e, henv, rfl⟩ := List.mem_map.mp he
      exact clean_splitEnv (henvp e henv)
  refine ⟨E, _, hexec, hhands, ?_, fun s => ?_⟩
  · have hkeys : (E.envList.entries.map entryString).map envName = E.envList.keys := by
      rw [List.map_map]
      exact List.map_congr_left fun e he => (hclean e he).envName_entryString
    rw [hkeys]
    exact OrdMap.keys_nodup
  rw [List.mem_map]
  constructor
  · rintro ⟨e, he, rfl⟩
    rcases (hmem e).mp he with rfl | ⟨rfl | ⟨hinherited, hnotId⟩, hnotRes⟩
    · exact .inr (.inl hres.entryString_eq)
    · exact .inl hid.entryString_eq
    · rw [(hclean e he).envName_entryString]
      obtain ⟨e, he', rfl⟩ := List.mem_map.mp hinherited
      exact .inr (.inr ⟨⟨e, he', (entryString_splitEnv (henvp e he')).symm⟩, hnotId, hnotRes⟩)
  · rintro (rfl | rfl | ⟨⟨e, he, rfl⟩, hnotId, hnotRes⟩)
    · exact ⟨_, (hmem _).mpr (.inr ⟨.inl rfl, idName_ne_resourcesName _⟩), hid.entryString_eq⟩
    · exact ⟨_, (hmem _).mpr (.inl rfl), hres.entryString_eq⟩
    · refine ⟨splitEnv e.bytes, (hmem _).mpr (.inr ⟨.inr ⟨?_, hnotId⟩, hnotRes⟩), ?_⟩
      · exact List.mem_map_of_mem he
      · exact entryString_splitEnv (henvp e he)

/-- The command inherits `A=1=2`, and `P_ID` with the new value. -/
theorem execEnvironment_nested :
    ∃ E strings, execEnvironment [⟨[65, 61, 49, 61, 50], by decide⟩,
        ⟨[80, 95, 73, 68, 61, 55], by decide⟩] ⟨[80], by decide⟩ 5 ⟨[97, 58, 49], by decide⟩ =
        some E ∧ E.Hands strings ∧ [65, 61, 49, 61, 50] ∈ strings ∧
      [80, 95, 73, 68, 61, 53] ∈ strings ∧ [80, 95, 73, 68, 61, 55] ∉ strings := by
  obtain ⟨E, strings, hexec, hhands, -, hmem⟩ :=
    @execEnvironment_spec [⟨[65, 61, 49, 61, 50], by decide⟩, ⟨[80, 95, 73, 68, 61, 55], by decide⟩]
      ⟨[80], by decide⟩ (by simp) (by decide) (by decide) 5 ⟨[97, 58, 49], by decide⟩
  have hfive : stdToString (5 : UInt32).toNat = [53] := by
    show decimal 5 = [53]
    rw [decimal, if_pos (by decide)]
    rfl
  rw [hfive] at hmem
  refine ⟨E, strings, hexec, hhands, ?_, ?_, ?_⟩
  · exact (hmem _).mpr (.inr (.inr ⟨⟨_, List.mem_cons_self, rfl⟩, by decide, by decide⟩))
  · exact (hmem _).mpr (.inl rfl)
  · intro h
    rcases (hmem _).mp h with h | h | ⟨-, h, -⟩
    · exact absurd h (by decide)
    · exact absurd h (by decide)
    · exact h rfl

end Env

end DistLock
