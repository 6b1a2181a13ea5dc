/-
`stringReplace` of the command line (`dist_lock.cc`).

The loop searches the string it edits, from an index on that it moves behind the text it has just
inserted.  It ends because the part behind the index becomes shorter, and it never reads that text
again: the result is the parts of the original string between the occurrences of `from`, as a scan
from left to right finds them, with `to` between them (`stringReplace_spec`).
-/
import DistLock.Lib.Replace
import DistLock.Wire.DLPacket

namespace DistLock

open Lib.Search

/-- The loop of `stringReplace` from the index `pos` on. -/
def replaceFrom (from' to' : Name) (hfrom : from' ≠ []) (s : Name) (pos : ℕ) : Name :=
  match _h : findFrom from' s pos with
  | some k => replaceFrom from' to' hfrom (replace s k from'.length to') (k + to'.length)
  | none => s
termination_by s.length - pos
decreasing_by
  have hlen := length_le_of_findFrom hfrom _h
  have hle := (findFrom_some _h).1
  have hpos := List.length_pos_iff.mpr hfrom
  have hreplace := length_replace (t := to') hlen
  omega

/-- `stringReplace`. -/
def stringReplace (s from' to' : Name) : Name :=
  if h : from' ≠ [] then replaceFrom from' to' h s 0 else s

/-- The case `'e'` of `main`: the prefix of the names that are exported. -/
def optionE (optarg : Name) : Name := stringReplace optarg [32] [95]

variable {s from' : Name} {parts : List Name}

/-- What is left to scan behind `front` is cut, and the parts are joined with `to`. -/
lemma replaceFrom_append (hfrom : from' ≠ []) (to' : Name) (hscan : Scan from' s parts)
    (front : Name) :
    replaceFrom from' to' hfrom (front ++ s) front.length = front ++ to'.intercalate parts := by
  induction hscan generalizing front with
  | @last s hnone =>
    have hfind : findFrom from' (front ++ s) front.length = none := by
      rw [findFrom, if_pos (by simp), List.drop_left, find_eq_none_iff.mpr hnone]
      rfl
    rw [replaceFrom]
    split
    · next k hk =>
      rw [hfind] at hk
      cases hk
    · rw [List.intercalate_singleton]
  | @cut p s parts hfirst hrest ih =>
    have hfind : findFrom from' (front ++ (p ++ (from' ++ s))) front.length =
        some (front.length + p.length) := by
      rw [findFrom, if_pos (by simp), List.drop_left, find_append hfirst]
      rfl
    rw [replaceFrom]
    split
    · next k hk =>
      obtain rfl := Option.some.inj (hk.symm.trans hfind)
      -- the index is behind the inserted text
      have hpos : front.length + p.length + to'.length = (front ++ p ++ to').length := by
        rw [List.length_append, List.length_append]
      rw [replace_append, hpos, ih, hrest.intercalate_cons, List.append_assoc, List.append_assoc,
        List.append_assoc]
    · next hk =>
      rw [hfind] at hk
      cases hk

lemma stringReplace_of_scan (hfrom : from' ≠ []) (hscan : Scan from' s parts) (to' : Name) :
    stringReplace s from' to' = to'.intercalate parts := by
  rw [stringReplace, dif_pos hfrom]
  exact replaceFrom_append hfrom to' hscan []

/-- **`stringReplace` replaces once and ends.** -/
theorem stringReplace_spec (s from' : Name) :
    (from' = [] → ∀ to', stringReplace s from' to' = s) ∧
      (from' ≠ [] → ∃ parts, Scan from' s parts ∧ from'.intercalate parts = s ∧
        ∀ to', stringReplace s from' to' = to'.intercalate parts) := by
  constructor
  · intro hfrom to'
    rw [stringReplace, dif_neg (not_not_intro hfrom)]
  · intro hfrom
    obtain ⟨parts, hscan⟩ := exists_scan hfrom s
    exact ⟨parts, hscan, hscan.intercalate, stringReplace_of_scan hfrom hscan⟩

/-- In `aaa` the pattern `aa` is found once, and a replacement that contains it is left alone. -/
theorem stringReplace_aaa :
    stringReplace [97, 97, 97] [97, 97] [97, 97, 97] = [97, 97, 97, 97] := by
  obtain ⟨parts, hscan, -, hto⟩ := (stringReplace_spec [97, 97, 97] [97, 97]).2 (by decide)
  have hparts : Scan ([97, 97] : Name) [97, 97, 97] [[], [97]] :=
    .cut (p := []) (s := [97]) nofun (.last (by decide))
  rw [hto, hscan.unique hparts]
  rfl

/-! ### One character -/

/-- A character is replaced wherever it occurs. -/
lemma intercalate_of_scan {c d : UInt8} (hscan : Scan [c] s parts) :
    List.intercalate [d] parts = s.map fun b => if b = c then d else b := by
  have hkeep : ∀ p : Name, c ∉ p → (p.map fun b => if b = c then d else b) = p := by
    intro p hp
    calc (p.map fun b => if b = c then d else b) = p.map id :=
          List.map_congr_left fun b hb => if_neg (ne_of_mem_of_not_mem hb hp)
      _ = p := List.map_id p
  induction hscan with
  | @last s hnone =>
    have hmem : c ∉ s := fun h => hnone ((List.singleton_infix_iff c s).mpr h)
    rw [List.intercalate_singleton, hkeep s hmem]
  | @cut p s parts hfirst hrest ih =>
    rw [hrest.intercalate_cons, ih, List.map_append, hkeep p (notMem_of_first hfirst)]
    simp

/-- The prefix has no spaces, and is as long as the argument. -/
theorem optionE_spec (optarg : Name) :
    32 ∉ optionE optarg ∧ (optionE optarg).length = optarg.length := by
  obtain ⟨parts, hscan⟩ := exists_scan (List.cons_ne_nil 32 []) optarg
  have heq : optionE optarg = optarg.map fun b => if b = 32 then 95 else b := by
    rw [optionE, stringReplace_of_scan (List.cons_ne_nil _ _) hscan, intercalate_of_scan hscan]
  rw [heq, List.length_map]
  refine ⟨fun hmem => ?_, rfl⟩
  obtain ⟨b, -, hb⟩ := List.mem_map.mp hmem
  split_ifs at hb with h
  · exact absurd hb (by decide)
  · exact h hb

end DistLock
