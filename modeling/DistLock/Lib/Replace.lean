/-
Occurrences of a pattern without overlap.

Scanning a list from left to right for a pattern, and going on behind each occurrence, cuts the list
into the parts between the occurrences (`Scan`).  There is one such way (`Scan.unique`,
`exists_scan`), and the pattern between the parts gives the list back (`Scan.intercalate`).
-/
import DistLock.Lib.Search

namespace Lib.Search

variable {α : Type}

/-- The `n` elements from `pos` on are replaced. -/
def replace (s : List α) (pos n : ℕ) (t : List α) : List α := s.take pos ++ t ++ s.drop (pos + n)

/-- The parts of a list between the occurrences of `pat`, as a scan from left to right finds
them. -/
inductive Scan (pat : List α) : List α → List (List α) → Prop
  | last {s : List α} (hnone : ¬ pat <:+: s) : Scan pat s [s]
  | cut {p s : List α} {parts : List (List α)}
      (hfirst : ∀ j < p.length, ¬ pat <+: (p ++ (pat ++ s)).drop j) (hrest : Scan pat s parts) :
      Scan pat (p ++ (pat ++ s)) (p :: parts)

variable {pat s : List α} {k : ℕ}

lemma length_replace {pos n : ℕ} {t : List α} (h : pos + n ≤ s.length) :
    (replace s pos n t).length + n = s.length + t.length := by
  rw [replace, List.length_append, List.length_append, List.length_take, List.length_drop]
  omega

@[simp] lemma replace_append (front p t : List α) :
    replace (front ++ (p ++ (pat ++ s))) (front.length + p.length) pat.length t =
      front ++ p ++ t ++ s := by
  have hlen : front.length + p.length = (front ++ p).length := List.length_append.symm
  rw [replace, ← List.append_assoc front p, hlen, List.take_left, ← List.drop_drop, List.drop_left,
    List.drop_left]

/-! ### The first occurrence -/

/-- Before the first occurrence of one element it does not occur. -/
lemma notMem_of_first {c : α} {p : List α}
    (hfirst : ∀ j < p.length, ¬ [c] <+: (p ++ ([c] ++ s)).drop j) : c ∉ p := by
  intro hmem
  obtain ⟨j, hj, rfl⟩ := List.getElem_of_mem hmem
  refine hfirst j hj ?_
  rw [List.drop_append_of_le_length hj.le, List.drop_eq_getElem_cons hj]
  exact List.prefix_append [_] _

section find

variable [DecidableEq α]

lemma find_eq_none_iff : find pat s = none ↔ ¬ pat <:+: s := by
  induction s with
  | nil => simp [find, List.infix_nil]
  | cons b bs ih =>
    rw [find, List.infix_cons_iff, not_or, ← ih]
    split_ifs with hpre
    · simp [hpre]
    · simp [hpre]

/-- There is nothing before what is found first. -/
lemma not_prefix_of_lt_find {j : ℕ} (h : find pat s = some k) (hj : j < k) :
    ¬ pat <+: s.drop j := by
  induction s generalizing j k with
  | nil =>
    rw [find] at h
    split_ifs at h
    obtain rfl := Option.some.inj h
    omega
  | cons b bs ih =>
    rw [find] at h
    split_ifs at h with hpre
    · obtain rfl := Option.some.inj h
      omega
    · obtain ⟨i, hi, rfl⟩ := Option.map_eq_some_iff.mp h
      cases j with
      | zero => exact hpre
      | succ j => exact ih hi (by omega)

/-- The first occurrence is the one that nothing comes before. -/
lemma find_append {p : List α} (hfirst : ∀ j < p.length, ¬ pat <+: (p ++ (pat ++ s)).drop j) :
    find pat (p ++ (pat ++ s)) = some p.length := by
  cases hfind : find pat (p ++ (pat ++ s)) with
  | none => exact absurd (List.infix_append' p pat s) (find_eq_none_iff.mp hfind)
  | some i =>
    have hle : p.length ≤ i := by
      by_contra hlt
      exact hfirst i (by omega) (prefix_of_find hfind)
    have hge : i ≤ p.length := by
      by_contra hlt
      refine not_prefix_of_lt_find hfind (show p.length < i by omega) ?_
      rw [List.drop_left]
      exact List.prefix_append pat s
    rw [le_antisymm hge hle]

end find

/-! ### The scan -/

namespace Scan

variable {parts parts' : List (List α)}

lemma ne_nil (h : Scan pat s parts) : parts ≠ [] := by
  cases h with
  | last => exact List.cons_ne_nil _ _
  | cut => exact List.cons_ne_nil _ _

/-- The parts with `t` between them, one part at a time. -/
lemma intercalate_cons (h : Scan pat s parts) (t p : List α) :
    t.intercalate (p :: parts) = p ++ t ++ t.intercalate parts := by
  obtain ⟨q, rest, rfl⟩ := List.exists_cons_of_ne_nil h.ne_nil
  exact List.intercalate_cons_cons

/-- The pattern between the parts gives the list back. -/
theorem intercalate (h : Scan pat s parts) : pat.intercalate parts = s := by
  induction h with
  | last => exact List.intercalate_singleton
  | cut hfirst hrest ih => rw [hrest.intercalate_cons, ih, List.append_assoc]

/-- A list can be scanned in one way only. -/
theorem unique (h : Scan pat s parts) (h' : Scan pat s parts') : parts = parts' := by
  classical
  induction h generalizing parts' with
  | last hnone =>
    cases h' with
    | last => rfl
    | cut => exact absurd (List.infix_append' _ _ _) hnone
  | @cut p s parts hfirst hrest ih =>
    generalize hs : p ++ (pat ++ s) = whole at h'
    cases h' with
    | last hnone => exact absurd (hs ▸ List.infix_append' p pat s) hnone
    | @cut p' s' parts' hfirst' hrest' =>
      have hlen : p.length = p'.length := by
        have hfind := find_append hfirst
        rw [hs, find_append hfirst'] at hfind
        exact (Option.some.inj hfind).symm
      obtain ⟨rfl, htail⟩ := List.append_inj hs hlen
      obtain rfl := List.append_cancel_left htail
      rw [ih hrest']

end Scan

/-- Every list can be scanned for a pattern that is not empty. -/
theorem exists_scan (hpat : pat ≠ []) (s : List α) : ∃ parts, Scan pat s parts := by
  classical
  induction hn : s.length using Nat.strong_induction_on generalizing s with
  | _ n ih =>
    cases hfind : find pat s with
    | none => exact ⟨[s], .last (find_eq_none_iff.mp hfind)⟩
    | some k =>
      obtain ⟨r, hr⟩ := prefix_of_find hfind
      have hs : s = s.take k ++ (pat ++ r) := by rw [hr, List.take_append_drop]
      have hlen := congrArg List.length hs
      have hpos := List.length_pos_iff.mpr hpat
      rw [List.length_append, List.length_append] at hlen
      obtain ⟨parts, hparts⟩ := ih r.length (by omega) r rfl
      have hfirst : ∀ j < (s.take k).length, ¬ pat <+: (s.take k ++ (pat ++ r)).drop j := by
        intro j hj
        rw [← hs]
        rw [List.length_take] at hj
        exact not_prefix_of_lt_find hfind (by omega)
      rw [hs]
      exact ⟨_, .cut hfirst hparts⟩

end Lib.Search
