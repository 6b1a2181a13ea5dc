/-
Searching in lists, and splitting them at a separator.

`find`, `findFrom` and `rfind` give the position of a pattern, as the functions of that name do for
strings.  `fields c s` are the parts of `s` between the separators `c`, without the empty ones; all
facts about them follow from one equation for a list that is cut at a separator.
-/
import Mathlib.Data.List.Chain
import Mathlib.Data.List.Infix

namespace Lib.Search

variable {α : Type} [DecidableEq α]

/-! ### Searching -/

/-- The first position of a pattern. -/
def find (pat : List α) : List α → Option ℕ
  | [] => if pat = [] then some 0 else none
  | b :: bs => if pat <+: b :: bs then some 0 else (find pat bs).map (· + 1)

/-- The first position of a pattern from `pos` on. -/
def findFrom (pat s : List α) (pos : ℕ) : Option ℕ :=
  if pos ≤ s.length then (find pat (s.drop pos)).map (pos + ·) else none

/-- The last position of a pattern. -/
def rfind (pat : List α) : List α → Option ℕ
  | [] => if pat = [] then some 0 else none
  | b :: bs =>
    match rfind pat bs with
    | some k => some (k + 1)
    | none => if pat <+: b :: bs then some 0 else none

/-- The `n` elements from `pos` on are removed. -/
def erase (s : List α) (pos n : ℕ) : List α := s.take pos ++ s.drop (pos + n)

/-- The `n` elements from `pos` on. -/
def substr (s : List α) (pos n : ℕ) : List α := (s.drop pos).take n

variable {pat s : List α} {pos k : ℕ} {c : α}

lemma prefix_of_find (h : find pat s = some k) : pat <+: s.drop k := by
  induction s generalizing k with
  | nil =>
    rw [find] at h
    split_ifs at h with hpat
    rw [hpat]
    exact List.nil_prefix
  | cons b bs ih =>
    rw [find] at h
    split_ifs at h with hpre
    · obtain rfl := Option.some.inj h
      exact hpre
    · obtain ⟨j, hj, rfl⟩ := Option.map_eq_some_iff.mp h
      exact ih hj

/-- What is found is there, and not before the start. -/
lemma findFrom_some (h : findFrom pat s pos = some k) : pos ≤ k ∧ pat <+: s.drop k := by
  rw [findFrom] at h
  split_ifs at h
  obtain ⟨j, hj, rfl⟩ := Option.map_eq_some_iff.mp h
  have hpre := prefix_of_find hj
  rw [List.drop_drop] at hpre
  exact ⟨Nat.le_add_right _ _, hpre⟩

/-- What is found from the end is there. -/
lemma rfind_some {j : ℕ} (h : rfind pat s = some j) : pat <+: s.drop j := by
  induction s generalizing j with
  | nil =>
    rw [rfind] at h
    split_ifs at h with hpat
    rw [hpat]
    exact List.nil_prefix
  | cons b bs ih =>
    rw [rfind] at h
    split at h
    · next k hk =>
      obtain rfl := Option.some.inj h
      exact ih hk
    · split_ifs at h with hpre
      obtain rfl := Option.some.inj h
      exact hpre

/-- A pattern that is found fits into the rest. -/
lemma length_le_of_findFrom (hpat : pat ≠ []) (h : findFrom pat s pos = some k) :
    k + pat.length ≤ s.length := by
  have hlen := (findFrom_some h).2.length_le
  have hpos := List.length_pos_iff.mpr hpat
  rw [List.length_drop] at hlen
  omega

omit [DecidableEq α] in
@[simp] lemma length_erase (s : List α) (pos n : ℕ) (h : pos + n ≤ s.length) :
    (erase s pos n).length = s.length - n := by
  rw [erase, List.length_append, List.length_take, List.length_drop]
  omega

section singleton

/-- One element is found at its first occurrence. -/
lemma find_append_cons {a : List α} (ha : c ∉ a) (b : List α) :
    find [c] (a ++ c :: b) = some a.length := by
  induction a with
  | nil => simp [find]
  | cons x a ih =>
    have hx : ¬ [c] <+: x :: (a ++ c :: b) := by
      rw [List.cons_prefix_cons]
      exact fun h => ha (h.1 ▸ List.mem_cons_self)
    rw [List.cons_append, find, if_neg hx, ih fun h => ha (List.mem_cons_of_mem _ h)]
    rfl

lemma find_of_notMem (h : c ∉ s) : find [c] s = none := by
  induction s with
  | nil => simp [find]
  | cons x s ih =>
    have hx : ¬ [c] <+: x :: s := by
      rw [List.cons_prefix_cons]
      exact fun hpre => h (hpre.1 ▸ List.mem_cons_self)
    rw [find, if_neg hx, ih fun hmem => h (List.mem_cons_of_mem _ hmem)]
    rfl

lemma isSome_find_iff : (find [c] s).isSome ↔ c ∈ s := by
  constructor
  · intro h
    by_contra hmem
    rw [find_of_notMem hmem] at h
    cases h
  · intro h
    obtain ⟨a, b, rfl, ha⟩ := List.eq_append_cons_of_mem h
    rw [find_append_cons ha]
    rfl

lemma findFrom_append_cons (front : List α) {a : List α} (ha : c ∉ a) (b : List α) :
    findFrom [c] (front ++ (a ++ c :: b)) front.length = some (front.length + a.length) := by
  rw [findFrom, if_pos (by simp), List.drop_left, find_append_cons ha]
  rfl

lemma findFrom_of_notMem (front : List α) (h : c ∉ s) :
    findFrom [c] (front ++ s) front.length = none := by
  rw [findFrom, if_pos (by simp), List.drop_left, find_of_notMem h]
  rfl

/-- The element is found at once exactly when it is there. -/
lemma findFrom_eq_self_iff (front : List α) :
    findFrom [c] (front ++ s) front.length = some front.length ↔ s.head? = some c := by
  by_cases hmem : c ∈ s
  · obtain ⟨a, b, rfl, ha⟩ := List.eq_append_cons_of_mem hmem
    rw [findFrom_append_cons front ha]
    cases a with
    | nil => simp
    | cons x a => simpa using fun hx : x = c => ha (hx ▸ List.mem_cons_self)
  · rw [findFrom_of_notMem front hmem]
    refine iff_of_false nofun fun hhead => hmem (List.mem_of_mem_head? hhead)

end singleton

/-! ### Fields -/

/-- The non-empty parts between the separators. -/
def fields (c : α) (s : List α) : List (List α) := (s.splitOn c).filter (· ≠ [])

/-- **A list that is cut at a separator.** -/
lemma fields_append_cons (c : α) (a b : List α) :
    fields c (a ++ c :: b) = fields c a ++ fields c b := by
  rw [fields, List.splitOn_append_cons_self, List.filter_append]
  rfl

@[simp] lemma fields_nil : fields c ([] : List α) = [] := by simp [fields]

lemma fields_cons (c : α) (s : List α) : fields c (c :: s) = fields c s := by
  simpa using fields_append_cons c [] s

lemma fields_concat (c : α) (s : List α) : fields c (s ++ [c]) = fields c s := by
  simpa using fields_append_cons c s []

/-- A part without separators is one field. -/
lemma fields_of_notMem (h : c ∉ s) (hne : s ≠ []) : fields c s = [s] := by
  rw [fields, List.splitOn_eq_singleton h]
  simp [hne]

/-- A field is not empty and has no separators. -/
lemma mem_fields {p : List α} (h : p ∈ fields c s) : p ≠ [] ∧ c ∉ p := by
  induction hn : s.length using Nat.strong_induction_on generalizing s with
  | _ n ih =>
    by_cases hmem : c ∈ s
    · obtain ⟨a, b, rfl, ha⟩ := List.eq_append_cons_of_mem hmem
      rw [List.length_append, List.length_cons] at hn
      rw [fields_append_cons, List.mem_append] at h
      rcases h with h | h
      · exact ih a.length (by omega) h rfl
      · exact ih b.length (by omega) h rfl
    · rcases eq_or_ne s [] with rfl | hne
      · rw [fields_nil] at h
        cases h
      · rw [fields_of_notMem hmem hne, List.mem_singleton] at h
        exact h ▸ ⟨hne, hmem⟩

/-- A field is a part of the list. -/
lemma infix_of_mem_fields {p : List α} (h : p ∈ fields c s) : p <:+: s := by
  induction hn : s.length using Nat.strong_induction_on generalizing s with
  | _ n ih =>
    by_cases hmem : c ∈ s
    · obtain ⟨a, b, rfl, -⟩ := List.eq_append_cons_of_mem hmem
      rw [List.length_append, List.length_cons] at hn
      rw [fields_append_cons, List.mem_append] at h
      rcases h with h | h
      · exact (ih a.length (by omega) h rfl).trans (List.prefix_append a _).isInfix
      · refine (ih b.length (by omega) h rfl).trans ?_
        exact ((List.suffix_cons c b).trans (List.suffix_append a _)).isInfix
    · rcases eq_or_ne s [] with rfl | hne
      · rw [fields_nil] at h
        cases h
      · rw [fields_of_notMem hmem hne, List.mem_singleton] at h
        exact h ▸ List.infix_rfl

/-- Separators in front do not matter. -/
lemma fields_dropWhile (c : α) (s : List α) : fields c (s.dropWhile (· = c)) = fields c s := by
  induction s with
  | nil => rfl
  | cons x s ih =>
    by_cases hx : x = c
    · rw [List.dropWhile_cons_of_pos (by simpa using hx), ih, hx, fields_cons]
    · rw [List.dropWhile_cons_of_neg (by simpa using hx)]

/-- At a separator, those that follow it do not matter. -/
lemma fields_cut (c : α) (front a b : List α) :
    fields c (front ++ a ++ [c] ++ b.dropWhile (· = c)) = fields c (front ++ (a ++ c :: b)) := by
  have hleft : front ++ a ++ [c] ++ b.dropWhile (· = c) =
      (front ++ a) ++ c :: b.dropWhile (· = c) := by
    rw [List.append_assoc _ [c], List.singleton_append]
  rw [hleft, ← List.append_assoc front, fields_append_cons, fields_append_cons, fields_dropWhile]

lemma head?_dropWhile_ne (c : α) (s : List α) : (s.dropWhile (· = c)).head? ≠ some c := by
  intro hhead
  have hnot := List.head?_dropWhile_not (· = c) s
  rw [hhead] at hnot
  simp at hnot

/-! ### Separators that stand alone -/

omit [DecidableEq α]

/-- No two separators stand side by side. -/
def Spaced (c : α) (s : List α) : Prop := s.IsChain fun x y => ¬ (x = c ∧ y = c)

/-- No two separators stand side by side, and none at the front. -/
structure Tidy (c : α) (s : List α) : Prop where
  head : s.head? ≠ some c
  spaced : Spaced c s

lemma spaced_of_notMem (h : c ∉ s) : Spaced c s := by
  refine List.Pairwise.isChain (List.pairwise_of_forall_mem_list fun x hx y _ => ?_)
  exact fun hxy => h (hxy.1 ▸ hx)

lemma spaced_append {s t : List α} (hs : Spaced c s) (ht : Spaced c t)
    (hjoin : s.getLast? = some c → t.head? ≠ some c) : Spaced c (s ++ t) := by
  refine List.isChain_append.mpr ⟨hs, ht, ?_⟩
  rintro x hx y hy ⟨rfl, rfl⟩
  exact hjoin hx hy

/-- A part without separators, and one separator behind it. -/
lemma Spaced.concat {front a : List α} (hfront : Spaced c front) (ha : c ∉ a) {b : List α}
    (hjoin : front.getLast? = some c → (a ++ c :: b).head? ≠ some c) :
    Spaced c (front ++ a ++ [c]) := by
  have hpart : Spaced c (a ++ [c]) :=
    spaced_append (spaced_of_notMem ha) (List.isChain_singleton c) fun hlast =>
      absurd (List.mem_of_getLast? hlast) ha
  rw [List.append_assoc]
  refine spaced_append hfront hpart fun hlast hhead => hjoin hlast ?_
  cases a with
  | nil => rfl
  | cons x a => exact hhead

/-- The rest after a separator. -/
lemma Spaced.tidy_of_append {a b : List α} (h : Spaced c (a ++ c :: b)) : Tidy c b := by
  have hcons : Spaced c (c :: b) := (List.isChain_append.mp h).2.1
  obtain ⟨hhead, hb⟩ := List.isChain_cons.mp hcons
  exact ⟨fun hc => hhead c hc ⟨rfl, rfl⟩, hb⟩

lemma Tidy.of_prefix {s t : List α} (h : Tidy c s) (ht : t <+: s) : Tidy c t := by
  obtain ⟨r, rfl⟩ := ht
  refine ⟨fun hhead => ?_, (List.isChain_append.mp h.spaced).1⟩
  cases t with
  | nil => cases hhead
  | cons x t => exact h.head hhead

end Lib.Search
