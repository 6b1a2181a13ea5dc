/-
`StringTokenizer.cc`.

The constructor removes repeated delimiters and trims the ends, in place, and `nextToken` cuts the
string at the first delimiter that is left.  With a delimiter of one byte the tokens are the
non-empty fields of the string, in order, and empty strings after the last one (`nextToken_spec`).
-/
import DistLock.Lib.Search
import DistLock.Wire.DLPacket

namespace DistLock

open Lib.Search

structure StringTokenizer where
  tokenStr : List UInt8
  delim : List UInt8
  deriving DecidableEq

namespace StringTokenizer

/-- The inner loop of the constructor: delimiters at `pos` are erased. -/
def eraseRun (delim : List UInt8) (hdelim : delim ≠ []) (s : List UInt8) (pos : ℕ) : List UInt8 :=
  if _h : findFrom delim s pos = some pos then
    eraseRun delim hdelim (erase s pos delim.length) pos
  else s
termination_by s.length
decreasing_by
  have hlen := length_le_of_findFrom hdelim _h
  have hpos := List.length_pos_iff.mpr hdelim
  rw [length_erase _ _ _ hlen]
  omega

lemma length_eraseRun_le {delim : List UInt8} (hdelim : delim ≠ []) (s : List UInt8) (pos : ℕ) :
    (eraseRun delim hdelim s pos).length ≤ s.length := by
  induction s using eraseRun.induct delim hdelim pos with
  | case1 s h ih =>
    rw [eraseRun, dif_pos h]
    rw [length_erase _ _ _ (length_le_of_findFrom hdelim h)] at ih
    omega
  | case2 s h => rw [eraseRun, dif_neg h]

/-- The outer loop of the constructor: repeated delimiters are removed from `pos` on. -/
def collapse (delim : List UInt8) (hdelim : delim ≠ []) (s : List UInt8) (pos : ℕ) :
    List UInt8 :=
  match _h : findFrom delim s pos with
  | some k =>
    collapse delim hdelim (eraseRun delim hdelim s (k + delim.length)) (k + delim.length)
  | none => s
termination_by s.length - pos
decreasing_by
  have hlen := length_le_of_findFrom hdelim _h
  have hle := (findFrom_some _h).1
  have hrun := length_eraseRun_le hdelim s (k + delim.length)
  have hpos := List.length_pos_iff.mpr hdelim
  omega

/-- A leading delimiter is trimmed. -/
def trimFront (delim s : List UInt8) : List UInt8 :=
  if findFrom delim s 0 = some 0 then erase s 0 delim.length else s

/-- An ending delimiter is trimmed. -/
def trimBack (delim s : List UInt8) : List UInt8 :=
  match rfind delim s with
  | some pos =>
    if pos ≠ s.length - delim.length then s
    else erase s (s.length - delim.length) delim.length
  | none => s

/-- `StringTokenizer::StringTokenizer`. -/
def new (str delim : List UInt8) : StringTokenizer :=
  if h : str = [] ∨ delim = [] then { tokenStr := [], delim := [] }
  else
    { tokenStr := trimBack delim
        (trimFront delim (collapse delim (fun hd => h (.inr hd)) str 0))
      delim := delim }

/-- `StringTokenizer::nextToken`. -/
def nextToken (T : StringTokenizer) : List UInt8 × StringTokenizer :=
  if T.tokenStr = [] then ([], T)
  else
    match findFrom T.delim T.tokenStr 0 with
    | some pos =>
      (substr T.tokenStr 0 pos,
        { T with tokenStr :=
            substr T.tokenStr (pos + T.delim.length) (T.tokenStr.length - pos) })
    | none => (substr T.tokenStr 0 T.tokenStr.length, { T with tokenStr := [] })

/-! ### The constructor -/

variable {c : UInt8}

/-- The inner loop erases the delimiters that follow `front`. -/
lemma eraseRun_append (hc : [c] ≠ []) (front s : List UInt8) :
    eraseRun [c] hc (front ++ s) front.length = front ++ s.dropWhile (· = c) := by
  induction s with
  | nil =>
    rw [eraseRun, dif_neg (by rw [findFrom_eq_self_iff]; exact nofun)]
    rfl
  | cons x s ih =>
    by_cases hx : x = c
    · have herase : erase (front ++ x :: s) front.length [c].length = front ++ s := by
        rw [erase, List.take_left, ← List.drop_drop, List.drop_left]
        rfl
      rw [eraseRun, dif_pos (by rw [findFrom_eq_self_iff]; exact congrArg some hx), herase, ih,
        List.dropWhile_cons_of_pos (by simpa using hx)]
    · rw [eraseRun, dif_neg (by rw [findFrom_eq_self_iff]; simpa using hx),
        List.dropWhile_cons_of_neg (by simpa using hx)]

/-- The outer loop keeps the fields; what it has passed is spaced, and does not end with a delimiter
when another one follows. -/
lemma collapse_append (hc : [c] ≠ []) (front s : List UInt8) (hfront : Spaced c front)
    (hjoin : front.getLast? = some c → s.head? ≠ some c) :
    Spaced c (collapse [c] hc (front ++ s) front.length) ∧
      fields c (collapse [c] hc (front ++ s) front.length) = fields c (front ++ s) := by
  -- on the length of what has not been scanned; a round removes a run of delimiters from it
  induction hn : s.length using Nat.strong_induction_on generalizing front s with
  | _ n ih =>
    rw [collapse]
    by_cases hmem : c ∈ s
    · obtain ⟨a, b, rfl, ha⟩ := List.eq_append_cons_of_mem hmem
      have hsplit : front ++ (a ++ c :: b) = (front ++ a ++ [c]) ++ b := by simp
      have hlen : front.length + a.length + [c].length = (front ++ a ++ [c]).length := by
        simp [Nat.add_assoc]
      have hshort : (b.dropWhile (· = c)).length < n := by
        have := List.length_dropWhile_le (· = c) b
        rw [← hn, List.length_append, List.length_cons]
        omega
      obtain ⟨h₁, h₂⟩ := ih _ hshort (front ++ a ++ [c]) (b.dropWhile (· = c))
        (hfront.concat ha hjoin) (fun _ => head?_dropWhile_ne c b) rfl
      split
      · next k hk =>
        rw [findFrom_append_cons front ha] at hk
        obtain rfl := Option.some.inj hk
        rw [hlen, hsplit, eraseRun_append, ← hsplit, ← fields_cut]
        exact ⟨h₁, h₂⟩
      · next hnone =>
        rw [findFrom_append_cons front ha] at hnone
        cases hnone
    · split
      · next k hk =>
        rw [findFrom_of_notMem front hmem] at hk
        cases hk
      · exact ⟨spaced_append hfront (spaced_of_notMem hmem) hjoin, rfl⟩

lemma trimFront_spec {s : List UInt8} (hs : Spaced c s) :
    Tidy c (trimFront [c] s) ∧ fields c (trimFront [c] s) = fields c s := by
  have hiff := findFrom_eq_self_iff (c := c) (s := s) []
  rw [List.nil_append, List.length_nil] at hiff
  rw [trimFront]
  split_ifs with hfind
  · obtain ⟨t, rfl⟩ := List.head?_eq_some_iff.mp (hiff.mp hfind)
    exact ⟨Spaced.tidy_of_append (a := []) hs, (fields_cons c t).symm⟩
  · exact ⟨⟨fun hhead => hfind (hiff.mpr hhead), hs⟩, rfl⟩

lemma trimBack_spec {s : List UInt8} (hs : Tidy c s) :
    Tidy c (trimBack [c] s) ∧ fields c (trimBack [c] s) = fields c s := by
  rw [trimBack]
  split
  · next pos hpos =>
    split_ifs with hend
    · exact ⟨hs, rfl⟩
    · have hpre := rfind_some hpos
      obtain ⟨r, hr⟩ := hpre
      have hlen := congrArg List.length hr
      rw [List.length_append, List.length_drop, List.length_singleton] at hlen
      have hpos' : pos = s.length - 1 := not_not.mp hend
      obtain rfl : r = [] := List.length_eq_zero_iff.mp (by omega)
      have hsplit : s = s.take (s.length - 1) ++ [c] := by
        conv_lhs => rw [← List.take_append_drop pos s, ← hr, hpos']
        rfl
      have herase : erase s (s.length - [c].length) [c].length = s.take (s.length - 1) := by
        rw [erase, List.length_singleton, List.drop_of_length_le (by omega), List.append_nil]
      rw [herase]
      refine ⟨hs.of_prefix (List.take_prefix _ _), ?_⟩
      conv_rhs => rw [hsplit, fields_concat]
  · exact ⟨hs, rfl⟩

/-- **The constructor** makes the string tidy and keeps its fields. -/
theorem new_spec (str : List UInt8) :
    Tidy c (new str [c]).tokenStr ∧ fields c (new str [c]).tokenStr = fields c str := by
  by_cases hstr : str = [] ∨ [c] = []
  · rw [new, dif_pos hstr]
    obtain rfl : str = [] := hstr.resolve_right (List.cons_ne_nil c [])
    exact ⟨⟨nofun, List.IsChain.nil⟩, rfl⟩
  · rw [new, dif_neg hstr]
    obtain ⟨hspaced, hfields⟩ :=
      collapse_append (List.cons_ne_nil c []) [] str List.IsChain.nil nofun
    obtain ⟨htidy, hfront⟩ := trimFront_spec hspaced
    obtain ⟨htidy', hback⟩ := trimBack_spec htidy
    exact ⟨htidy', hback.trans (hfront.trans hfields)⟩

lemma new_delim {str : List UInt8} (h : str ≠ []) : (new str [c]).delim = [c] := by
  rw [new, dif_neg (by simpa using h)]

/-! ### The tokens -/

/-- **The next token** is the first field, and the rest stays tidy. -/
theorem nextToken_spec {T : StringTokenizer} (hdelim : T.delim = [c]) (htidy : Tidy c T.tokenStr) :
    T.nextToken.1 = (fields c T.tokenStr).head?.getD [] ∧ T.nextToken.2.delim = [c] ∧
      Tidy c T.nextToken.2.tokenStr ∧
        fields c T.nextToken.2.tokenStr = (fields c T.tokenStr).tail := by
  obtain ⟨s, delim⟩ := T
  obtain rfl : delim = [c] := hdelim
  rw [nextToken]
  split_ifs with hs
  · obtain rfl : s = [] := hs
    exact ⟨rfl, rfl, htidy, rfl⟩
  · by_cases hmem : c ∈ s
    · obtain ⟨a, b, rfl, ha⟩ := List.eq_append_cons_of_mem hmem
      have hfind := findFrom_append_cons [] ha b
      simp only [List.nil_append, List.length_nil, Nat.zero_add] at hfind
      have hne : a ≠ [] := by
        rintro rfl
        exact htidy.head rfl
      have hrest : substr (a ++ c :: b) (a.length + [c].length) ((a ++ c :: b).length - a.length) =
          b := by
        rw [substr, ← List.drop_drop, List.drop_left]
        exact List.take_of_length_le (by simp)
      simp only [hfind, hrest]
      rw [fields_append_cons, fields_of_notMem ha hne]
      exact ⟨List.take_left' rfl, trivial, htidy.spaced.tidy_of_append, rfl⟩
    · have hfind := findFrom_of_notMem [] hmem
      simp only [List.nil_append, List.length_nil] at hfind
      simp only [hfind]
      rw [fields_of_notMem hmem hs]
      exact ⟨List.take_length, trivial, ⟨nofun, List.IsChain.nil⟩, fields_nil⟩

end StringTokenizer
end DistLock
