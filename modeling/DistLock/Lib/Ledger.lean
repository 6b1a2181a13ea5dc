/-
A ledger of objects in memory.

The log has the events of all objects, in order.  An object is created with a fresh address at a
place, and what happens to it afterwards is done through its place, until the place gives it up.
Each place remembers the history that its object should have.  If the places are kept so, then each
object that was ever created has either the history that its place remembers, or one that was closed
when the place gave it up (`Sound`); when no place has an object, all histories are closed.
-/
import Mathlib.Data.List.Nodup
import Mathlib.Logic.Relation
import Mathlib.Order.Nat

namespace Lib

variable {κ ε : Type*}

/-- The log of the events, the next fresh address, and the objects of the places with their
histories. -/
structure Ledger (κ ε : Type*) where
  next : ℕ
  log : List (ℕ × ε)
  held : κ → Option (ℕ × List ε)

/-- The events of one object. -/
def history (log : List (ℕ × ε)) (p : ℕ) : List ε := (log.filter fun x => x.1 = p).map Prod.snd

@[simp] lemma history_nil (p : ℕ) : history ([] : List (ℕ × ε)) p = [] := rfl

lemma history_concat_self (log : List (ℕ × ε)) (p : ℕ) (e : ε) :
    history (log ++ [(p, e)]) p = history log p ++ [e] := by
  rw [history, List.filter_append, List.map_append]
  simp [history]

lemma history_concat_of_ne (log : List (ℕ × ε)) {p q : ℕ} (e : ε) (h : q ≠ p) :
    history (log ++ [(p, e)]) q = history log q := by
  rw [history, List.filter_append, List.map_append]
  simp [history, h.symm]

lemma mem_history {log : List (ℕ × ε)} {p : ℕ} {e : ε} : e ∈ history log p ↔ (p, e) ∈ log := by
  simp [history]

namespace Ledger

variable [DecidableEq κ] {closed : List ε → Prop} {B B' : Ledger κ ε} {k : κ} {p : ℕ}

/-- What a program does to its objects. -/
inductive Step (closed : List ε → Prop) : Ledger κ ε → Ledger κ ε → Prop
  | acquire {B : Ledger κ ε} {k : κ} (e : ε) (hfree : B.held k = none) :
      Step closed B
        { next := B.next + 1
          log := B.log ++ [(B.next, e)]
          held := Function.update B.held k (some (B.next, [e])) }
  | advance {B : Ledger κ ε} {k : κ} {p : ℕ} {hist : List ε} (e : ε)
      (hheld : B.held k = some (p, hist)) :
      Step closed B
        { B with
          log := B.log ++ [(p, e)]
          held := Function.update B.held k (some (p, hist ++ [e])) }
  | release {B : Ledger κ ε} {k : κ} {p : ℕ} {hist : List ε} (e : ε)
      (hheld : B.held k = some (p, hist)) (hclosed : closed (hist ++ [e])) :
      Step closed B
        { B with log := B.log ++ [(p, e)], held := Function.update B.held k none }

/-- Any number of steps. -/
abbrev Steps (closed : List ε → Prop) : Ledger κ ε → Ledger κ ε → Prop :=
  Relation.ReflTransGen (Step closed)

omit [DecidableEq κ] in
/-- The places remember the histories of their objects, no two of them have the same object, and all
other objects are closed or do not exist. -/
structure Sound (closed : List ε → Prop) (B : Ledger κ ε) : Prop where
  history_eq : ∀ k p hist, B.held k = some (p, hist) → history B.log p = hist
  lt : ∀ k p hist, B.held k = some (p, hist) → p < B.next
  inj : ∀ k k' p hist hist', B.held k = some (p, hist) → B.held k' = some (p, hist') → k = k'
  rest : ∀ p, (∀ k hist, B.held k ≠ some (p, hist)) →
    history B.log p = [] ∨ closed (history B.log p)
  fresh : ∀ p, B.next ≤ p → history B.log p = []

/-- An event of an object that no place but `k` has, after which `k` remembers the new history, or
gives up an object that is closed. -/
lemma Sound.write (h : Sound closed B) {e : ε} {next : ℕ} {v : Option (ℕ × List ε)}
    (hplace : ∀ k' hist, B.held k' = some (p, hist) → k' = k)
    (hobj : ∀ q hist, B.held k = some (q, hist) → q = p) (hnext : B.next ≤ next) (hp : p < next)
    (hv : v = some (p, history B.log p ++ [e]) ∨ v = none ∧ closed (history B.log p ++ [e])) :
    Sound closed
      { next := next, log := B.log ++ [(p, e)], held := Function.update B.held k v } := by
  -- what a place has after the event, it has had before, unless it is `k`
  have hcases : ∀ k' q hist, Function.update B.held k v k' = some (q, hist) →
      (k' = k ∧ q = p ∧ hist = history B.log p ++ [e]) ∨
        (k' ≠ k ∧ q ≠ p ∧ B.held k' = some (q, hist)) := by
    intro k' q hist hheld
    by_cases hk : k' = k
    · rw [hk, Function.update_self] at hheld
      rcases hv with rfl | ⟨rfl, -⟩
      · obtain ⟨rfl, rfl⟩ := Prod.mk.inj (Option.some.inj hheld)
        exact .inl ⟨hk, rfl, rfl⟩
      · cases hheld
    · rw [Function.update_of_ne hk] at hheld
      exact .inr ⟨hk, fun hq => hk (hplace k' hist (hq ▸ hheld)), hheld⟩
  constructor
  case history_eq =>
    intro k' q hist hheld
    rcases hcases k' q hist hheld with ⟨-, rfl, rfl⟩ | ⟨-, hq, hheld⟩
    · exact history_concat_self B.log q e
    · exact (history_concat_of_ne B.log e hq).trans (h.history_eq k' q hist hheld)
  case lt =>
    intro k' q hist hheld
    rcases hcases k' q hist hheld with ⟨-, rfl, -⟩ | ⟨-, -, hheld⟩
    · exact hp
    · exact lt_of_lt_of_le (h.lt k' q hist hheld) hnext
  case inj =>
    intro k₁ k₂ q hist₁ hist₂ hheld₁ hheld₂
    rcases hcases k₁ q hist₁ hheld₁ with ⟨hk₁, hq, -⟩ | ⟨-, hq, hold₁⟩
    · rcases hcases k₂ q hist₂ hheld₂ with ⟨hk₂, -, -⟩ | ⟨-, hq', -⟩
      · exact hk₁.trans hk₂.symm
      · exact absurd hq hq'
    · rcases hcases k₂ q hist₂ hheld₂ with ⟨-, hq', -⟩ | ⟨-, -, hold₂⟩
      · exact absurd hq' hq
      · exact h.inj k₁ k₂ q hist₁ hist₂ hold₁ hold₂
  case rest =>
    intro q hnone
    by_cases hq : q = p
    · subst hq
      rcases hv with rfl | ⟨-, hclosed⟩
      · exact absurd (Function.update_self k _ B.held) (hnone k _)
      · exact .inr ((history_concat_self B.log q e).symm ▸ hclosed)
    · show history (B.log ++ [(p, e)]) q = [] ∨ closed (history (B.log ++ [(p, e)]) q)
      rw [history_concat_of_ne B.log e hq]
      refine h.rest q fun k' hist hheld => hnone k' hist ?_
      have hk : k' ≠ k := fun hk => hq (hobj q hist (hk ▸ hheld))
      exact (Function.update_of_ne hk v B.held).trans hheld
  case fresh =>
    intro q hq
    have hne : q ≠ p := (lt_of_lt_of_le hp hq).ne'
    exact (history_concat_of_ne B.log e hne).trans (h.fresh q (hnext.trans hq))

/-- Every step keeps the ledger sound. -/
theorem Sound.step (h : Sound closed B) (hs : Step closed B B') : Sound closed B' := by
  cases hs with
  | acquire e hfree =>
    have hnew := h.fresh B.next le_rfl
    refine h.write (fun k' hist hheld => ?_) (fun q hist hheld => ?_) (Nat.le_succ _)
      (Nat.lt_succ_self _) (.inl (by rw [hnew]; rfl))
    · exact absurd (h.lt k' B.next hist hheld) (lt_irrefl _)
    · exact absurd (hfree.symm.trans hheld) nofun
  | @advance k p hist e hheld =>
    have hhist := h.history_eq k p hist hheld
    refine h.write (fun k' hist' hheld' => h.inj k' k p hist' hist hheld' hheld)
      (fun q hist' hheld' => ?_) le_rfl (h.lt k p hist hheld) (.inl (by rw [hhist]))
    exact congrArg Prod.fst (Option.some.inj (hheld'.symm.trans hheld))
  | @release k p hist e hheld hclosed =>
    have hhist := h.history_eq k p hist hheld
    refine h.write (fun k' hist' hheld' => h.inj k' k p hist' hist hheld' hheld)
      (fun q hist' hheld' => ?_) le_rfl (h.lt k p hist hheld)
      (.inr ⟨rfl, by rwa [hhist]⟩)
    exact congrArg Prod.fst (Option.some.inj (hheld'.symm.trans hheld))

theorem Sound.steps (h : Sound closed B) (hs : Steps closed B B') : Sound closed B' := by
  induction hs with
  | refl => exact h
  | tail _ hstep ih => exact ih.step hstep

omit [DecidableEq κ] in
/-- The ledger of a program that has not begun. -/
lemma sound_empty :
    Sound closed ({ next := 0, log := [], held := fun _ => none } : Ledger κ ε) where
  history_eq := nofun
  lt := nofun
  inj := nofun
  rest p _ := .inl (history_nil p)
  fresh p _ := history_nil p

omit [DecidableEq κ] in
/-- **When no place has an object, every object is closed.** -/
theorem Sound.closed_of_empty (h : Sound closed B) (hempty : ∀ k, B.held k = none) (p : ℕ) :
    history B.log p = [] ∨ closed (history B.log p) :=
  h.rest p fun k _ hheld => absurd ((hempty k).symm.trans hheld) nofun

/-- Several places give up their objects, one after the other. -/
lemma steps_release {xs : List (κ × ℕ)} {hist : List ε} {e : ε} (hnd : (xs.map Prod.fst).Nodup)
    (hheld : ∀ x ∈ xs, B.held x.1 = some (x.2, hist)) (hclosed : closed (hist ++ [e])) :
    Steps closed B
      { B with
        log := B.log ++ xs.map fun x => (x.2, e)
        held := fun k => if k ∈ xs.map Prod.fst then none else B.held k } := by
  -- on the places; each release leaves the others held
  induction xs generalizing B with
  | nil =>
    have heq : ({ B with
        log := B.log ++ ([] : List (κ × ℕ)).map fun x => (x.2, e)
        held := fun k => if k ∈ ([] : List (κ × ℕ)).map Prod.fst then none else B.held k } :
          Ledger κ ε) = B := by
      simp
    rw [heq]
  | cons x xs ih =>
    obtain ⟨k, p⟩ := x
    obtain ⟨hk, hnd⟩ := List.nodup_cons.mp hnd
    let B₁ : Ledger κ ε :=
      { B with log := B.log ++ [(p, e)], held := Function.update B.held k none }
    have hfirst : Step closed B B₁ := .release e (hheld (k, p) List.mem_cons_self) hclosed
    have hrest : ∀ x ∈ xs, B₁.held x.1 = some (x.2, hist) := by
      intro x hx
      have hne : x.1 ≠ k := ne_of_mem_of_not_mem (List.mem_map_of_mem hx) hk
      exact (Function.update_of_ne hne none B.held).trans (hheld x (List.mem_cons_of_mem _ hx))
    have hlast := Relation.ReflTransGen.head hfirst (ih hnd hrest)
    have hlog : B₁.log ++ xs.map (fun x => (x.2, e)) =
        B.log ++ ((k, p) :: xs).map fun x => (x.2, e) := by
      rw [List.append_assoc]
      rfl
    have hheld' : (fun k' => if k' ∈ xs.map Prod.fst then none else B₁.held k') =
        fun k' => if k' ∈ ((k, p) :: xs).map Prod.fst then none else B.held k' := by
      funext k'
      have hcons : k' ∈ ((k, p) :: xs).map Prod.fst ↔ k' = k ∨ k' ∈ xs.map Prod.fst :=
        List.mem_cons
      by_cases hmem : k' ∈ xs.map Prod.fst
      · rw [if_pos hmem, if_pos (hcons.mpr (.inr hmem))]
      · rw [if_neg hmem]
        by_cases hk' : k' = k
        · rw [if_pos (hcons.mpr (.inl hk')), hk']
          exact Function.update_self k none B.held
        · rw [if_neg fun h => (hcons.mp h).elim hk' hmem]
          exact Function.update_of_ne hk' none B.held
    rw [hlog, hheld'] at hlast
    exact hlast

end Ledger
end Lib
