/-
Values that are relayed over channels.

Each process has a value, which it announces to all others whenever it changes, and again from
time to time.  The announcements of one process arrive everywhere in the order in which they
were made.  The others keep copies; a process may forget all of its copies at any time, and it
may leave an announcement unread as long as it has no copy.

A copy may be out of date only as long as something is on its way (`exact_of_steps`).
-/
import Mathlib.Logic.Function.Basic
import Mathlib.Logic.Relation

namespace Lib.Relay

variable {ι V : Type*}

/-- A state of the processes.  `chan j i` holds the announcements on their way from `j` to `i`,
oldest first, and `copy i j` is what `i` knows of `j`. -/
@[ext]
structure Cfg (ι V : Type*) where
  val : ι → V
  chan : ι → ι → List V
  copy : ι → ι → Option V

/-- Nothing has been announced. -/
structure Cfg.Initial (c : Cfg ι V) : Prop where
  chan : ∀ j i, c.chan j i = []
  copy : ∀ i j, c.copy i j = none

/-- What `i` knows of `j`, and after it what `i` is going to learn. -/
def Cfg.line (c : Cfg ι V) (j i : ι) : List V := (c.copy i j).toList ++ c.chan j i

/-- The newest of all announcements is always the current value. -/
def Cfg.Exact (c : Cfg ι V) : Prop := ∀ j i, ∀ v ∈ (c.line j i).getLast?, v = c.val j

variable [DecidableEq ι] {c c' c₀ : Cfg ι V} {i j : ι} {v : V}

/-- The process `j` takes the value `v`, or keeps it, and says so. -/
def Cfg.announce (c : Cfg ι V) (j : ι) (v : V) : Cfg ι V :=
  { c with
    val := Function.update c.val j v
    chan := fun j' i => if j' = j then c.chan j' i ++ [v] else c.chan j' i }

/-- The process `i` forgets everything. -/
def Cfg.forget (c : Cfg ι V) (i : ι) : Cfg ι V :=
  { c with copy := fun i' j => if i' = i then none else c.copy i' j }

/-- The oldest announcement of `j` arrives at `i`, whose copy becomes `copy`. -/
def Cfg.deliver (c : Cfg ι V) (j i : ι) (rest : List V) (copy : Option V) : Cfg ι V :=
  { c with
    chan := fun j' i' => if j' = j ∧ i' = i then rest else c.chan j' i'
    copy := fun i' j' => if i' = i ∧ j' = j then copy else c.copy i' j' }

/-- One step of one process or of a channel. -/
inductive Step (c : Cfg ι V) : Cfg ι V → Prop
  | announce (j : ι) (v : V) : Step c (c.announce j v)
  | forget (i : ι) : Step c (c.forget i)
  | deliver (j i : ι) (v : V) (rest : List V) (copy : Option V) (hm : c.chan j i = v :: rest)
    (hcopy : copy = some v ∨ c.copy i j = none ∧ copy = none) : Step c (c.deliver j i rest copy)

lemma Cfg.Exact.announce (h : c.Exact) (j : ι) (v : V) : (c.announce j v).Exact := by
  intro j' i w hw
  rcases eq_or_ne j' j with rfl | hj
  · have hline : (c.announce j' v).line j' i = c.line j' i ++ [v] := by
      rw [Cfg.line, Cfg.announce]
      simp [Cfg.line]
    rw [hline, List.getLast?_concat, Option.mem_def, Option.some.injEq] at hw
    show w = Function.update c.val j' v j'
    rw [Function.update_self, hw]
  · have hline : (c.announce j v).line j' i = c.line j' i := by
      simp [Cfg.line, Cfg.announce, hj]
    show w = Function.update c.val j v j'
    rw [Function.update_of_ne hj]
    exact h j' i w (hline ▸ hw)

lemma Cfg.Exact.forget (h : c.Exact) (i : ι) : (c.forget i).Exact := by
  intro j i' w hw
  rcases eq_or_ne i' i with rfl | hi
  · -- the last announcement on its way was the last one before, too
    have hline : (c.forget i').line j i' = c.chan j i' := by
      simp [Cfg.line, Cfg.forget]
    rw [hline] at hw
    refine h j i' w ?_
    rw [Cfg.line, List.getLast?_append, Option.mem_def.mp hw]
    rfl
  · have hline : (c.forget i).line j i' = c.line j i' := by
      simp [Cfg.line, Cfg.forget, hi]
    exact h j i' w (hline ▸ hw)

lemma Cfg.Exact.deliver (h : c.Exact) {rest : List V} {copy : Option V}
    (hm : c.chan j i = v :: rest) (hcopy : copy = some v ∨ c.copy i j = none ∧ copy = none) :
    (c.deliver j i rest copy).Exact := by
  intro j' i' w hw
  by_cases hj : j' = j ∧ i' = i
  · obtain ⟨rfl, rfl⟩ := hj
    have hline : (c.deliver j' i' rest copy).line j' i' = copy.toList ++ rest := by
      simp [Cfg.line, Cfg.deliver]
    rw [hline] at hw
    refine h j' i' w ?_
    have hold : (c.line j' i').getLast? = (v :: rest).getLast? := by
      rw [Cfg.line, hm, List.getLast?_append, List.getLast?_cons]
      rfl
    rw [hold]
    rcases hcopy with rfl | ⟨-, rfl⟩
    · exact hw
    · rw [Option.toList_none, List.nil_append] at hw
      rw [List.getLast?_cons, Option.mem_def.mp hw]
      rfl
  · have hj' : ¬ (i' = i ∧ j' = j) := fun h => hj h.symm
    have hline : (c.deliver j i rest copy).line j' i' = c.line j' i' := by
      simp [Cfg.line, Cfg.deliver, hj, hj']
    exact h j' i' w (hline ▸ hw)

theorem exact_step (h : c.Exact) (hs : Step c c') : c'.Exact := by
  cases hs with
  | announce j v => exact h.announce j v
  | forget i => exact h.forget i
  | deliver j i v rest copy hm hcopy => exact h.deliver hm hcopy

/-- **Every reachable state is exact.** -/
theorem exact_of_steps (h₀ : c₀.Initial) (h : Relation.ReflTransGen Step c₀ c) : c.Exact := by
  induction h with
  | refl =>
    intro j i v hv
    rw [Cfg.line, h₀.chan, h₀.copy] at hv
    cases hv
  | tail _ hs ih => exact exact_step ih hs

omit [DecidableEq ι] in
/-- A copy is up to date when nothing is on its way. -/
lemma Cfg.Exact.copy_eq (h : c.Exact) (hm : c.chan j i = []) (hv : c.copy i j = some v) :
    v = c.val j := by
  refine h j i v ?_
  rw [Cfg.line, hm, hv]
  rfl

end Lib.Relay
