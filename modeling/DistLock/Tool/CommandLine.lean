/-
The command line of the tool: the loop of `main` over the options that `getopt` finds
(`dist_lock.cc`).

An option overwrites what the options before it have set.  So the last of `-q`, `-Q` and `-W`
decides what the child asks, the last of these and `-r` names the resource that it asks about, and
each count of `res_map` is that of the last option for its name (`options_last`).  Without an option
that asks, and only then, the child acquires (`asks_run`).

Options about a resource that agree on its count give the child what mutual exclusion rests on
(`agrees_of_options`).

The texts of `-h` and `-v` are left out.
-/
import DistLock.Acquire.Bounded
import DistLock.Tool.Export
import DistLock.Tool.Crew
import DistLock.Tool.Parent
import DistLock.Tool.StringReplace

namespace DistLock

open DLPacket (FitsWire)
open Lib (OrdMap Run)
open Lib.Search

/-- What `getopt` returns, with `optarg`; anything else is an unknown option, or one without its
argument. -/
inductive Opt
  | d
  | h
  | v
  | b (optarg : Name)
  | B (optarg : Name)
  | e (optarg : Name)
  | q (optarg : Name)
  | Q (optarg : Name)
  | W (optarg : Name)
  | r (optarg : Name)
  | n (optarg : Name)
  | p (optarg : Name)
  | unknown
  deriving DecidableEq

/-- The variables of `main` that the options set. -/
structure Settings where
  detach : Bool
  resource : Name
  isAny : Bool
  query : Bool
  isWaiting : Bool
  port : UInt32
  retryNum : UInt32
  beaconTime : UInt32
  bcastAddr : Name
  prefixEnv : Name
  resMap : OrdMap Name UInt32
  deriving DecidableEq

/-- `main` goes on with its variables, or returns. -/
inductive Parsed
  | settings (S : Settings)
  | exits (code : ℕ)
  deriving DecidableEq

/-- `#define PORT`. -/
def PORT : UInt32 := 5000

/-- `#define RETRYNUM`. -/
def RETRYNUM : UInt32 := 0

/-- `#define BEACONTIME`. -/
def BEACONTIME : UInt32 := 50

/-- `#define BROADCASTADDRESS`, which is `127.255.255.255`. -/
def BROADCASTADDRESS : Name := [49, 50, 55, 46, 50, 53, 53, 46, 50, 53, 53, 46, 50, 53, 53]

/-- `#define PREFIX_ENV`, which is `DISTLOCK`. -/
def PREFIX_ENV : Name := [68, 73, 83, 84, 76, 79, 67, 75]

namespace Settings

/-- Before the options, for the value of `DISTLOCK_PREFIX` in the environment. -/
def start (distlockPrefix : Option Name) : Settings where
  detach := false
  resource := []
  isAny := false
  query := false
  isWaiting := false
  port := PORT
  retryNum := RETRYNUM
  beaconTime := BEACONTIME
  bcastAddr := BROADCASTADDRESS
  prefixEnv := distlockPrefix.getD PREFIX_ENV
  resMap := .empty

/-- The cases `'q'`, `'Q'` and `'W'`: an empty argument is ignored. -/
def ask (S : Settings) (query isAny isWaiting : Bool) (optarg : Name) : Settings :=
  if optarg.length > 0 then
    { S with
      resource := optarg
      isAny := isAny
      query := query
      isWaiting := isWaiting
      resMap := S.resMap.insert optarg 1 }
  else S

/-- One turn of the loop over the options. -/
def option (S : Settings) : Opt → Parsed
  | .d => .settings { S with detach := true }
  | .h => .exits 0
  | .v => .exits 0
  | .b optarg => .settings { S with beaconTime := (atoi optarg).toUInt32 }
  | .B optarg => .settings { S with bcastAddr := optarg }
  | .e optarg => .settings { S with prefixEnv := optionE optarg }
  | .q optarg => .settings (S.ask true false false optarg)
  | .Q optarg => .settings (S.ask false true false optarg)
  | .W optarg => .settings (S.ask false false true optarg)
  | .r optarg =>
    match optionR S.resMap optarg with
    | (.next, resMap) => .settings { S with resource := optarg, resMap := resMap }
    | (.exit _ code, _) => .exits code
    | (.usage, _) => .exits 1
  | .n optarg =>
    if optarg.length > 0 then .settings { S with retryNum := (atoi optarg).toUInt32 }
    else .settings S
  | .p optarg =>
    if optarg.length > 0 then .settings { S with port := (atoi optarg).toUInt32 }
    else .settings S
  | .unknown => .exits 1

/-- The loop over the options. -/
def options (S : Settings) : List Opt → Parsed
  | [] => .settings S
  | o :: opts =>
    match S.option o with
    | .settings S' => S'.options opts
    | .exits code => .exits code

/-- What the child reads, with `argv` and `optind` as `getopt` leaves them. -/
def toOptions (S : Settings) (argv : List Name) (optind : ℕ) : Options where
  resMap := S.resMap
  resource := S.resource
  isAny := S.isAny
  query := S.query
  isWaiting := S.isWaiting
  retryNum := S.retryNum
  beaconTime := S.beaconTime.toUInt64
  argv := argv
  optind := optind

end Settings

namespace Opt

/-- What the child is to ask because of the option. -/
def asks : Opt → Option Query
  | q optarg => if optarg.length > 0 then some .isBusy else none
  | Q optarg => if optarg.length > 0 then some .isAny else none
  | W optarg => if optarg.length > 0 then some .isWaiting else none
  | _ => none

/-- The string that the option assigns to `resource`. -/
def resource : Opt → Option Name
  | q optarg | Q optarg | W optarg => if optarg.length > 0 then some optarg else none
  | r optarg => some optarg
  | _ => none

/-- The entry of `res_map` that the option writes. -/
def entry : Opt → Option (Name × UInt32)
  | q optarg | Q optarg | W optarg => if optarg.length > 0 then some (optarg, 1) else none
  | r optarg =>
    if colon ∈ optarg then some (field optarg 0, (atoi (field optarg 1)).toUInt32)
    else some (optarg, RESOURCECOUNT)
  | _ => none

/-- The count that the option stores for a name. -/
def count (n : Name) (o : Opt) : Option UInt32 :=
  o.entry.bind fun e => if e.1 = n then some e.2 else none

end Opt

/-- The values of `query`, `is_any` and `is_waiting`. -/
def flags : Option Query → Bool × Bool × Bool
  | some .isBusy => (true, false, false)
  | some .isAny => (false, true, false)
  | some .isWaiting => (false, false, true)
  | none => (false, false, false)

namespace Settings

variable {S S' : Settings} {o : Opt} {opts : List Opt} {distlockPrefix : Option Name} {r : Name}
  {k : UInt32} {argv : List Name} {optind : ℕ}

/-! ### The last option counts -/

/-- A variable that some options overwrite holds what the last of them has written. -/
lemma last_of_options {V : Type} (get : Settings → Option V) (write : Opt → Option V)
    (hwrite : ∀ S o S', S.option o = .settings S' → get S' = (write o).or (get S))
    (h : S.options opts = .settings S') :
    get S' = (opts.filterMap write).getLast?.or (get S) := by
  induction opts generalizing S with
  | nil =>
    obtain rfl := Parsed.settings.inj h
    rfl
  | cons o opts ih =>
    rw [options] at h
    split at h
    · next S₁ hS₁ =>
      rw [ih h, hwrite S o S₁ hS₁]
      cases hw : write o with
      | none => rw [List.filterMap_cons_none hw, Option.none_or]
      | some v =>
        rw [List.filterMap_cons_some hw, List.getLast?_cons]
        cases (opts.filterMap write).getLast? <;> rfl
    · cases h

/-- What one option does. -/
lemma option_eq (h : S.option o = .settings S') :
    (S'.query, S'.isAny, S'.isWaiting) =
        (o.asks.map fun q => flags (some q)).getD (S.query, S.isAny, S.isWaiting) ∧
      S'.resource = o.resource.getD S.resource ∧
      S'.resMap = o.entry.elim S.resMap fun e => S.resMap.insert e.1 e.2 := by
  have hask : ∀ query isAny isWaiting optarg,
      S.ask query isAny isWaiting optarg = S' →
      (S'.query, S'.isAny, S'.isWaiting) =
          (if optarg.length > 0 then (query, isAny, isWaiting)
            else (S.query, S.isAny, S.isWaiting)) ∧
        S'.resource = (if optarg.length > 0 then some optarg else none).getD S.resource ∧
        S'.resMap = (if optarg.length > 0 then some (optarg, (1 : UInt32)) else none).elim S.resMap
          fun e => S.resMap.insert e.1 e.2 := by
    rintro query isAny isWaiting optarg rfl
    rw [ask]
    split_ifs <;> exact ⟨rfl, rfl, rfl⟩
  cases o with
  | h | v | unknown => cases h
  | q optarg | Q optarg | W optarg =>
    obtain ⟨hflags, hres, hmap⟩ := hask _ _ _ optarg (Parsed.settings.inj h)
    refine ⟨?_, hres, hmap⟩
    rw [hflags, Opt.asks]
    split_ifs <;> rfl
  | r optarg =>
    rw [option] at h
    split at h
    · next resMap hnext =>
      obtain rfl := Parsed.settings.inj h
      refine ⟨rfl, rfl, ?_⟩
      show resMap = _
      by_cases hcolon : colon ∈ optarg
      · rw [optionR_of_mem hcolon] at hnext
        rw [Opt.entry, if_pos hcolon]
        split_ifs at hnext
        · cases hnext
        · exact (Prod.mk.inj hnext).2.symm
      · have hfind : ¬ (find [colon] optarg).isSome :=
          fun hsome => hcolon (isSome_find_iff.mp hsome)
        rw [optionR, if_neg hfind] at hnext
        rw [Opt.entry, if_neg hcolon]
        split_ifs at hnext
        · exact (Prod.mk.inj hnext).2.symm
        · cases hnext
    · cases h
    · cases h
  | n optarg | p optarg =>
    rw [option] at h
    split_ifs at h <;> obtain rfl := Parsed.settings.inj h <;> exact ⟨rfl, rfl, rfl⟩
  | _ =>
    obtain rfl := Parsed.settings.inj h
    exact ⟨rfl, rfl, rfl⟩

/-- **The last option counts.**  When `main` accepts the options, `query`, `is_any` and `is_waiting`
are those of the last option that asks, `resource` is the argument of the last option that has a
resource, and the count of each name in `res_map` is that of the last option for it. -/
theorem options_last (h : (start distlockPrefix).options opts = .settings S) :
    (S.query, S.isAny, S.isWaiting) = flags (opts.filterMap Opt.asks).getLast? ∧
      S.resource = (opts.filterMap Opt.resource).getLast?.getD [] ∧
      ∀ n, S.resMap.find? n = (opts.filterMap (Opt.count n)).getLast? := by
  refine ⟨?_, ?_, fun n => ?_⟩
  · have hlast := last_of_options (fun S => some (S.query, S.isAny, S.isWaiting))
      (fun o => o.asks.map fun q => flags (some q))
      (fun S o S' ho => by
        rw [(option_eq ho).1]
        cases o.asks <;> rfl) h
    have hmap : opts.filterMap (fun o => o.asks.map fun q => flags (some q)) =
        (opts.filterMap Opt.asks).map fun q => flags (some q) := List.map_filterMap.symm
    rw [hmap, List.getLast?_map] at hlast
    refine Option.some.inj (hlast.trans ?_)
    cases (opts.filterMap Opt.asks).getLast? <;> rfl
  · have hlast := last_of_options (fun S => some S.resource) Opt.resource
      (fun S o S' ho => by
        rw [(option_eq ho).2.1]
        cases o.resource <;> rfl) h
    refine Option.some.inj (hlast.trans ?_)
    cases (opts.filterMap Opt.resource).getLast? <;> rfl
  · have hlast := last_of_options (fun S => S.resMap.find? n) (Opt.count n)
      (fun S o S' ho => by
        rw [(option_eq ho).2.2, Opt.count]
        cases o.entry with
        | none => rfl
        | some e =>
          show (S.resMap.insert e.1 e.2).find? n = _
          rw [OrdMap.find?_insert]
          by_cases hn : e.1 = n
          · rw [if_pos hn.symm]
            show _ = (if e.1 = n then some e.2 else none).or _
            rw [if_pos hn]
            rfl
          · rw [if_neg fun hn' => hn hn'.symm]
            show _ = (if e.1 = n then some e.2 else none).or _
            rw [if_neg hn]
            rfl) h
    rw [hlast, show (start distlockPrefix).resMap.find? n = none from rfl, Option.or_none]

/-- `-r b:2`. -/
lemma optionR_two (resMap : OrdMap Name UInt32) :
    optionR resMap [98, 58, 50] = (.next, resMap.insert [98] 2) := by
  rw [optionR_of_mem (by decide), if_neg (by decide)]
  rfl

/-- `dist_lock -q a -r b:2`: it asks whether `b:2` is busy. -/
theorem options_last_colon :
    ∃ S, (start none).options [.q [97], .r [98, 58, 50]] = .settings S ∧
      (S.query, S.isAny, S.isWaiting) = flags (some .isBusy) ∧ S.resource = [98, 58, 50] ∧
      S.resMap.find? [98] = some 2 := by
  obtain ⟨S, hS⟩ : ∃ S, (start none).options [.q [97], .r [98, 58, 50]] = .settings S := by
    simp only [options, option, optionR_two]
    exact ⟨_, rfl⟩
  obtain ⟨hflags, hres, hmap⟩ := options_last hS
  exact ⟨S, hS, hflags, hres, (hmap [98]).trans (by decide)⟩

/-! ### Options that agree -/

/-- What is stored comes from an option. -/
lemma exists_count {n : Name} {c : UInt32} (h : (opts.filterMap (Opt.count n)).getLast? = some c) :
    ∃ o ∈ opts, o.count n = some c := by
  have hmem : c ∈ opts.filterMap (Opt.count n) := List.mem_of_getLast? h
  exact List.mem_filterMap.mp hmem

/-- An option with the argument `n` stores an entry for `n`, unless there is a colon in it. -/
lemma count_of_resource {n : Name} (h : o.resource = some n) (hn : colon ∉ n) :
    ∃ c, o.count n = some c := by
  cases o with
  | q optarg | Q optarg | W optarg =>
    rw [Opt.resource] at h
    split_ifs at h with hlen
    obtain rfl := Option.some.inj h
    exact ⟨1, by rw [Opt.count, Opt.entry, if_pos hlen]; exact if_pos rfl⟩
  | r optarg =>
    obtain rfl := Option.some.inj h
    exact ⟨RESOURCECOUNT, by rw [Opt.count, Opt.entry, if_neg hn]; exact if_pos rfl⟩
  | _ => cases h

/-- A part of a name that fits onto the wire fits, too. -/
lemma fits_field {arg : Name} (h : FitsWire arg) (n : ℕ) : FitsWire (field arg n) := by
  by_cases hn : n < (fields colon arg).length
  · have hmem : field arg n ∈ fields colon arg := by
      rw [field, List.getElem?_eq_getElem hn]
      exact List.getElem_mem hn
    have hpart := infix_of_mem_fields hmem
    exact ⟨hpart.length_le.trans h.1, fun h0 => h.2 (hpart.subset h0)⟩
  · rw [field, List.getElem?_eq_none (by omega)]
    exact ⟨Nat.zero_le _, List.not_mem_nil⟩

/-- A name that is stored is the argument of its option, or the part before the colon. -/
lemma fits_of_count {n : Name} {c : UInt32} (h : o.count n = some c)
    (hfits : ∀ res ∈ o.resource, FitsWire res) : FitsWire n := by
  obtain ⟨e, he, h⟩ := Option.bind_eq_some_iff.mp h
  split_ifs at h with hn
  subst hn
  cases o with
  | q optarg | Q optarg | W optarg =>
    rw [Opt.entry] at he
    split_ifs at he with hlen
    obtain rfl := Option.some.inj he
    exact hfits optarg (by rw [Opt.resource, if_pos hlen]; rfl)
  | r optarg =>
    have harg : FitsWire optarg := hfits optarg rfl
    rw [Opt.entry] at he
    split_ifs at he
    · obtain rfl := Option.some.inj he
      exact fits_field harg 0
    · obtain rfl := Option.some.inj he
      exact harg
  | _ => cases he

/-- What is stored by an option that is accepted is positive. -/
lemma pos_of_option {e : Name × UInt32} (h : S.option o = .settings S') (he : o.entry = some e) :
    1 ≤ e.2 := by
  cases o with
  | q optarg | Q optarg | W optarg =>
    rw [Opt.entry] at he
    split_ifs at he
    obtain rfl := Option.some.inj he
    exact le_rfl
  | r optarg =>
    rw [Opt.entry] at he
    split_ifs at he with hcolon
    · obtain rfl := Option.some.inj he
      rw [option, optionR_of_mem hcolon] at h
      split_ifs at h with hneg
      · cases h
      · exact UInt32.le_iff_toNat_le.mpr (toNat_toUInt32 hneg).1
    · obtain rfl := Option.some.inj he
      exact le_rfl
  | _ => cases he

lemma pos_of_options (h : S.options opts = .settings S')
    (hpos : ∀ n c, S.resMap.find? n = some c → 1 ≤ c) :
    ∀ n c, S'.resMap.find? n = some c → 1 ≤ c := by
  induction opts generalizing S with
  | nil =>
    obtain rfl := Parsed.settings.inj h
    exact hpos
  | cons o opts ih =>
    rw [options] at h
    split at h
    · next S₁ hS₁ =>
      refine ih h fun n c hc => ?_
      rw [(option_eq hS₁).2.2] at hc
      cases he : o.entry with
      | none =>
        rw [he] at hc
        exact hpos n c hc
      | some e =>
        rw [he] at hc
        change (S.resMap.insert e.1 e.2).find? n = some c at hc
        rw [OrdMap.find?_insert] at hc
        split_ifs at hc
        · obtain rfl := Option.some.inj hc
          exact pos_of_option hS₁ he
        · exact hpos n c hc
    · cases h

/-- **What the options agree on.**  If the arguments fit onto the wire and every option that stores
`r` stores the count `k`, then the child has options that say so about `r`. -/
theorem agrees_of_options (h : (start distlockPrefix).options opts = .settings S)
    (hfits : ∀ o ∈ opts, ∀ res ∈ o.resource, FitsWire res) (hne : r ≠ []) (hr : colon ∉ r)
    (hk : ∀ o ∈ opts, ∀ c ∈ o.count r, c = k) : (S.toOptions argv optind).Agrees r k := by
  obtain ⟨-, hres, hmap⟩ := options_last h
  exact
    { fits := fun n hn => by
        obtain ⟨c, hc⟩ := OrdMap.mem_keys_iff.mp hn
        obtain ⟨o, ho, hcount⟩ := exists_count ((hmap n).symm.trans hc)
        exact fits_of_count hcount (hfits o ho)
      pos := pos_of_options h fun n c hc => by cases hc
      count := fun c hc => by
        obtain ⟨o, ho, hcount⟩ := exists_count ((hmap r).symm.trans hc)
        exact hk o ho c hcount
      resource := by
        change FitsWire S.resource ∧ (S.resource = r → r ∈ S.resMap.keys ∨ k = 1)
        rw [hres]
        cases hlast : (opts.filterMap Opt.resource).getLast? with
        | none => exact ⟨by decide, fun h => absurd h.symm hne⟩
        | some res =>
          obtain ⟨o, ho, hname⟩ := List.mem_filterMap.mp (List.mem_of_getLast? hlast)
          refine ⟨hfits o ho res hname, fun heq => .inl ?_⟩
          obtain rfl : res = r := heq
          obtain ⟨c, hc⟩ := count_of_resource hname hr
          have hmem : c ∈ opts.filterMap (Opt.count res) := List.mem_filterMap.mpr ⟨o, ho, hc⟩
          obtain ⟨c', hc'⟩ := Option.ne_none_iff_exists'.mp fun hnone =>
            List.ne_nil_of_mem hmem (List.getLast?_eq_none_iff.mp hnone)
          exact OrdMap.mem_keys_iff.mpr ⟨c', (hmap res).trans hc'⟩ }

/-- `dist_lock -r b:2 -r a` about `b`. -/
theorem agrees_of_options_two :
    ∃ S, (start none).options [.r [98, 58, 50], .r [97]] = .settings S ∧
      (S.toOptions [] 4).Agrees [98] 2 := by
  obtain ⟨S, hS⟩ : ∃ S, (start none).options [.r [98, 58, 50], .r [97]] = .settings S := by
    simp only [options, option, optionR_two]
    exact ⟨_, rfl⟩
  refine ⟨S, hS, agrees_of_options hS (by decide) (by decide) (by decide) fun o ho c hc => ?_⟩
  have htwo : Opt.count [98] (.r [98, 58, 50]) = some 2 := by decide
  have hnone : Opt.count [98] (.r [97]) = none := by decide
  rcases List.mem_cons.mp ho with rfl | ho
  · exact Option.some.inj (hc.symm.trans htwo)
  · obtain rfl := List.mem_singleton.mp ho
    cases hnone.symm.trans hc

end Settings

/-! ### What the child does -/

/-- The positions of `main` fit to what it is to ask. -/
def ChildPc.Follows (m : Option Query) (res : Name) (dl : Option Inst) : ChildPc → Prop
  | asking => ∃ q I, m = some q ∧ dl = some I ∧ (I.job = some (.query q res) ∨ I.job = none)
  | acquiring | forking | waiting _ | waited => m = none
  | deleting | destroying => m ≠ none
  | releasing | released => False
  | _ => True

/-- Apart from the branches and the answer, the control flow keeps this. -/
lemma ChildPc.Flow.follows {pc pc' : ChildPc} {m : Option Query} {res : Name}
    {dl dl' : Option Inst} (hf : pc.Flow pc') (hd : pc ≠ .dispatching) (ha : pc ≠ .asking)
    (h : pc.Follows m res dl) : pc'.Follows m res dl' := by
  cases hf with
  | stay =>
    cases pc with
    | asking => exact absurd rfl ha
    | _ => exact h
  | ask | acquire | skip => exact absurd rfl hd
  | answer => exact absurd rfl ha
  | acquired | fork | wait | delete => exact h
  | release | finish => exact h.elim
  | _ => trivial

namespace Child

variable {o : Options} {s s' s₁ : Child} {I : Inst} {e : ChildEvent} {m : Option Query}
  {es : List ChildEvent} {S : Settings} {opts : List Opt} {distlockPrefix : Option Name}
  {argv : List Name} {optind : ℕ} {b : Bool} {code : UInt32}

lemma follows_dispatch (hm : (o.query, o.isAny, o.isWaiting) = flags m)
    (h : s.dispatch o I = some s') : s'.pc.Follows m o.resource s'.dl := by
  have hquery : ∀ q, m = some q → s.call I (.query q o.resource) .asking = some s' →
      s'.pc.Follows m o.resource s'.dl := by
    intro q hq h
    obtain ⟨I', sent, hs, rfl⟩ := call_inv h
    obtain ⟨-, rfl, -⟩ := Inst.step_call hs
    exact ⟨q, _, hq, rfl, .inl rfl⟩
  obtain ⟨hq, hrest⟩ := Prod.mk.inj hm
  obtain ⟨ha, hw⟩ := Prod.mk.inj hrest
  rw [dispatch, hq, ha, hw] at h
  cases m with
  | none =>
    change (if o.optind > 0 then
      (if o.argv[o.optind - 1]? = some dashes ∧ o.argv.length > o.optind then
        s.call I (.acquire []) .acquiring else some (s.exit 2))
      else some (s.exit 1)) = some s' at h
    split_ifs at h
    · obtain ⟨I', sent, -, rfl⟩ := call_inv h
      rfl
    · obtain rfl := Option.some.inj h
      trivial
    · obtain rfl := Option.some.inj h
      trivial
  | some q =>
    refine hquery q rfl ?_
    cases q <;> exact h

/-- **The child follows the command line**, step by step. -/
lemma follows_step (hm : (o.query, o.isAny, o.isWaiting) = flags m)
    (h : s.pc.Follows m o.resource s.dl) (hs : s.step o e = some s') :
    s'.pc.Follows m o.resource s'.dl := by
  have hflow := step_flow hs
  cases transition_of_step hs with
  | dl e I I' sent he hI hI' =>
    show s.pc.Follows m o.resource (some I')
    -- the function that has been called stays the same until it returns
    cases hpc : s.pc with
    | asking =>
      rw [hpc] at h
      obtain ⟨q, J, hq, hJ, hjob⟩ := h
      obtain rfl := Option.some.inj (hI.symm.trans hJ)
      refine ⟨q, I', hq, rfl, ?_⟩
      rcases Inst.job_step he hI' with hnone | hsame
      · exact .inr hnone
      · rwa [hsame]
    | _ =>
      rw [hpc] at h
      exact h
  | main I s' hI hs =>
    rw [mainStep] at hs
    cases hpc : s.pc with
    -- the branches of `main` look at the flags only here
    | dispatching =>
      rw [hpc] at hs
      exact follows_dispatch hm hs
    | asking =>
      rw [hpc] at hs h
      obtain ⟨q, -, hq, -⟩ := h
      dsimp only at hs
      split at hs
      · obtain rfl := Option.some.inj hs
        show m ≠ none
        rw [hq]
        exact Option.some_ne_none q
      · cases hs
    | _ => exact hflow.follows (by simp [hpc]) (by simp [hpc]) h
  | construct _ hpc | throws hpc | forkFails _ hpc | forks _ hpc | waits _ _ _ hpc =>
    exact hflow.follows (by simp [hpc]) (by simp [hpc]) h

/-- **The child does what the command line says.**  If an option asks, the child asks what the last
of them asks, about `resource`, and never acquires; if none does, it never asks, and its instance
is not deleted. -/
theorem asks_run (h : (Settings.start distlockPrefix).options opts = .settings S)
    (hrun : Run (step (S.toOptions argv optind)) (fun _ _ => True) start es s) :
    s.pc.Follows (opts.filterMap Opt.asks).getLast? S.resource s.dl :=
  hrun.invariant
    (I := fun s => s.pc.Follows (opts.filterMap Opt.asks).getLast? S.resource s.dl)
    (fun _ _ _ hs _ hstep => follows_step (Settings.options_last h).1 hs hstep) trivial

/-- `dist_lock -q a`, up to the call of `isBusy`. -/
theorem asks_run_isBusy :
    ∃ S s, (Settings.start none).options [.q [97]] = .settings S ∧
      Run (step (S.toOptions [] 3)) (fun _ _ => True) start
        [.constructed (some 1), .main, .main, .main, .main, .main] s ∧ s.pc = .asking ∧
      s.pc.Follows (some .isBusy) S.resource s.dl := by
  obtain ⟨S, s, hS, hrun, hpc⟩ : ∃ S s, (Settings.start none).options [.q [97]] = .settings S ∧
      Run (step (S.toOptions [] 3)) (fun _ _ => True) start
        [.constructed (some 1), .main, .main, .main, .main, .main] s ∧ s.pc = .asking :=
    ⟨_, _, rfl, Run.of_exec rfl, rfl⟩
  exact ⟨S, s, hS, hrun, hpc, asks_run hS hrun⟩

/-- The exit code for an answer. -/
def codeOf (b : Bool) : UInt32 := if b then 1 else 0

/-- From the answer of the query to the exit of the process. -/
def Answered (b : Bool) (s : Child) : Prop :=
  s.pc = .asking ∧ s.result = some b ∨
    (s.pc = .deleting ∨ s.pc = .destroying) ∧ s.status = codeOf b ∨ s.pc = .exited (codeOf b)

lemma answered_step (h : s.Answered b) (hs : s.step o e = some s') : s'.Answered b := by
  have hpc : s.pc ≠ .constructing ∧ s.pc ≠ .forking ∧ ∀ pid, s.pc ≠ .waiting pid := by
    rcases h with ⟨hpc, -⟩ | ⟨hpc | hpc, -⟩ | hpc <;> simp [hpc]
  cases transition_of_step hs with
  | dl e I I' sent he hI hI' =>
    refine h.imp_left fun hask => ⟨hask.1, ?_⟩
    obtain ⟨J, hJ, hctl⟩ := result_eq_some hask.2
    obtain rfl := Option.some.inj (hI.symm.trans hJ)
    have hctl' : I'.ctl = .free (some b) := (Inst.free_step hctl he hI').1
    exact result_of_free rfl hctl'
  | main I s' hI hs =>
    rw [mainStep] at hs
    rcases h with ⟨hpc, hres⟩ | ⟨hpc | hpc, hst⟩ | hpc
    · rw [hpc] at hs
      obtain ⟨J, hJ, hctl⟩ := result_eq_some hres
      obtain rfl := Option.some.inj (hI.symm.trans hJ)
      rw [hctl] at hs
      obtain rfl := Option.some.inj hs
      exact .inr (.inl ⟨.inl rfl, rfl⟩)
    · rw [hpc] at hs
      obtain ⟨I', sent, -, rfl⟩ := call_inv hs
      exact .inr (.inl ⟨.inr rfl, hst⟩)
    · rw [hpc] at hs
      dsimp only at hs
      split at hs
      · obtain rfl := Option.some.inj hs
        exact .inr (.inr (congrArg ChildPc.exited hst))
      · cases hs
    · rw [hpc] at hs
      cases hs
  | construct _ h | throws h => exact absurd h hpc.1
  | forkFails _ h | forks _ h => exact absurd h hpc.2.1
  | waits pid _ _ h => exact absurd h (hpc.2.2 pid)

/-- **The exit code of a query is its answer.**  Once the query has returned, the process exits with
1 or 0 for true or false, whatever packets arrive while its destructor releases the resources. -/
theorem exit_code_of_answer (hpc : s₁.pc = .asking) (hb : s₁.result = some b)
    (hrun : Run (step o) (fun _ _ => True) s₁ es s) (hexit : s.pc = .exited code) :
    code = codeOf b := by
  have h : s.Answered b :=
    hrun.invariant (I := Answered b) (fun _ _ _ h _ hs => answered_step h hs) (.inl ⟨hpc, hb⟩)
  rcases h with ⟨hpc', -⟩ | ⟨hpc' | hpc', -⟩ | hpc'
  · cases hpc'.symm.trans hexit
  · cases hpc'.symm.trans hexit
  · cases hpc'.symm.trans hexit
  · exact (ChildPc.exited.inj (hpc'.symm.trans hexit)).symm

/-- `dist_lock -q a`. -/
def isBusyOnly : Options := { oneResource with query := true, optind := 3 }

/-- The member 7 holds `a`, and says so while the child listens. -/
theorem exit_code_of_answer_busy :
    ∃ s₁ s : Child, s₁.result = some true ∧ s.pc = .exited 1 ∧ 1 = codeOf true := by
  obtain ⟨s₁, hpc, hb, s, hrun, hexit⟩ : ∃ s₁ : Child, s₁.pc = .asking ∧ s₁.result = some true ∧
      ∃ s, Run (step isBusyOnly) (fun _ _ => True) s₁
        [.main, .main, .dl .run, .dl .run, .dl .run, .main] s ∧ s.pc = .exited 1 := by
    have hask : ∃ s₁, Run (step isBusyOnly) (fun _ _ => True) start
        [.constructed (some 1), .main, .main, .main, .main, .main, .dl .run, .dl .run,
          .dl (.deliver ((DLPacket.new 3 7).setResource [97])), .dl .run, .dl .timeout, .dl .run]
        s₁ ∧ s₁.pc = .asking ∧ s₁.result = some true ∧
        ∃ s, Run (step isBusyOnly) (fun _ _ => True) s₁
          [.main, .main, .dl .run, .dl .run, .dl .run, .main] s ∧ s.pc = .exited 1 :=
      ⟨_, Run.of_exec rfl, rfl, rfl, _, Run.of_exec rfl, rfl⟩
    obtain ⟨s₁, -, h⟩ := hask
    exact ⟨s₁, h⟩
  exact ⟨s₁, s, hb, hexit, exit_code_of_answer hpc hb hrun hexit⟩

end Child
end DistLock
