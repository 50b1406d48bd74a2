import Mathlib.Logic.Function.Basic
import Mathlib.Data.BitVec

/-!
# Event pools

The event pools of `rkhfwk_evtpool.c`: `rkh_evtPool_init`, `rkh_evtPool_getPool`, and the
calls that pass a pool on to the memory pool module. The registry is the static array
`evtPools` of `RKH_CFG_FWK_MAX_EVT_POOL` entries, each a memory pool and its `isUsed` flag;
`getPool` hands out the first free entry after initialising its pool with `rkh_mp_init`, or
null when every entry is in use.

`RKH_MP_T` and `rkh_mp_init` are not in this source: the pool is a type `σ` and
`rkh_mp_init` a function on it, so every result holds whatever it does. The abstract
registry is the list of the arguments of every registration that succeeded (`register`);
`Registered` ties the array to it.
-/

namespace Rkh.Fwk

set_option autoImplicit false

structure RKHEvtPool (σ : Type) where
  memPool : σ
  isUsed : BitVec 8

/-- The arguments of `rkh_evtPool_getPool`, passed on to `rkh_mp_init`. -/
structure PoolArgs where
  stoStart : Nat
  stoSize : BitVec 16
  evtSize : Nat
  deriving DecidableEq, Repr

section Code

variable {σ : Type} (rkhMpInit : σ → Nat → BitVec 16 → Nat → σ)
  (rkhCfgFwkMaxEvtPool : Nat)

/-- The loop of `rkh_evtPool_init` over `n` entries from entry `i`. -/
def initLoop : Nat → Nat → (Nat → RKHEvtPool σ) → Nat → RKHEvtPool σ
  | _, 0, evtPools => evtPools
  | i, n + 1, evtPools =>
    initLoop (i + 1) n (Function.update evtPools i { evtPools i with isUsed := 0 })

def rkhEvtPoolInit (evtPools : Nat → RKHEvtPool σ) : Nat → RKHEvtPool σ :=
  initLoop 0 rkhCfgFwkMaxEvtPool evtPools

/-- The loop of `rkh_evtPool_getPool` over `n` entries from entry `i`; `some i` stands for
`&evtPools[i]`, `none` for null. -/
def getPoolLoop (stoStart : Nat) (stoSize : BitVec 16) (evtSize : Nat) :
    Nat → Nat → (Nat → RKHEvtPool σ) → Option Nat × (Nat → RKHEvtPool σ)
  | _, 0, evtPools => (none, evtPools)
  | i, n + 1, evtPools =>
    if (evtPools i).isUsed = 0 then
      (some i, Function.update evtPools i
        { memPool := rkhMpInit (evtPools i).memPool stoStart stoSize evtSize, isUsed := 1 })
    else getPoolLoop stoStart stoSize evtSize (i + 1) n evtPools

def rkhEvtPoolGetPool (stoStart : Nat) (stoSize : BitVec 16) (evtSize : Nat)
    (evtPools : Nat → RKHEvtPool σ) : Option Nat × (Nat → RKHEvtPool σ) :=
  getPoolLoop rkhMpInit stoStart stoSize evtSize 0 rkhCfgFwkMaxEvtPool evtPools

/-- A sequence of `rkh_evtPool_getPool` calls: what each returned, and the array after. -/
def getPoolRun :
    List PoolArgs → (Nat → RKHEvtPool σ) → List (Option Nat) × (Nat → RKHEvtPool σ)
  | [], evtPools => ([], evtPools)
  | a :: as, evtPools =>
    let r := rkhEvtPoolGetPool rkhMpInit rkhCfgFwkMaxEvtPool a.stoStart a.stoSize a.evtSize evtPools
    let rest := getPoolRun as r.2
    (r.1 :: rest.1, rest.2)

end Code

/-! ### The loops -/

section Loops

variable {σ : Type} (rkhMpInit : σ → Nat → BitVec 16 → Nat → σ)

theorem initLoop_apply (i n : Nat) (evtPools : Nat → RKHEvtPool σ) (j : Nat) :
    initLoop i n evtPools j =
      if i ≤ j ∧ j < i + n then { evtPools j with isUsed := 0 } else evtPools j := by
  induction n generalizing i evtPools with
  | zero => rw [initLoop, if_neg (by omega)]
  | succ n ih =>
    rw [initLoop, ih, Function.update_apply]
    split_ifs <;> first | subst_vars; rfl | rfl | omega

/-- Over entries that are all in use, `getPool`'s loop returns null and changes nothing. -/
theorem getPoolLoop_of_used (stoStart : Nat) (stoSize : BitVec 16) (evtSize : Nat) (i n : Nat)
    (evtPools : Nat → RKHEvtPool σ)
    (hused : ∀ j, i ≤ j → j < i + n → (evtPools j).isUsed ≠ 0) :
    getPoolLoop rkhMpInit stoStart stoSize evtSize i n evtPools = (none, evtPools) := by
  induction n generalizing i with
  | zero => rfl
  | succ n ih =>
    rw [getPoolLoop, if_neg (hused i (Nat.le_refl _) (by omega))]
    exact ih (i + 1) fun j hj hjn => hused j (by omega) (by omega)

/-- `getPool`'s loop stops at the first free entry `k`. -/
theorem getPoolLoop_of_free (stoStart : Nat) (stoSize : BitVec 16) (evtSize : Nat) {i n k : Nat}
    (evtPools : Nat → RKHEvtPool σ) (hik : i ≤ k) (hkn : k < i + n)
    (hused : ∀ j, i ≤ j → j < k → (evtPools j).isUsed ≠ 0)
    (hfree : (evtPools k).isUsed = 0) :
    getPoolLoop rkhMpInit stoStart stoSize evtSize i n evtPools =
      (some k, Function.update evtPools k
        { memPool := rkhMpInit (evtPools k).memPool stoStart stoSize evtSize, isUsed := 1 }) := by
  induction n generalizing i with
  | zero => omega
  | succ n ih =>
    rw [getPoolLoop]
    rcases Nat.eq_or_lt_of_le hik with rfl | hlt
    · rw [if_pos hfree]
    · rw [if_neg (hused i (Nat.le_refl _) hlt)]
      exact ih hlt (by omega) fun j hj hjk => hused j (by omega) hjk

end Loops

/-! ### The abstract registry -/

section Registry

variable {σ : Type} (rkhMpInit : σ → Nat → BitVec 16 → Nat → σ)
  (rkhCfgFwkMaxEvtPool : Nat)

/-- Registration appends the pool's arguments while there is room, and answers with the
new entry's index. -/
def register (a : PoolArgs) (reg : List PoolArgs) : Option Nat × List PoolArgs :=
  if reg.length < rkhCfgFwkMaxEvtPool then (some reg.length, reg ++ [a]) else (none, reg)

def registerRun : List PoolArgs → List PoolArgs → List (Option Nat) × List PoolArgs
  | [], reg => ([], reg)
  | a :: as, reg =>
    let r := register rkhCfgFwkMaxEvtPool a reg
    let rest := registerRun as r.2
    (r.1 :: rest.1, rest.2)

/-- The array `evtPools` holds the registry `reg`: used flags on its prefix, each used pool
initialised by `rkh_mp_init` from its arguments, every other entry as in `evtPools₀`. -/
structure Registered (evtPools₀ evtPools : Nat → RKHEvtPool σ) (reg : List PoolArgs) :
    Prop where
  length_le : reg.length ≤ rkhCfgFwkMaxEvtPool
  isUsed : ∀ i < rkhCfgFwkMaxEvtPool, (evtPools i).isUsed = if i < reg.length then 1 else 0
  memPool_used : ∀ i (hi : i < reg.length), (evtPools i).memPool =
    rkhMpInit (evtPools₀ i).memPool reg[i].stoStart reg[i].stoSize reg[i].evtSize
  memPool_free : ∀ i, reg.length ≤ i → (evtPools i).memPool = (evtPools₀ i).memPool
  frame : ∀ i, rkhCfgFwkMaxEvtPool ≤ i → evtPools i = evtPools₀ i

variable {rkhMpInit rkhCfgFwkMaxEvtPool}

theorem registered_init (evtPools₀ : Nat → RKHEvtPool σ) :
    Registered rkhMpInit rkhCfgFwkMaxEvtPool evtPools₀
      (rkhEvtPoolInit rkhCfgFwkMaxEvtPool evtPools₀) [] := by
  refine ⟨Nat.zero_le _, fun i hi => ?_, fun i hi => absurd hi (Nat.not_lt_zero i),
    fun i _ => ?_, fun i hi => ?_⟩ <;> rw [rkhEvtPoolInit, initLoop_apply]
  · rw [if_pos ⟨Nat.zero_le i, by omega⟩]
    rfl
  · split <;> rfl
  · rw [if_neg (by omega)]

section Step

variable {evtPools₀ evtPools : Nat → RKHEvtPool σ} {reg : List PoolArgs}

/-- On a full registry `getPool` returns null and changes nothing: no `rkh_mp_init`. -/
theorem Registered.getPool_full
    (h : Registered rkhMpInit rkhCfgFwkMaxEvtPool evtPools₀ evtPools reg)
    (hfull : rkhCfgFwkMaxEvtPool ≤ reg.length) (a : PoolArgs) :
    rkhEvtPoolGetPool rkhMpInit rkhCfgFwkMaxEvtPool a.stoStart a.stoSize a.evtSize evtPools =
      (none, evtPools) :=
  getPoolLoop_of_used rkhMpInit _ _ _ 0 _ evtPools fun j _ hj => by
    rw [h.isUsed j (by omega), if_pos (by omega)]
    decide

/-- With room left, `getPool` initialises and hands out entry `reg.length`. -/
theorem Registered.getPool_room
    (h : Registered rkhMpInit rkhCfgFwkMaxEvtPool evtPools₀ evtPools reg)
    (hroom : reg.length < rkhCfgFwkMaxEvtPool) (a : PoolArgs) :
    rkhEvtPoolGetPool rkhMpInit rkhCfgFwkMaxEvtPool a.stoStart a.stoSize a.evtSize evtPools =
      (some reg.length, Function.update evtPools reg.length
        { memPool := rkhMpInit (evtPools₀ reg.length).memPool a.stoStart a.stoSize a.evtSize,
          isUsed := 1 }) := by
  have hused : ∀ j, 0 ≤ j → j < reg.length → (evtPools j).isUsed ≠ 0 := fun j _ hj => by
    rw [h.isUsed j (by omega), if_pos hj]
    decide
  have hfree : (evtPools reg.length).isUsed = 0 := by
    rw [h.isUsed _ hroom, if_neg (Nat.lt_irrefl _)]
  rw [rkhEvtPoolGetPool, getPoolLoop_of_free rkhMpInit _ _ _ evtPools (Nat.zero_le _) (by omega)
    hused hfree, h.memPool_free _ (Nat.le_refl _)]

theorem Registered.getPool (h : Registered rkhMpInit rkhCfgFwkMaxEvtPool evtPools₀ evtPools reg)
    (a : PoolArgs) :
    (rkhEvtPoolGetPool rkhMpInit rkhCfgFwkMaxEvtPool a.stoStart a.stoSize a.evtSize evtPools).1 =
        (register rkhCfgFwkMaxEvtPool a reg).1 ∧
      Registered rkhMpInit rkhCfgFwkMaxEvtPool evtPools₀
        (rkhEvtPoolGetPool rkhMpInit rkhCfgFwkMaxEvtPool a.stoStart a.stoSize a.evtSize
          evtPools).2 (register rkhCfgFwkMaxEvtPool a reg).2 := by
  by_cases hroom : reg.length < rkhCfgFwkMaxEvtPool
  · rw [h.getPool_room hroom, register, if_pos hroom]
    dsimp only
    refine ⟨rfl, by simpa using hroom, fun i hi => ?_, fun i hi => ?_, fun i hi => ?_,
      fun i hi => ?_⟩ <;> rw [Function.update_apply]
    · rw [List.length_append, List.length_singleton]
      by_cases hik : i = reg.length
      · rw [if_pos hik, if_pos (by omega)]
      · rw [if_neg hik, h.isUsed i hi]
        split_ifs <;> first | rfl | omega
    · by_cases hik : i = reg.length
      · subst hik
        simp
      · have hi' : i < reg.length := by
          rw [List.length_append, List.length_singleton] at hi
          omega
        rw [if_neg hik, h.memPool_used i hi', List.getElem_append_left]
    · rw [List.length_append, List.length_singleton] at hi
      rw [if_neg (by omega), h.memPool_free i (by omega)]
    · rw [if_neg (by omega), h.frame i hi]
  · rw [h.getPool_full (by omega), register, if_neg hroom]
    exact ⟨rfl, h⟩

end Step

theorem Registered.run {evtPools₀ evtPools : Nat → RKHEvtPool σ} {reg : List PoolArgs}
    (h : Registered rkhMpInit rkhCfgFwkMaxEvtPool evtPools₀ evtPools reg)
    (calls : List PoolArgs) :
    (getPoolRun rkhMpInit rkhCfgFwkMaxEvtPool calls evtPools).1 =
        (registerRun rkhCfgFwkMaxEvtPool calls reg).1 ∧
      Registered rkhMpInit rkhCfgFwkMaxEvtPool evtPools₀
        (getPoolRun rkhMpInit rkhCfgFwkMaxEvtPool calls evtPools).2
        (registerRun rkhCfgFwkMaxEvtPool calls reg).2 := by
  induction calls generalizing evtPools reg with
  | nil => exact ⟨rfl, h⟩
  | cons a as ih =>
    obtain ⟨hr, h'⟩ := h.getPool a
    obtain ⟨hrest, h''⟩ := ih h'
    exact ⟨by simp only [getPoolRun, registerRun, hr, hrest], h''⟩

/-- The abstract run: the `k`-th call gets entry `reg.length + k` while there is room, and
the registry keeps the calls that fit. -/
theorem registerRun_eq (calls reg : List PoolArgs) (hreg : reg.length ≤ rkhCfgFwkMaxEvtPool) :
    registerRun rkhCfgFwkMaxEvtPool calls reg =
      ((List.range calls.length).map fun k =>
          if reg.length + k < rkhCfgFwkMaxEvtPool then some (reg.length + k) else none,
        reg ++ calls.take (rkhCfgFwkMaxEvtPool - reg.length)) := by
  induction calls generalizing reg with
  | nil => simp [registerRun]
  | cons a as ih =>
    rw [registerRun, register, List.length_cons, List.range_succ_eq_map, List.map_cons,
      List.map_map]
    by_cases hroom : reg.length < rkhCfgFwkMaxEvtPool
    · have hk : rkhCfgFwkMaxEvtPool - reg.length = rkhCfgFwkMaxEvtPool - (reg.length + 1) + 1 := by
        omega
      simp only [if_pos hroom, ih (reg ++ [a]) (by simp; omega), List.length_append,
        List.length_singleton, Nat.add_zero, hk, List.take_succ_cons, List.append_assoc,
        List.singleton_append, Function.comp_def, Nat.add_assoc, Nat.add_comm 1]
    · have hk : rkhCfgFwkMaxEvtPool - reg.length = 0 := by omega
      simp only [if_neg hroom, ih reg hreg, hk, List.take_zero, Nat.add_zero, Function.comp_def]
      refine congrArg (·, _) (congrArg _ (List.map_congr_left fun k _ => ?_))
      rw [if_neg (by omega), if_neg (by omega)]

end Registry

theorem evtPool_getPool_prefix {σ : Type} (rkhMpInit : σ → Nat → BitVec 16 → Nat → σ)
    (rkhCfgFwkMaxEvtPool : Nat) (evtPools₀ : Nat → RKHEvtPool σ) (calls : List PoolArgs) :
    (getPoolRun rkhMpInit rkhCfgFwkMaxEvtPool calls
        (rkhEvtPoolInit rkhCfgFwkMaxEvtPool evtPools₀)).1 =
      (List.range calls.length).map (fun k => if k < rkhCfgFwkMaxEvtPool then some k else none) ∧
    ((getPoolRun rkhMpInit rkhCfgFwkMaxEvtPool calls
        (rkhEvtPoolInit rkhCfgFwkMaxEvtPool evtPools₀)).1.filterMap id).Nodup ∧
    (∀ i < rkhCfgFwkMaxEvtPool, ((getPoolRun rkhMpInit rkhCfgFwkMaxEvtPool calls
        (rkhEvtPoolInit rkhCfgFwkMaxEvtPool evtPools₀)).2 i).isUsed =
      if i < min calls.length rkhCfgFwkMaxEvtPool then 1 else 0) ∧
    (∀ i (hi : i < calls.length), i < rkhCfgFwkMaxEvtPool →
      ((getPoolRun rkhMpInit rkhCfgFwkMaxEvtPool calls
        (rkhEvtPoolInit rkhCfgFwkMaxEvtPool evtPools₀)).2 i).memPool =
      rkhMpInit (evtPools₀ i).memPool calls[i].stoStart calls[i].stoSize calls[i].evtSize) ∧
    (∀ i, min calls.length rkhCfgFwkMaxEvtPool ≤ i →
      ((getPoolRun rkhMpInit rkhCfgFwkMaxEvtPool calls
        (rkhEvtPoolInit rkhCfgFwkMaxEvtPool evtPools₀)).2 i).memPool = (evtPools₀ i).memPool) ∧
    (rkhCfgFwkMaxEvtPool ≤ calls.length → ∀ a : PoolArgs,
      rkhEvtPoolGetPool rkhMpInit rkhCfgFwkMaxEvtPool a.stoStart a.stoSize a.evtSize
          (getPoolRun rkhMpInit rkhCfgFwkMaxEvtPool calls
            (rkhEvtPoolInit rkhCfgFwkMaxEvtPool evtPools₀)).2 =
        (none, (getPoolRun rkhMpInit rkhCfgFwkMaxEvtPool calls
          (rkhEvtPoolInit rkhCfgFwkMaxEvtPool evtPools₀)).2)) := by
  obtain ⟨hout, h⟩ :=
    (registered_init evtPools₀ : Registered rkhMpInit rkhCfgFwkMaxEvtPool _ _ []).run calls
  have hrun := registerRun_eq calls [] (Nat.zero_le rkhCfgFwkMaxEvtPool)
  simp only [List.length_nil, Nat.zero_add, List.nil_append, Nat.sub_zero] at hrun
  rw [hrun] at hout h
  have hlen : (calls.take rkhCfgFwkMaxEvtPool).length = min calls.length rkhCfgFwkMaxEvtPool := by
    rw [List.length_take, Nat.min_comm]
  refine ⟨hout, ?_, fun i hi => ?_, fun i hi him => ?_, fun i hi => ?_, fun hfull a => ?_⟩
  · rw [hout, List.filterMap_map]
    refine (List.nodup_range _).filterMap fun k k' b hk hk' => ?_
    simp only [Function.comp_apply, id, Option.mem_def] at hk hk'
    split_ifs at hk hk'
    exact (Option.some_inj.mp hk).trans (Option.some_inj.mp hk').symm
  · rw [h.isUsed i hi, hlen]
  · rw [h.memPool_used i (by rw [hlen]; omega), List.getElem_take]
  · exact h.memPool_free i (by rw [hlen]; exact hi)
  · exact h.getPool_full (by rw [hlen]; omega) a

/-- Two pools and three registrations: the third finds none free. -/
example :
    (getPoolRun (fun (m : Nat) _ _ _ => m + 1) 2 [⟨0, 8, 4⟩, ⟨8, 8, 4⟩, ⟨16, 8, 4⟩]
      (rkhEvtPoolInit 2 fun _ => ⟨0, 0⟩)).1 = [some 0, some 1, none] := by
  decide

/-! ### Blocks

`rkh_evtPool_getBlockSize`, `rkh_evtPool_get` and `rkh_evtPool_put` pass an entry on to
`rkh_mp_*`, which are not in this source and are parameters here, as `rkh_mp_init` is; a
pointer `me` is `some i` for `&evtPools[i]`. A failed `RKH_REQUIRE` calls `rkh_assert` with
the module's name, and does not return. -/

/-- `RKH_MODULE_NAME(rkhfwk_evtpool)`, the file `rkh_assert` reports. -/
def rkhThisModule : String := "rkhfwk_evtpool"

section Blocks

variable {σ : Type} (evtPools : Nat → RKHEvtPool σ)

def rkhEvtPoolGetBlockSize (bsize : σ → Nat) : Option Nat → Except String (BitVec 8)
  | none => .error rkhThisModule
  | some i => .ok (BitVec.ofNat 8 (bsize (evtPools i).memPool))

def rkhEvtPoolGet (rkhMpGet : σ → Option Nat × σ) :
    Option Nat → Except String (Option Nat × (Nat → RKHEvtPool σ))
  | none => .error rkhThisModule
  | some i =>
    .ok ((rkhMpGet (evtPools i).memPool).1,
      Function.update evtPools i { evtPools i with memPool := (rkhMpGet (evtPools i).memPool).2 })

def rkhEvtPoolPut (rkhMpPut : σ → Nat → σ) :
    Option Nat → Nat → Except String (Nat → RKHEvtPool σ)
  | none, _ => .error rkhThisModule
  | some i, evt =>
    .ok (Function.update evtPools i
      { evtPools i with memPool := rkhMpPut (evtPools i).memPool evt })

def rkhEvtPoolGetNumUsed (_me : Option Nat) : BitVec 8 := 0

def rkhEvtPoolGetNumMin (_me : Option Nat) : BitVec 8 := 0

def rkhEvtPoolGetNumBlock (_me : Option Nat) : BitVec 8 := 0

/-- Each `RKH_REQUIRE` of the module rejects a null pool, reporting the module. -/
theorem rkhEvtPool_require_null (bsize : σ → Nat) (rkhMpGet : σ → Option Nat × σ)
    (rkhMpPut : σ → Nat → σ) (evt : Nat) :
    rkhEvtPoolGetBlockSize evtPools bsize none = .error rkhThisModule ∧
      rkhEvtPoolGet evtPools rkhMpGet none = .error rkhThisModule ∧
      rkhEvtPoolPut evtPools rkhMpPut none evt = .error rkhThisModule :=
  ⟨rfl, rfl, rfl⟩

end Blocks

/-- A call on the blocks of a pool: `rkh_evtPool_get(me)` or `rkh_evtPool_put(me, evt)`. -/
inductive BlockCall
  | get (me : Option Nat)
  | put (me : Option Nat) (evt : Nat)
  deriving DecidableEq, Repr

def BlockCall.me : BlockCall → Option Nat
  | .get me => me
  | .put me _ => me

section BlockRuns

variable {σ : Type} (rkhMpGet : σ → Option Nat × σ) (rkhMpPut : σ → Nat → σ)

/-- One call: the block `get` returned, or `none` for a `put`, and the array after. -/
def BlockCall.step : BlockCall → (Nat → RKHEvtPool σ) →
    Except String (Option Nat × (Nat → RKHEvtPool σ))
  | .get me, evtPools => rkhEvtPoolGet evtPools rkhMpGet me
  | .put me evt, evtPools => (rkhEvtPoolPut evtPools rkhMpPut me evt).map fun e => (none, e)

/-- A sequence of calls, stopped by the first failed `RKH_REQUIRE`. -/
def blockRun : List BlockCall → (Nat → RKHEvtPool σ) →
    Except String (List (Option Nat) × (Nat → RKHEvtPool σ))
  | [], evtPools => .ok ([], evtPools)
  | c :: cs, evtPools =>
    match c.step rkhMpGet rkhMpPut evtPools with
    | .error e => .error e
    | .ok (o, evtPools') =>
      match blockRun cs evtPools' with
      | .error e => .error e
      | .ok (os, evtPools'') => .ok (o :: os, evtPools'')

theorem BlockCall.step_none {c : BlockCall} (hc : c.me = none) (evtPools : Nat → RKHEvtPool σ) :
    c.step rkhMpGet rkhMpPut evtPools = .error rkhThisModule := by
  cases c <;> cases hc <;> rfl

/-- A call on `&evtPools[i]` succeeds and changes no flag and no other entry. -/
theorem BlockCall.step_some {c : BlockCall} {i : Nat} (hc : c.me = some i)
    (evtPools : Nat → RKHEvtPool σ) :
    ∃ o evtPools', c.step rkhMpGet rkhMpPut evtPools = .ok (o, evtPools') ∧
      (∀ j, (evtPools' j).isUsed = (evtPools j).isUsed) ∧
      ∀ j, j ≠ i → evtPools' j = evtPools j := by
  cases c with
  | get me =>
    cases hc
    refine ⟨_, _, rfl, fun j => ?_, fun j hj => Function.update_noteq hj _ _⟩
    rw [Function.update_apply]
    split <;> simp_all
  | put me evt =>
    cases hc
    refine ⟨_, _, rfl, fun j => ?_, fun j hj => Function.update_noteq hj _ _⟩
    rw [Function.update_apply]
    split <;> simp_all

/-- Calls on non-null pools all succeed, keep every used flag and every entry no call names. -/
theorem blockRun_ok (calls : List BlockCall) (h : ∀ c ∈ calls, c.me ≠ none)
    (evtPools : Nat → RKHEvtPool σ) :
    ∃ outs evtPools', blockRun rkhMpGet rkhMpPut calls evtPools = .ok (outs, evtPools') ∧
      outs.length = calls.length ∧ (∀ j, (evtPools' j).isUsed = (evtPools j).isUsed) ∧
      ∀ j, (∀ c ∈ calls, c.me ≠ some j) → evtPools' j = evtPools j := by
  induction calls generalizing evtPools with
  | nil => exact ⟨[], evtPools, rfl, rfl, fun _ => rfl, fun _ _ => rfl⟩
  | cons c cs ih =>
    obtain ⟨i, hme⟩ := Option.ne_none_iff_exists'.mp (h c (List.mem_cons_self _ _))
    obtain ⟨o, evtPools', hstep, hused, hframe⟩ :=
      BlockCall.step_some rkhMpGet rkhMpPut hme evtPools
    obtain ⟨outs, evtPools'', hrun, hlen, hused', hframe'⟩ :=
      ih (fun c' hc' => h c' (List.mem_cons_of_mem _ hc')) evtPools'
    refine ⟨o :: outs, evtPools'', by rw [blockRun, hstep]; simp only [hrun],
      by simp [hlen], fun j => (hused' j).trans (hused j), fun j hj => ?_⟩
    rw [hframe' j fun c' hc' => hj c' (List.mem_cons_of_mem _ hc'),
      hframe j fun hji => hj c (List.mem_cons_self _ _) (hji ▸ hme)]

/-- A null pool among the calls stops the run in `rkh_assert`. -/
theorem blockRun_error (calls : List BlockCall) (h : ∃ c ∈ calls, c.me = none)
    (evtPools : Nat → RKHEvtPool σ) :
    blockRun rkhMpGet rkhMpPut calls evtPools = .error rkhThisModule := by
  induction calls generalizing evtPools with
  | nil => simp at h
  | cons c cs ih =>
    rcases hme : c.me with _ | i
    · rw [blockRun, BlockCall.step_none rkhMpGet rkhMpPut hme]
    obtain ⟨c', hc', hnull⟩ := h
    have hcs : c' ∈ cs := (List.mem_cons.mp hc').resolve_left fun hcc =>
      Option.noConfusion (hme.symm.trans (hcc ▸ hnull))
    obtain ⟨o, evtPools', hstep, -⟩ := BlockCall.step_some rkhMpGet rkhMpPut hme evtPools
    rw [blockRun, hstep]
    simp only [ih ⟨c', hcs, hnull⟩]

end BlockRuns

/-- Which entry `getPool` hands out depends only on the used flags. -/
theorem getPoolLoop_fst_congr {σ : Type} (rkhMpInit : σ → Nat → BitVec 16 → Nat → σ)
    (stoStart : Nat) (stoSize : BitVec 16) (evtSize : Nat) {evtPools evtPools' : Nat → RKHEvtPool σ}
    (h : ∀ j, (evtPools j).isUsed = (evtPools' j).isUsed) (i n : Nat) :
    (getPoolLoop rkhMpInit stoStart stoSize evtSize i n evtPools).1 =
      (getPoolLoop rkhMpInit stoStart stoSize evtSize i n evtPools').1 := by
  induction n generalizing i with
  | zero => rfl
  | succ n ih =>
    rw [getPoolLoop, getPoolLoop, h i]
    split
    · rfl
    · exact ih (i + 1)

/-- A get on a null pool after a good one stops the run. -/
example :
    blockRun (fun m : Nat => (some m, m + 1)) (fun m _ => m - 1)
      [BlockCall.get (some 0), .get none] (fun _ => ⟨0, 1⟩) = .error rkhThisModule :=
  rfl

end Rkh.Fwk
