import Rkh.Trace.SlotFilter

/-!
# The active-object trace filter

`rkh_trc_sma_isoff_` and `rkh_trc_filter_sma_`, which `RKH_TRC_BEGIN` and the filter macros
`RKH_FILTER_ON_SMA` and `RKH_FILTER_OFF_SMA` of `rkhtrc.h` call; their definitions in this
source are those of the earlier revision of `rkhtrc.c`. The table `trcsmaftbl` holds one bit
per priority of an active object, set while its trace points are suppressed (`FILTER_ON`).
The priority `NVS`, that is `RKH_MAX_SMA`, marks a trace point of no active object and always
passes.

The abstract filter is the set of suppressed priorities; `SmaTableHolds` ties the table to it.
The later revision drops both functions and keeps `trcsmaftbl` behind the slot filter `fsma`,
whose set bit lets a priority through: the two are one filter over inverted tables.
-/

namespace Rkh.Trace

set_option autoImplicit false

section Code

variable (rkhMaxSma : Nat)

/-- `RKH_TRC_MAX_SMA`: the bytes of `trcsmaftbl`, one per eight priorities up to
`RKH_MAX_SMA = 64`; past 64 the macro is not defined, and reads as 0 here. -/
def rkhTrcMaxSma : Nat :=
  if rkhMaxSma ≤ 8 then 1
  else if rkhMaxSma ≤ 16 then 2
  else if rkhMaxSma ≤ 24 then 3
  else if rkhMaxSma ≤ 32 then 4
  else if rkhMaxSma ≤ 40 then 5
  else if rkhMaxSma ≤ 48 then 6
  else if rkhMaxSma ≤ 56 then 7
  else if rkhMaxSma ≤ 64 then 8
  else 0

/-- `rkh_trc_sma_isoff_`: whether trace points of priority `prio` pass the filter. -/
def rkhTrcSmaIsoff (trcsmaftbl : Nat → BitVec 8) (prio : BitVec 8) : Bool :=
  if prio.toNat = rkhMaxSma then true
  else (trcsmaftbl (prio >>> 3).toNat &&& rkhMaptbl (prio &&& 7).toNat) == 0

end Code

/-- `rkh_trc_filter_sma_`: `FILTER_ON` sets the bit of `prio` in `trcsmaftbl`, any other
value of `ctrl` clears it. -/
def rkhTrcFilterSma (ctrl prio : BitVec 8) (trcsmaftbl : Nat → BitVec 8) : Nat → BitVec 8 :=
  let y := prio >>> 3
  let x := prio &&& 7
  if ctrl = filterOn then
    Function.update trcsmaftbl y.toNat (trcsmaftbl y.toNat ||| rkhMaptbl x.toNat)
  else
    Function.update trcsmaftbl y.toNat (trcsmaftbl y.toNat &&& ~~~rkhMaptbl x.toNat)

/-- The set of priorities a table suppresses: the bit of `p` in row `p / 8`. -/
def smaSet (trcsmaftbl : Nat → BitVec 8) (p : Nat) : Bool :=
  (trcsmaftbl (p / 8)).getLsbD (p % 8)

/-! ### Rows, bits and bounds -/

theorem toNat_ushiftRight_three (x : BitVec 8) : (x >>> 3).toNat = x.toNat / 8 := by
  rw [BitVec.toNat_ushiftRight, Nat.shiftRight_eq_div_pow]

theorem toNat_and_seven (x : BitVec 8) : (x &&& 7).toNat = x.toNat % 8 := by
  rw [BitVec.toNat_and, show (7 : BitVec 8).toNat = 2 ^ 3 - 1 from rfl,
    Nat.and_pow_two_sub_one_eq_mod]

theorem rkhTrcMaxSma_ge : ∀ n < 65, (n + 7) / 8 ≤ rkhTrcMaxSma n := by decide

theorem prio_row_lt {rkhMaxSma p : Nat} (hp : p < rkhMaxSma) (hmax : rkhMaxSma ≤ 64) :
    p / 8 < rkhTrcMaxSma rkhMaxSma := by
  have := rkhTrcMaxSma_ge rkhMaxSma (by omega)
  omega

/-- `rkh_trc_filter_sma_` with the row and bit it computes named. -/
theorem rkhTrcFilterSma_eq (ctrl prio : BitVec 8) (t : Nat → BitVec 8) :
    rkhTrcFilterSma ctrl prio t =
      Function.update t (prio.toNat / 8) (if ctrl = filterOn then
        t (prio.toNat / 8) ||| rkhMaptbl (prio.toNat % 8)
        else t (prio.toNat / 8) &&& ~~~rkhMaptbl (prio.toNat % 8)) := by
  simp only [rkhTrcFilterSma, toNat_ushiftRight_three, toNat_and_seven]
  split <;> rfl

/-- A call for a registered priority writes no row of `trcsmaftbl` past `RKH_TRC_MAX_SMA`. -/
theorem rkhTrcFilterSma_of_le {rkhMaxSma : Nat} (hmax : rkhMaxSma ≤ 64) (ctrl : BitVec 8)
    {prio : BitVec 8} (hp : prio.toNat < rkhMaxSma) (t : Nat → BitVec 8) {i : Nat}
    (hi : rkhTrcMaxSma rkhMaxSma ≤ i) : rkhTrcFilterSma ctrl prio t i = t i := by
  rw [rkhTrcFilterSma_eq]
  exact Function.update_noteq (by have := prio_row_lt hp hmax; omega) _ _

/-- Past `NVS`, `rkh_trc_sma_isoff_` passes a priority when its bit is clear. -/
theorem rkhTrcSmaIsoff_of_ne {rkhMaxSma : Nat} {prio : BitVec 8} (hn : prio.toNat ≠ rkhMaxSma)
    (t : Nat → BitVec 8) : rkhTrcSmaIsoff rkhMaxSma t prio = !smaSet t prio.toNat := by
  rw [rkhTrcSmaIsoff, if_neg hn, toNat_ushiftRight_three, toNat_and_seven, smaSet,
    ← and_rkhMaptbl_ne_zero _ (Nat.mod_lt _ (by decide)), bne, Bool.not_not]

/-! ### The abstract filter -/

/-- The table holds the set `S` of suppressed priorities, for every registered priority. -/
def SmaTableHolds (rkhMaxSma : Nat) (trcsmaftbl : Nat → BitVec 8) (S : Nat → Bool) : Prop :=
  ∀ p < rkhMaxSma, smaSet trcsmaftbl p = S p

section Steps

variable {rkhMaxSma : Nat} {t : Nat → BitVec 8} {S : Nat → Bool}

/-- `FILTER_ON` adds the priority to the suppressed set, any other value removes it. -/
theorem SmaTableHolds.filterSma (h : SmaTableHolds rkhMaxSma t S) (ctrl prio : BitVec 8) :
    SmaTableHolds rkhMaxSma (rkhTrcFilterSma ctrl prio t)
      (Function.update S prio.toNat (decide (ctrl = filterOn))) := by
  intro p hp
  have hiff : prio.toNat / 8 = p / 8 ∧ prio.toNat % 8 = p % 8 ↔ p = prio.toNat := by omega
  rw [smaSet, rkhTrcFilterSma_eq, getLsbD_update_setOrClear _ _ (Nat.mod_lt _ (by decide)),
    Function.update_apply, ← smaSet, h p hp]
  simp only [hiff]

/-- `rkh_trc_sma_isoff_` passes `NVS` and every priority outside the suppressed set. -/
theorem SmaTableHolds.isoff (h : SmaTableHolds rkhMaxSma t S) {prio : BitVec 8}
    (hp : prio.toNat ≤ rkhMaxSma) :
    rkhTrcSmaIsoff rkhMaxSma t prio = (decide (prio.toNat = rkhMaxSma) || !S prio.toNat) := by
  by_cases hn : prio.toNat = rkhMaxSma
  · simp [rkhTrcSmaIsoff, hn]
  · rw [rkhTrcSmaIsoff_of_ne hn, h _ (by omega), decide_eq_false hn, Bool.false_or]

end Steps

/-! ### The later revision

The later `rkhtrc.c` keeps `trcsmaftbl` behind `fsma` and reads it with
`rkh_trc_simfil_isoff(&fsma, prio)`, which lets a priority through when its bit is set, the
opposite of `rkh_trc_sma_isoff_`. `RKH_FILTER_ON_SMA` becomes `rkh_trc_simfil(&fsma, prio,
FILTER_ON)`, which clears the bit that `rkh_trc_filter_sma_` sets. -/

/-- A run of `rkh_trc_filter_sma_` calls, each a `ctrl` and a priority. -/
def filterSmaRun (calls : List (BitVec 8 × BitVec 8)) (t : Nat → BitVec 8) : Nat → BitVec 8 :=
  calls.foldl (fun t c => rkhTrcFilterSma c.1 c.2 t) t

/-- The same call in the later revision: `rkh_trc_simfil(&fsma, prio, ctrl)`. -/
def smaSimfilCall (c : BitVec 8 × BitVec 8) : SimfilCall 8 := ⟨c.2, c.1, false⟩

def invTbl (t : Nat → BitVec 8) (i : Nat) : BitVec 8 := ~~~t i

theorem prio_row_mod (prio : BitVec 8) : prio.toNat / 8 % 256 = prio.toNat / 8 :=
  Nat.mod_eq_of_lt (by have := prio.isLt; omega)

/-- `rkh_trc_simfil_isoff` on `fsma` lets a priority through when its bit is set. -/
theorem rkhTrcSimfilIsoff_prio (size : BitVec 8) (t : Nat → BitVec 8) (prio : BitVec 8) :
    rkhTrcSimfilIsoff ⟨size, t⟩ prio = smaSet t prio.toNat := by
  rw [rkhTrcSimfilIsoff, slot_row_toNat, slot_bit_toNat, prio_row_mod,
    and_rkhMaptbl_ne_zero _ (Nat.mod_lt _ (by decide)), smaSet]

theorem not_setOrClear (p : Prop) [Decidable p] (b m : BitVec 8) :
    ~~~(if p then b ||| m else b &&& ~~~m) = if ¬p then ~~~b ||| m else ~~~b &&& ~~~m := by
  by_cases hp : p <;> ext i <;> simp [hp]

/-- One call commutes with inverting the table. -/
theorem rkhTrcSimfil_invTbl (mb : ModeBits) {ctrl : BitVec 8}
    (hc : ctrl = filterOn ∨ ctrl = filterOff) (prio size : BitVec 8)
    (t : Nat → BitVec 8) :
    rkhTrcSimfil mb ⟨size, invTbl t⟩ prio ctrl =
      ⟨size, invTbl (rkhTrcFilterSma ctrl prio t)⟩ := by
  have hoff : ctrl = filterOff ↔ ¬ctrl = filterOn := by
    rcases hc with rfl | rfl <;> decide
  rw [rkhTrcSimfil_slot mb _ _ hc, rkhTrcFilterSma_eq, prio_row_mod]
  congr 1
  funext i
  simp only [invTbl, Function.update_apply]
  split <;> simp only [not_setOrClear, hoff]

theorem simfilRun_invTbl (mb : ModeBits) (calls : List (BitVec 8 × BitVec 8))
    (hcalls : ∀ c ∈ calls, c.1 = filterOn ∨ c.1 = filterOff) (size : BitVec 8)
    (t : Nat → BitVec 8) :
    simfilRun mb (calls.map smaSimfilCall) ⟨size, invTbl t⟩ =
      ⟨size, invTbl (filterSmaRun calls t)⟩ := by
  induction calls generalizing t with
  | nil => rfl
  | cons c calls ih =>
    rw [List.map_cons, simfilRun, List.foldl_cons, ← simfilRun, SimfilCall.apply,
      smaSimfilCall, SimfilCall.mode, if_neg Bool.false_ne_true,
      rkhTrcSimfil_invTbl mb (hcalls c (List.mem_cons_self _ _)),
      ih (fun c' hc' => hcalls c' (List.mem_cons_of_mem _ hc'))]
    rfl

/-- The two revisions of the active-object filter are one filter over inverted tables: the
calls keep the tables inverted, and both read the same answer off them for all but `NVS`. -/
theorem sma_filter_revisions_agree (mb : ModeBits) (rkhMaxSma : Nat) (size : BitVec 8)
    (calls : List (BitVec 8 × BitVec 8))
    (hcalls : ∀ c ∈ calls, c.1 = filterOn ∨ c.1 = filterOff)
    (t : Nat → BitVec 8) (prio : BitVec 8) (hp : prio.toNat ≠ rkhMaxSma) :
    simfilRun mb (calls.map smaSimfilCall) ⟨size, invTbl t⟩ =
        ⟨size, invTbl (filterSmaRun calls t)⟩ ∧
      rkhTrcSmaIsoff rkhMaxSma t prio = !rkhTrcSimfilIsoff ⟨size, t⟩ prio ∧
      rkhTrcSmaIsoff rkhMaxSma (filterSmaRun calls t) prio =
        rkhTrcSimfilIsoff (simfilRun mb (calls.map smaSimfilCall) ⟨size, invTbl t⟩) prio := by
  have hinv : ∀ u : Nat → BitVec 8, smaSet (invTbl u) prio.toNat = !smaSet u prio.toNat :=
    fun u => by simp [smaSet, invTbl, Nat.mod_lt _ (show 8 > 0 by decide)]
  have hrun := simfilRun_invTbl mb calls hcalls size t
  rw [hrun, rkhTrcSimfilIsoff_prio, rkhTrcSimfilIsoff_prio, rkhTrcSmaIsoff_of_ne hp,
    rkhTrcSmaIsoff_of_ne hp, hinv]
  exact ⟨rfl, rfl, rfl⟩

theorem sma_filter_revisions_agree_fsma :
    ((∀ c ∈ [(filterOn, (1 : BitVec 8)), (filterOff, 2)],
        c.1 = filterOn ∨ c.1 = filterOff) ∧
        (1 : BitVec 8).toNat ≠ 4) ∧
      simfilRun modeBitsBit7 ([(filterOn, (1 : BitVec 8)), (filterOff, 2)].map smaSimfilCall)
          ⟨1, invTbl fun _ => 0⟩ =
        ⟨1, invTbl (filterSmaRun [(filterOn, 1), (filterOff, 2)] fun _ => 0)⟩ ∧
      rkhTrcSmaIsoff 4 (fun _ => 0) 1 = !rkhTrcSimfilIsoff ⟨1, fun _ => 0⟩ (1 : BitVec 8) ∧
      rkhTrcSmaIsoff 4 (filterSmaRun [(filterOn, 1), (filterOff, 2)] fun _ => 0) 1 =
        rkhTrcSimfilIsoff (simfilRun modeBitsBit7
          ([(filterOn, (1 : BitVec 8)), (filterOff, 2)].map smaSimfilCall)
          ⟨1, invTbl fun _ => 0⟩) (1 : BitVec 8) :=
  ⟨⟨by decide, by decide⟩,
    sma_filter_revisions_agree modeBitsBit7 4 1 _ (by decide) _ 1 (by decide)⟩

/-- From the zeroed static table, the earlier revision lets priority 1 through and the later
one suppresses it. -/
example :
    rkhTrcSmaIsoff 4 (fun _ => 0) 1 = true ∧
      rkhTrcSimfilIsoff ⟨1, fun _ => 0⟩ (1 : BitVec 8) = false := by
  decide

end Rkh.Trace
