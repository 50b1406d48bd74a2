import Mathlib.Logic.Function.Basic
import Mathlib.Data.BitVec

/-!
# Group and event trace filters

`rkh_trc_isoff_`, `rkh_trc_filter_group_` and `rkh_trc_filter_event_` of `rkhtrc.c`.
An event id is `| G | G | G | E | E | E | E | E |`: a group and an index inside it. The
table `trceftbl` holds one bit per event; group `g` owns the bytes
`offset g .. offset g + range g - 1`, both read from `trcgmtbl`. `trcgfilter` holds one
bit per group. An event is off when its group bit and its own bit are both set.

The abstract filter is a set of groups and a set of events (`FilterSets`); `TablesHold` ties
the tables to it, and every filter call preserves `TablesHold`.
-/

namespace Rkh.Trace

set_option autoImplicit false

/-- Modelled from the spec: `rkh_maptbl` of `rkh.c`, which is not in this source, maps a
bit position `i` to the mask `1 << i`. -/
def rkhMaptbl (i : Nat) : BitVec 8 := 1#8 <<< i

def filterOn : BitVec 8 := 0

def filterOff : BitVec 8 := 1

/-- `ECHANGE`: a group filter call that also sets or clears all the group's events. -/
def eChange : BitVec 8 := 0

/-- `EUNCHANGE`: a group filter call that leaves the group's events as they are. -/
def eUnchange : BitVec 8 := 1

/-- `RKH_TRC_ALL_GROUPS`, that is `RKH_TG_NGROUP`. -/
def rkhTrcAllGroups : BitVec 8 := 7

/-- `RKH_TRC_ALL_EVENTS`, that is `RKH_TE_NEVENT`. -/
def rkhTrcAllEvents : BitVec 8 := 255

/-- `RKH_MP_TTBL_RANGE` .. `RKH_USR_TTBL_RANGE`: the bytes of `trceftbl` each group owns. -/
def ttblRange : Nat → Nat
  | 0 => 1
  | 1 => 1
  | 2 => 1
  | 3 => 3
  | 4 => 1
  | 5 => 3
  | 6 => 4
  | _ => 0

/-- `RKH_MP_TTBL_OFFSET` .. `RKH_USR_TTBL_OFFSET`: each group's bytes follow the previous
group's. -/
def ttblOffset : Nat → Nat
  | 0 => 0
  | g + 1 => ttblOffset g + ttblRange g

/-- `RKH_TRC_MAX_EVENTS_IN_BYTES`, the sum of the ranges. -/
def rkhTrcMaxEventsInBytes : Nat := ttblOffset 7

/-- `trcgmtbl`: the group's offset in the high nibble, its range in the low one. The table
has seven entries; past them it reads as 0 here. -/
def trcgmtbl (g : Nat) : BitVec 8 :=
  if g < 7 then BitVec.ofNat 8 (ttblOffset g <<< 4 ||| ttblRange g) else 0

def getGrp (e : BitVec 8) : BitVec 8 := (e &&& 0xE0) >>> 5

def getEvt (e : BitVec 8) : BitVec 8 := e &&& 0x1F

/-- The static filter tables `trceftbl` and `trcgfilter`. -/
structure TrcFilter where
  trceftbl : Nat → BitVec 8
  trcgfilter : BitVec 8

def rkhTrcIsoff (f : TrcFilter) (e : BitVec 8) : Bool :=
  let evt := getEvt e
  let grp := getGrp e
  (f.trcgfilter &&& rkhMaptbl grp.toNat != 0) &&
    (f.trceftbl ((trcgmtbl grp.toNat >>> 4) + (evt >>> 3)).toNat &&& rkhMaptbl (evt &&& 7).toNat
      != 0)

/-- The loop of the filter calls that sets `n` bytes from `p` on to `c`. -/
def fillLoop (c : BitVec 8) : Nat → Nat → (Nat → BitVec 8) → Nat → BitVec 8
  | _, 0, t => t
  | p, n + 1, t => fillLoop c (p + 1) n (Function.update t p c)

def rkhTrcFilterGroup (ctrl grp mode : BitVec 8) (f : TrcFilter) : TrcFilter :=
  if grp = rkhTrcAllGroups then
    { f with trcgfilter := if ctrl = filterOff then 0xFF else 0 }
  else
    let f := { f with
      trcgfilter := if ctrl = filterOff then f.trcgfilter ||| rkhMaptbl grp.toNat
        else f.trcgfilter &&& ~~~rkhMaptbl grp.toNat }
    if mode = eChange then
      let offset := trcgmtbl grp.toNat >>> 4
      let range := trcgmtbl grp.toNat &&& 0x0F
      { f with
        trceftbl := fillLoop (if ctrl = filterOff then 0xFF else 0) offset.toNat range.toNat
          f.trceftbl }
    else f

def rkhTrcFilterEvent (ctrl evt : BitVec 8) (f : TrcFilter) : TrcFilter :=
  if evt = rkhTrcAllEvents then
    let c : BitVec 8 := if ctrl = filterOff then 0xFF else 0
    { trceftbl := fillLoop c 0 rkhTrcMaxEventsInBytes f.trceftbl, trcgfilter := c }
  else
    let e := getEvt evt
    let grp := getGrp evt
    let offset := (trcgmtbl grp.toNat >>> 4) + (e >>> 3)
    if ctrl = filterOff then
      { trceftbl := Function.update f.trceftbl offset.toNat
          (f.trceftbl offset.toNat ||| rkhMaptbl (e &&& 7).toNat)
        trcgfilter := f.trcgfilter ||| rkhMaptbl grp.toNat }
    else
      { f with
        trceftbl := Function.update f.trceftbl offset.toNat
          (f.trceftbl offset.toNat &&& ~~~rkhMaptbl (e &&& 7).toNat) }

/-! ### Bits and event ids -/

theorem rkhMaptbl_eq_twoPow (i : Nat) : rkhMaptbl i = BitVec.twoPow 8 i := rfl

@[simp] theorem getLsbD_rkhMaptbl (i j : Nat) :
    (rkhMaptbl i).getLsbD j = (decide (i < 8) && decide (i = j)) := by
  rw [rkhMaptbl_eq_twoPow, BitVec.getLsbD_twoPow]

/-- Testing a byte against a mask of `rkh_maptbl` reads one bit. -/
theorem and_rkhMaptbl_ne_zero (b : BitVec 8) {i : Nat} (hi : i < 8) :
    (b &&& rkhMaptbl i != 0) = b.getLsbD i := by
  have hne : BitVec.twoPow 8 i ≠ 0#8 := fun h0 => by
    simpa [BitVec.getLsbD_twoPow, hi] using congrArg (·.getLsbD i) h0
  rw [rkhMaptbl_eq_twoPow, BitVec.and_twoPow]
  cases b.getLsbD i <;> simp [hne]

@[simp] theorem getLsbD_fillByte (ctrl : BitVec 8) {j : Nat} (hj : j < 8) :
    (if ctrl = filterOff then (0xFF : BitVec 8) else 0).getLsbD j = decide (ctrl = filterOff) := by
  have hff : ∀ j < 8, (0xFF : BitVec 8).getLsbD j = true := by decide
  split <;> simp_all

theorem getGrp_eq (e : BitVec 8) : getGrp e = e >>> 5 := by
  ext i
  have hmask : ∀ j < 3, (0xE0 : BitVec 8).getLsbD (5 + j) = true := by decide
  simp only [getGrp, BitVec.getLsbD_ushiftRight, BitVec.getLsbD_and]
  by_cases h3 : (i : Nat) < 3
  · rw [hmask _ h3, Bool.and_true]
  · simp [BitVec.getLsbD_ge e (5 + i) (by omega)]

theorem getGrp_toNat (e : BitVec 8) : (getGrp e).toNat = e.toNat / 32 := by
  rw [getGrp_eq, BitVec.toNat_ushiftRight, Nat.shiftRight_eq_div_pow]

theorem getEvt_toNat (e : BitVec 8) : (getEvt e).toNat = e.toNat % 32 := by
  simp only [getEvt, BitVec.toNat_and]
  exact Nat.and_pow_two_sub_one_eq_mod e.toNat 5

/-! ### The layout of `trceftbl` -/

/-- An event id whose group exists and whose index lies inside the group's bytes. -/
def ValidEvt (e : Nat) : Prop := e / 32 < 7 ∧ e % 32 < 8 * ttblRange (e / 32)

instance (e : Nat) : Decidable (ValidEvt e) := inferInstanceAs (Decidable (_ ∧ _))

/-- The byte of `trceftbl` that holds event `e`. -/
def evtByte (e : Nat) : Nat := ttblOffset (e / 32) + e % 32 / 8

theorem ttblOffset_mono {g g' : Nat} (h : g ≤ g') : ttblOffset g ≤ ttblOffset g' := by
  induction h with
  | refl => exact Nat.le_refl _
  | step _ ih => exact ih.trans (Nat.le_add_right _ _)

theorem ttblOffset_end_le {g g' : Nat} (h : g < g') :
    ttblOffset g + ttblRange g ≤ ttblOffset g' :=
  ttblOffset_mono h

/-- The bytes of distinct groups do not overlap. -/
theorem group_of_byte {g g' i : Nat}
    (hg : ttblOffset g ≤ i ∧ i < ttblOffset g + ttblRange g)
    (hg' : ttblOffset g' ≤ i ∧ i < ttblOffset g' + ttblRange g') : g = g' := by
  rcases Nat.lt_trichotomy g g' with h | h | h
  · have := ttblOffset_end_le h
    omega
  · exact h
  · have := ttblOffset_end_le h
    omega

theorem evtByte_mem {e : Nat} (he : ValidEvt e) :
    ttblOffset (e / 32) ≤ evtByte e ∧ evtByte e < ttblOffset (e / 32) + ttblRange (e / 32) := by
  unfold evtByte
  have := he.2
  omega

theorem evtByte_lt {e : Nat} (he : ValidEvt e) : evtByte e < rkhTrcMaxEventsInBytes :=
  Nat.lt_of_lt_of_le (evtByte_mem he).2 (ttblOffset_end_le he.1)

theorem ne_allEvents_of_valid {evt : BitVec 8} (he : ValidEvt evt.toNat) :
    evt ≠ rkhTrcAllEvents := by
  rintro rfl
  exact absurd he (by decide)

/-- A valid event lies in a group's bytes exactly when it belongs to the group. -/
theorem evtByte_mem_iff {e g : Nat} (he : ValidEvt e) :
    (ttblOffset g ≤ evtByte e ∧ evtByte e < ttblOffset g + ttblRange g) ↔ e / 32 = g := by
  constructor
  · exact fun h => group_of_byte (evtByte_mem he) h
  · rintro rfl
    exact evtByte_mem he

theorem evt_bit_inj {e e' : Nat} (he : ValidEvt e) (he' : ValidEvt e')
    (hb : evtByte e = evtByte e') (hx : e % 8 = e' % 8) : e = e' := by
  have hg := group_of_byte (hb ▸ evtByte_mem he) (evtByte_mem he')
  unfold evtByte at hb
  rw [hg] at hb
  omega

theorem trcgmtbl_offset {g : Nat} (hg : g < 7) : (trcgmtbl g >>> 4).toNat = ttblOffset g := by
  revert g
  decide

theorem trcgmtbl_range {g : Nat} (hg : g < 7) : (trcgmtbl g &&& 0x0F).toNat = ttblRange g := by
  revert g
  decide

/-- The byte `rkh_trc_isoff_` and `rkh_trc_filter_event_` compute for a valid event. -/
theorem evt_offset_toNat {e : BitVec 8} (he : ValidEvt e.toNat) :
    ((trcgmtbl (getGrp e).toNat >>> 4) + (getEvt e >>> 3)).toNat = evtByte e.toNat := by
  have hlt := evtByte_lt he
  simp only [rkhTrcMaxEventsInBytes, ttblOffset, ttblRange] at hlt
  simp only [BitVec.toNat_add, BitVec.toNat_ushiftRight, getGrp_toNat, getEvt_toNat,
    trcgmtbl_offset he.1, evtByte, Nat.shiftRight_eq_div_pow] at hlt ⊢
  omega

theorem evt_bit_toNat (e : BitVec 8) : (getEvt e &&& 7).toNat = e.toNat % 8 := by
  rw [BitVec.toNat_and, getEvt_toNat]
  rw [show (7 : BitVec 8).toNat = 2 ^ 3 - 1 from rfl, Nat.and_pow_two_sub_one_eq_mod]
  omega

theorem fillLoop_apply (c : BitVec 8) (p n : Nat) (t : Nat → BitVec 8) (i : Nat) :
    fillLoop c p n t i = if p ≤ i ∧ i < p + n then c else t i := by
  induction n generalizing p t with
  | zero => rw [fillLoop, if_neg (by omega)]
  | succ n ih =>
    simp only [fillLoop, ih, Function.update_apply]
    split_ifs <;> first | rfl | omega

/-! ### The abstract filter -/

/-- What the filter tables stand for: the set of filtered groups and of filtered events. -/
structure FilterSets where
  groups : Nat → Bool
  events : Nat → Bool

/-- The sets a filter call leaves behind; `ctrl = FILTER_OFF` adds, any other value removes. -/
def FilterSets.filterGroup (ctrl grp mode : BitVec 8) (A : FilterSets) : FilterSets :=
  if grp = rkhTrcAllGroups then { A with groups := fun _ => decide (ctrl = filterOff) }
  else
    { groups := Function.update A.groups grp.toNat (decide (ctrl = filterOff))
      events := if mode = eChange then
          fun e => if e / 32 = grp.toNat ∧ ValidEvt e then decide (ctrl = filterOff)
            else A.events e
        else A.events }

def FilterSets.filterEvent (ctrl evt : BitVec 8) (A : FilterSets) : FilterSets :=
  if evt = rkhTrcAllEvents then
    { groups := fun _ => decide (ctrl = filterOff), events := fun _ => decide (ctrl = filterOff) }
  else if ctrl = filterOff then
    { groups := Function.update A.groups (evt.toNat / 32) true
      events := Function.update A.events evt.toNat true }
  else { A with events := Function.update A.events evt.toNat false }

def TrcFilter.sets (f : TrcFilter) : FilterSets where
  groups g := f.trcgfilter.getLsbD g
  events e := (f.trceftbl (evtByte e)).getLsbD (e % 8)

/-- The tables hold the sets `A`: the bit of every group and of every valid event. -/
structure TablesHold (f : TrcFilter) (A : FilterSets) : Prop where
  groups : ∀ g < 7, f.trcgfilter.getLsbD g = A.groups g
  events : ∀ e, ValidEvt e → (f.trceftbl (evtByte e)).getLsbD (e % 8) = A.events e

theorem tablesHold_sets (f : TrcFilter) : TablesHold f f.sets :=
  ⟨fun _ _ => rfl, fun _ _ => rfl⟩

/-- `rkh_trc_isoff_` answers membership in the sets the tables hold. -/
theorem TablesHold.isoff {f : TrcFilter} {A : FilterSets} (h : TablesHold f A) {e : BitVec 8}
    (he : ValidEvt e.toNat) :
    rkhTrcIsoff f e = (A.groups (e.toNat / 32) && A.events e.toNat) := by
  have hg : (getGrp e).toNat < 8 := by rw [getGrp_toNat]; exact Nat.lt_succ_of_lt he.1
  have hx : (getEvt e &&& 7).toNat < 8 := by rw [evt_bit_toNat]; exact Nat.mod_lt _ (by decide)
  rw [rkhTrcIsoff, and_rkhMaptbl_ne_zero _ hg, and_rkhMaptbl_ne_zero _ hx, evt_offset_toNat he,
    evt_bit_toNat, getGrp_toNat, h.groups _ he.1, h.events _ he]

/-- The bit `j` after a call sets (when `p`) or clears bit `i` of `b`, as every filter call
does. -/
theorem getLsbD_setOrClear (p : Prop) [Decidable p] (b : BitVec 8) (i : Nat) {j : Nat}
    (hj : j < 8) :
    (if p then b ||| rkhMaptbl i else b &&& ~~~rkhMaptbl i).getLsbD j =
      if i = j then decide p else b.getLsbD j := by
  by_cases hc : p <;> by_cases hij : i = j <;>
    simp [hc, hij, hj, BitVec.getLsbD_or, BitVec.getLsbD_and, BitVec.getLsbD_not]

/-- Bit `y` of byte `j` after a call sets or clears bit `x` of byte `i`. -/
theorem getLsbD_update_setOrClear (tbl : Nat → BitVec 8) (p : Prop) [Decidable p]
    {i x j y : Nat} (hy : y < 8) :
    (Function.update tbl i (if p then tbl i ||| rkhMaptbl x
        else tbl i &&& ~~~rkhMaptbl x) j).getLsbD y =
      if i = j ∧ x = y then decide p else (tbl j).getLsbD y := by
  rw [Function.update_apply]
  by_cases hij : j = i
  · subst hij
    rw [if_pos rfl, getLsbD_setOrClear _ _ _ hy]
    simp
  · rw [if_neg hij, if_neg fun h => hij h.1.symm]

theorem grp_lt_of_ne_all {grp : BitVec 8} (hgrp : grp.toNat ≤ 7)
    (hall : grp ≠ rkhTrcAllGroups) : grp.toNat < 7 := by
  have : grp.toNat ≠ 7 := fun h7 => hall (BitVec.eq_of_toNat_eq h7)
  omega

theorem rkhTrcFilterGroup_of_ne {ctrl grp mode : BitVec 8} (f : TrcFilter)
    (h : grp ≠ rkhTrcAllGroups) :
    rkhTrcFilterGroup ctrl grp mode f =
      { trceftbl := if mode = eChange then
            fillLoop (if ctrl = filterOff then 0xFF else 0) (trcgmtbl grp.toNat >>> 4).toNat
              (trcgmtbl grp.toNat &&& 0x0F).toNat f.trceftbl
          else f.trceftbl
        trcgfilter := if ctrl = filterOff then f.trcgfilter ||| rkhMaptbl grp.toNat
          else f.trcgfilter &&& ~~~rkhMaptbl grp.toNat } := by
  simp only [rkhTrcFilterGroup, if_neg h]
  split <;> rfl

/-- `rkh_trc_filter_event_` on a valid event, with the byte and bit it computes named. -/
theorem rkhTrcFilterEvent_of_valid {ctrl evt : BitVec 8} (f : TrcFilter) (he : ValidEvt evt.toNat) :
    rkhTrcFilterEvent ctrl evt f =
      { trceftbl := Function.update f.trceftbl (evtByte evt.toNat)
          (if ctrl = filterOff then f.trceftbl (evtByte evt.toNat) ||| rkhMaptbl (evt.toNat % 8)
            else f.trceftbl (evtByte evt.toNat) &&& ~~~rkhMaptbl (evt.toNat % 8))
        trcgfilter := if ctrl = filterOff then f.trcgfilter ||| rkhMaptbl (evt.toNat / 32)
          else f.trcgfilter } := by
  simp only [rkhTrcFilterEvent, if_neg (ne_allEvents_of_valid he)]
  rw [evt_offset_toNat he, evt_bit_toNat, getGrp_toNat]
  split <;> rfl

theorem FilterSets.filterEvent_of_ne {ctrl evt : BitVec 8} (A : FilterSets)
    (h : evt ≠ rkhTrcAllEvents) :
    A.filterEvent ctrl evt =
      { groups := if ctrl = filterOff then Function.update A.groups (evt.toNat / 32) true
          else A.groups
        events := Function.update A.events evt.toNat (decide (ctrl = filterOff)) } := by
  simp only [FilterSets.filterEvent, if_neg h]
  split <;> simp_all

section Steps

variable {f : TrcFilter} {A : FilterSets}

theorem TablesHold.filterGroup (h : TablesHold f A) (ctrl : BitVec 8) {grp : BitVec 8}
    (mode : BitVec 8)
    (hgrp : grp.toNat ≤ 7) :
    TablesHold (rkhTrcFilterGroup ctrl grp mode f) (A.filterGroup ctrl grp mode) := by
  by_cases hall : grp = rkhTrcAllGroups
  · simp only [rkhTrcFilterGroup, FilterSets.filterGroup, if_pos hall]
    exact ⟨fun g hg => getLsbD_fillByte ctrl (by omega), h.events⟩
  have hg7 := grp_lt_of_ne_all hgrp hall
  rw [rkhTrcFilterGroup_of_ne f hall]
  simp only [FilterSets.filterGroup, if_neg hall]
  constructor
  · intro g hg
    dsimp only
    rw [getLsbD_setOrClear _ _ _ (by omega), Function.update_apply, h.groups g hg]
    split_ifs <;> first | rfl | omega
  · intro e he
    dsimp only
    split
    · rw [fillLoop_apply, trcgmtbl_offset hg7, trcgmtbl_range hg7]
      simp only [evtByte_mem_iff he, he, and_true]
      by_cases hge : e / 32 = grp.toNat
      · rw [if_pos hge, if_pos hge]
        exact getLsbD_fillByte _ (Nat.mod_lt _ (by decide))
      · rw [if_neg hge, if_neg hge]
        exact h.events e he
    · exact h.events e he

theorem TablesHold.filterEvent (h : TablesHold f A) (ctrl : BitVec 8) {evt : BitVec 8}
    (hevt : ValidEvt evt.toNat ∨ evt = rkhTrcAllEvents) :
    TablesHold (rkhTrcFilterEvent ctrl evt f) (A.filterEvent ctrl evt) := by
  rcases hevt with hv | hall
  · rw [rkhTrcFilterEvent_of_valid f hv, A.filterEvent_of_ne (ne_allEvents_of_valid hv)]
    constructor
    · intro g hg
      dsimp only
      by_cases hc : ctrl = filterOff
      · rw [if_pos hc, if_pos hc, BitVec.getLsbD_or, getLsbD_rkhMaptbl, Function.update_apply,
          h.groups g hg]
        have : evt.toNat / 32 < 8 := Nat.lt_succ_of_lt hv.1
        by_cases hgg : g = evt.toNat / 32 <;> simp [hgg, this, Ne.symm]
      · rw [if_neg hc, if_neg hc, h.groups g hg]
    · intro e he
      have hiff : evtByte evt.toNat = evtByte e ∧ evt.toNat % 8 = e % 8 ↔ e = evt.toNat :=
        ⟨fun hb => (evt_bit_inj hv he hb.1 hb.2).symm, by rintro rfl; exact ⟨rfl, rfl⟩⟩
      dsimp only
      rw [getLsbD_update_setOrClear _ _ (Nat.mod_lt _ (by decide)), Function.update_apply,
        h.events e he]
      simp only [hiff]
  · subst hall
    simp only [rkhTrcFilterEvent, FilterSets.filterEvent, if_true]
    refine ⟨fun g hg => getLsbD_fillByte ctrl (by omega), fun e he => ?_⟩
    dsimp only
    rw [fillLoop_apply, if_pos ⟨Nat.zero_le _, evtByte_lt he⟩]
    exact getLsbD_fillByte ctrl (Nat.mod_lt _ (by decide))

end Steps

/-! ### Runs of filter calls -/

/-- A call of the runtime filter interface. -/
inductive FilterOp
  | group (ctrl grp mode : BitVec 8)
  | event (ctrl evt : BitVec 8)
  deriving DecidableEq, Repr

/-- The arguments the interface documents: a group or `RKH_TRC_ALL_GROUPS`, a valid event
or `RKH_TRC_ALL_EVENTS`. -/
def FilterOp.WF : FilterOp → Prop
  | group _ grp _ => grp.toNat ≤ 7
  | event _ evt => ValidEvt evt.toNat ∨ evt = rkhTrcAllEvents

instance : DecidablePred FilterOp.WF
  | .group _ grp _ => inferInstanceAs (Decidable (grp.toNat ≤ 7))
  | .event _ evt => inferInstanceAs (Decidable (ValidEvt evt.toNat ∨ evt = rkhTrcAllEvents))

def FilterOp.apply : FilterOp → TrcFilter → TrcFilter
  | group ctrl grp mode => rkhTrcFilterGroup ctrl grp mode
  | event ctrl evt => rkhTrcFilterEvent ctrl evt

def FilterOp.applySets : FilterOp → FilterSets → FilterSets
  | group ctrl grp mode => FilterSets.filterGroup ctrl grp mode
  | event ctrl evt => FilterSets.filterEvent ctrl evt

def filterRun (ops : List FilterOp) (f : TrcFilter) : TrcFilter :=
  ops.foldl (fun f op => op.apply f) f

def setsRun (ops : List FilterOp) (A : FilterSets) : FilterSets :=
  ops.foldl (fun A op => op.applySets A) A

theorem TablesHold.apply {f : TrcFilter} {A : FilterSets} (h : TablesHold f A) {op : FilterOp}
    (hop : op.WF) : TablesHold (op.apply f) (op.applySets A) := by
  cases op with
  | group ctrl grp mode => exact h.filterGroup ctrl mode hop
  | event ctrl evt => exact h.filterEvent ctrl hop

theorem TablesHold.run {f : TrcFilter} {A : FilterSets} (h : TablesHold f A) (ops : List FilterOp)
    (hops : ∀ op ∈ ops, op.WF) : TablesHold (filterRun ops f) (setsRun ops A) := by
  induction ops generalizing f A with
  | nil => exact h
  | cons op ops ih =>
    exact ih (h.apply (hops op (List.mem_cons_self _ _)))
      fun o ho => hops o (List.mem_cons_of_mem _ ho)

theorem trc_filter_refines_sets (ops : List FilterOp) (hops : ∀ op ∈ ops, op.WF) (f : TrcFilter)
    (e : BitVec 8) (he : ValidEvt e.toNat) :
    rkhTrcIsoff (filterRun ops f) e =
      ((setsRun ops f.sets).groups (e.toNat / 32) && (setsRun ops f.sets).events e.toNat) :=
  ((tablesHold_sets f).run ops hops).isoff he

theorem trc_filter_refines_sets_sma :
    ((∀ op ∈ [FilterOp.group filterOff 2 eChange, .event filterOn 0x41], op.WF) ∧
        ValidEvt (0x41 : BitVec 8).toNat) ∧
      rkhTrcIsoff (filterRun [.group filterOff 2 eChange, .event filterOn 0x41] ⟨fun _ => 0, 0⟩)
          0x41 =
        ((setsRun [.group filterOff 2 eChange, .event filterOn 0x41]
            (TrcFilter.sets ⟨fun _ => 0, 0⟩)).groups ((0x41 : BitVec 8).toNat / 32) &&
          (setsRun [.group filterOff 2 eChange, .event filterOn 0x41]
            (TrcFilter.sets ⟨fun _ => 0, 0⟩)).events (0x41 : BitVec 8).toNat) :=
  ⟨⟨by decide, by decide⟩, trc_filter_refines_sets _ (by decide) _ _ (by decide)⟩

/-- Switching a group off with `ECHANGE` and one of its events back on. -/
example :
    rkhTrcIsoff (filterRun [.group filterOff 2 eChange, .event filterOn 0x41] ⟨fun _ => 0, 0⟩)
        0x40 = true ∧
      rkhTrcIsoff (filterRun [.group filterOff 2 eChange, .event filterOn 0x41] ⟨fun _ => 0, 0⟩)
        0x41 = false := by
  decide

/-! ### Bounds of the table accesses -/

/-- A filter call with documented arguments writes no byte of `trceftbl` past
`RKH_TRC_MAX_EVENTS_IN_BYTES`. -/
theorem FilterOp.apply_trceftbl_of_le {op : FilterOp} (hop : op.WF) (f : TrcFilter) {i : Nat}
    (hi : rkhTrcMaxEventsInBytes ≤ i) : (op.apply f).trceftbl i = f.trceftbl i := by
  cases op with
  | group ctrl grp mode =>
    by_cases hall : grp = rkhTrcAllGroups
    · simp only [FilterOp.apply, rkhTrcFilterGroup, if_pos hall]
    have hg7 := grp_lt_of_ne_all hop hall
    have hend := ttblOffset_end_le hg7
    rw [FilterOp.apply, rkhTrcFilterGroup_of_ne f hall]
    dsimp only
    split
    · rw [fillLoop_apply, trcgmtbl_offset hg7, trcgmtbl_range hg7,
        if_neg (by simp only [rkhTrcMaxEventsInBytes] at hi; omega)]
    · rfl
  | event ctrl evt =>
    rcases hop with hv | hall
    · rw [FilterOp.apply, rkhTrcFilterEvent_of_valid f hv]
      exact Function.update_noteq (by have := evtByte_lt hv; omega) _ _
    · subst hall
      simp only [FilterOp.apply, rkhTrcFilterEvent, if_true]
      rw [fillLoop_apply, if_neg (by omega)]

theorem filterRun_trceftbl_of_le (ops : List FilterOp) (hops : ∀ op ∈ ops, op.WF)
    (f : TrcFilter) {i : Nat} (hi : rkhTrcMaxEventsInBytes ≤ i) :
    (filterRun ops f).trceftbl i = f.trceftbl i := by
  induction ops generalizing f with
  | nil => rfl
  | cons op ops ih =>
    rw [filterRun, List.foldl_cons, ← filterRun,
      ih (fun o ho => hops o (List.mem_cons_of_mem _ ho)),
      FilterOp.apply_trceftbl_of_le (hops op (List.mem_cons_self _ _)) f hi]

/-- The group and event filters write no byte of `trceftbl` past
`RKH_TRC_MAX_EVENTS_IN_BYTES`, and every valid event is read inside it. -/
theorem trc_filter_in_bounds (ops : List FilterOp) (hops : ∀ op ∈ ops, op.WF) (f : TrcFilter) :
    (∀ i, rkhTrcMaxEventsInBytes ≤ i → (filterRun ops f).trceftbl i = f.trceftbl i) ∧
      ∀ e : BitVec 8, ValidEvt e.toNat →
        ((trcgmtbl (getGrp e).toNat >>> 4) + (getEvt e >>> 3)).toNat < rkhTrcMaxEventsInBytes :=
  ⟨fun _ hi => filterRun_trceftbl_of_le ops hops f hi,
    fun _ he => (evt_offset_toNat he).symm ▸ evtByte_lt he⟩

theorem trc_filter_in_bounds_sma :
    (∀ op ∈ [FilterOp.group filterOff 2 eChange, .event filterOn 0x41], op.WF) ∧
      (∀ i, rkhTrcMaxEventsInBytes ≤ i →
          (filterRun [.group filterOff 2 eChange, .event filterOn 0x41] ⟨fun _ => 0, 0⟩).trceftbl i =
            (fun _ => 0) i) ∧
        ∀ e : BitVec 8, ValidEvt e.toNat →
          ((trcgmtbl (getGrp e).toNat >>> 4) + (getEvt e >>> 3)).toNat < rkhTrcMaxEventsInBytes :=
  ⟨by decide, trc_filter_in_bounds _ (by decide) _⟩

/-! ### The filter macros

Each macro of `rkhtrc.h` is the call it expands to: `RKH_FILTER_ON_GROUP(grp)` is
`rkhFilterOnGroup grp`, `RKH_FILTER_OFF_GROUP_ALL_EVENTS(grp)` is
`rkhFilterOffGroupAllEvents grp`, and so on. -/

def rkhFilterOnGroup (grp : BitVec 8) : FilterOp := .group filterOn grp eUnchange

def rkhFilterOffGroup (grp : BitVec 8) : FilterOp := .group filterOff grp eUnchange

def rkhFilterOnEvent (evt : BitVec 8) : FilterOp := .event filterOn evt

def rkhFilterOffEvent (evt : BitVec 8) : FilterOp := .event filterOff evt

def rkhFilterOnGroupAllEvents (grp : BitVec 8) : FilterOp := .group filterOn grp eChange

def rkhFilterOffGroupAllEvents (grp : BitVec 8) : FilterOp := .group filterOff grp eChange

/-- `rkh_trc_isoff_` after one filter call, read off the sets the call leaves. -/
theorem isoff_apply {op : FilterOp} (hop : op.WF) (f : TrcFilter) {e : BitVec 8}
    (he : ValidEvt e.toNat) :
    rkhTrcIsoff (op.apply f) e =
      ((op.applySets f.sets).groups (e.toNat / 32) && (op.applySets f.sets).events e.toNat) :=
  ((tablesHold_sets f).apply hop).isoff he

theorem getGrp_ne_all {e : BitVec 8} (he : ValidEvt e.toNat) : getGrp e ≠ rkhTrcAllGroups := by
  intro h
  have h7 : (getGrp e).toNat = 7 := by rw [h]; rfl
  rw [getGrp_toNat] at h7
  exact absurd he.1 (by omega)

theorem groupOp_wf (ctrl mode : BitVec 8) {e : BitVec 8} (he : ValidEvt e.toNat) :
    (FilterOp.group ctrl (getGrp e) mode).WF :=
  show (getGrp e).toNat ≤ 7 by rw [getGrp_toNat]; exact Nat.le_of_lt he.1

/-- The sets a group call on the group of a valid event leaves. -/
theorem applySets_group (ctrl mode : BitVec 8) {e : BitVec 8} (he : ValidEvt e.toNat)
    (A : FilterSets) :
    (FilterOp.group ctrl (getGrp e) mode).applySets A =
      { groups := Function.update A.groups (e.toNat / 32) (decide (ctrl = filterOff))
        events := if mode = eChange then
            fun x => if x / 32 = e.toNat / 32 ∧ ValidEvt x then decide (ctrl = filterOff)
              else A.events x
          else A.events } := by
  simp only [FilterOp.applySets, FilterSets.filterGroup, if_neg (getGrp_ne_all he), getGrp_toNat]

/-- After an event call on `e`, `rkh_trc_isoff_(e)` answers whether the call was `FILTER_OFF`. -/
theorem isoff_event_self (ctrl : BitVec 8) (f : TrcFilter) {e : BitVec 8}
    (he : ValidEvt e.toNat) :
    rkhTrcIsoff ((FilterOp.event ctrl e).apply f) e = decide (ctrl = filterOff) := by
  rw [isoff_apply (show (FilterOp.event ctrl e).WF from Or.inl he) f he]
  by_cases hc : ctrl = filterOff <;>
    simp [FilterOp.applySets, FilterSets.filterEvent_of_ne _ (ne_allEvents_of_valid he), hc]

/-- After a group call on the group of `e`, `rkh_trc_isoff_(e)` answers from the call and, with
`EUNCHANGE`, from the event's own bit. -/
theorem isoff_group_self (ctrl mode : BitVec 8) (f : TrcFilter) {e : BitVec 8}
    (he : ValidEvt e.toNat) :
    rkhTrcIsoff ((FilterOp.group ctrl (getGrp e) mode).apply f) e =
      (decide (ctrl = filterOff) &&
        if mode = eChange then decide (ctrl = filterOff) else f.sets.events e.toNat) := by
  rw [isoff_apply (groupOp_wf _ _ he) f he, applySets_group _ _ he]
  split <;> simp [he]

/-- The filter macros do what `rkhtrc.h` documents, from any filter state and for any valid
event. -/
theorem trc_filter_macros_as_documented (f : TrcFilter) {e : BitVec 8} (he : ValidEvt e.toNat) :
    rkhTrcIsoff ((rkhFilterOffEvent e).apply f) e = true ∧
      rkhTrcIsoff ((rkhFilterOnEvent e).apply f) e = false ∧
      rkhTrcIsoff ((rkhFilterOnGroup (getGrp e)).apply f) e = false ∧
      rkhTrcIsoff ((rkhFilterOnGroupAllEvents (getGrp e)).apply f) e = false ∧
      rkhTrcIsoff ((rkhFilterOffGroupAllEvents (getGrp e)).apply f) e = true ∧
      rkhTrcIsoff ((rkhFilterOffGroup (getGrp e)).apply f) e = f.sets.events e.toNat ∧
      ∀ e' : BitVec 8, ValidEvt e'.toNat →
        (e' ≠ e → rkhTrcIsoff ((rkhFilterOnEvent e).apply f) e' = rkhTrcIsoff f e') ∧
        (e'.toNat / 32 ≠ e.toNat / 32 → ∀ ctrl mode : BitVec 8,
          rkhTrcIsoff ((FilterOp.group ctrl (getGrp e) mode).apply f) e' = rkhTrcIsoff f e') := by
  have hoff : filterOn ≠ filterOff := by decide
  have hun : eUnchange ≠ eChange := by decide
  refine ⟨?_, ?_, ?_, ?_, ?_, ?_, fun e' he' => ⟨fun hee' => ?_, fun hg ctrl mode => ?_⟩⟩
  · rw [rkhFilterOffEvent, isoff_event_self _ f he, decide_eq_true rfl]
  · rw [rkhFilterOnEvent, isoff_event_self _ f he, decide_eq_false hoff]
  · simp [rkhFilterOnGroup, isoff_group_self _ _ f he, hoff]
  · simp [rkhFilterOnGroupAllEvents, isoff_group_self _ _ f he, hoff]
  · simp [rkhFilterOffGroupAllEvents, isoff_group_self _ _ f he]
  · simp [rkhFilterOffGroup, isoff_group_self _ _ f he, hun]
  · have hnat : e'.toNat ≠ e.toNat := fun h => hee' (BitVec.eq_of_toNat_eq h)
    rw [rkhFilterOnEvent, isoff_apply (show (FilterOp.event filterOn e).WF from Or.inl he) f he',
      (tablesHold_sets f).isoff he']
    simp [FilterOp.applySets, FilterSets.filterEvent_of_ne _ (ne_allEvents_of_valid he), hoff, hnat]
  · rw [isoff_apply (groupOp_wf _ _ he) f he', applySets_group _ _ he, (tablesHold_sets f).isoff he']
    split <;> simp [hg]

theorem trc_filter_macros_as_documented_sm :
    ValidEvt (0x62 : BitVec 8).toNat ∧
      rkhTrcIsoff ((rkhFilterOffEvent 0x62).apply ⟨fun _ => 0, 0⟩) 0x62 = true ∧
      rkhTrcIsoff ((rkhFilterOnEvent 0x62).apply ⟨fun _ => 0, 0⟩) 0x62 = false ∧
      rkhTrcIsoff ((rkhFilterOnGroup (getGrp 0x62)).apply ⟨fun _ => 0, 0⟩) 0x62 = false ∧
      rkhTrcIsoff ((rkhFilterOnGroupAllEvents (getGrp 0x62)).apply ⟨fun _ => 0, 0⟩) 0x62 =
        false ∧
      rkhTrcIsoff ((rkhFilterOffGroupAllEvents (getGrp 0x62)).apply ⟨fun _ => 0, 0⟩) 0x62 =
        true ∧
      rkhTrcIsoff ((rkhFilterOffGroup (getGrp 0x62)).apply ⟨fun _ => 0, 0⟩) 0x62 =
        (TrcFilter.sets ⟨fun _ => 0, 0⟩).events (0x62 : BitVec 8).toNat ∧
      ∀ e' : BitVec 8, ValidEvt e'.toNat →
        (e' ≠ 0x62 → rkhTrcIsoff ((rkhFilterOnEvent 0x62).apply ⟨fun _ => 0, 0⟩) e' =
          rkhTrcIsoff ⟨fun _ => 0, 0⟩ e') ∧
        (e'.toNat / 32 ≠ (0x62 : BitVec 8).toNat / 32 → ∀ ctrl mode : BitVec 8,
          rkhTrcIsoff ((FilterOp.group ctrl (getGrp 0x62) mode).apply ⟨fun _ => 0, 0⟩) e' =
            rkhTrcIsoff ⟨fun _ => 0, 0⟩ e') :=
  ⟨by decide, trc_filter_macros_as_documented _ (by decide)⟩

end Rkh.Trace
