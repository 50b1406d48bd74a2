import Rkh.Trace.Filter

/-!
# Slot filters

`rkh_trc_simfil_isoff` and `rkh_trc_simfil` of `rkhtrc.c`, behind the signal filter `fsig`
and the active-object filter `fsma`. A filter table holds one bit per slot: the slot
`| Y | ... | Y | X | X | X |` lives at bit `X` of byte `Y`.

`TRCFS_T`, `FIL_T`, `RKH_TRC_ALL_FILTERS` and `RKH_FILTER_MODE_MASK` are not in this source:
`TRCFS_T` is `BitVec w` for a width `w`, the size of a `FIL_T` has that type, as the counter
`ix` it bounds, and the two mode macros form a `ModeBits`. Both functions cast the row
`slot >> 3` to `rkhui8_t`. While every row fits in a byte (a table of at most 256 bytes, or a
`TRCFS_T` of at most 11 bits) the table is the set of its slots; past that, slot `2048 + s`
shares its bit with slot `s`.
-/

namespace Rkh.Trace

set_option autoImplicit false

/-- `RKH_TRC_ALL_FILTERS` and `RKH_FILTER_MODE_MASK`: a flag bit of its own, and a mask that
keeps `FILTER_ON` and `FILTER_OFF` and drops the flag. -/
structure ModeBits where
  allFilters : BitVec 8
  modeMask : BitVec 8
  allFilters_ne : allFilters ≠ 0
  ctrl_and_allFilters : ∀ c, c = filterOn ∨ c = filterOff → c &&& allFilters = 0
  ctrl_and_modeMask : ∀ c, c = filterOn ∨ c = filterOff →
    c &&& modeMask = c ∧ (c ||| allFilters) &&& modeMask = c

/-- One encoding that meets `ModeBits`: the flag in bit 7, the mask over the other bits. -/
def modeBitsBit7 : ModeBits where
  allFilters := 0x80
  modeMask := 0x7F
  allFilters_ne := by decide
  ctrl_and_allFilters := by rintro c (rfl | rfl) <;> decide
  ctrl_and_modeMask := by rintro c (rfl | rfl) <;> decide

/-- `FIL_T`: the table's size in bytes, a `TRCFS_T`, and the bytes it points to. -/
structure FilT (w : Nat) where
  size : BitVec w
  tbl : Nat → BitVec 8

section Code

variable {w : Nat} (mb : ModeBits)

theorem toNat_add_one_of_lt {ix size : BitVec w} (h : ix < size) :
    (ix + 1).toNat = ix.toNat + 1 := by
  rw [BitVec.lt_def] at h
  rw [BitVec.toNat_add, show (1 : BitVec w).toNat = 1 % 2 ^ w from rfl, Nat.add_mod_mod,
    Nat.mod_eq_of_lt (by have := size.isLt; omega)]

/-- The `for` loop of `rkh_trc_simfil` that fills the table, counting `ix` in `TRCFS_T`. -/
def simfilFillLoop (c : BitVec 8) (size ix : BitVec w) (ft : Nat → BitVec 8) : Nat → BitVec 8 :=
  if h : ix < size then simfilFillLoop c size (ix + 1) (Function.update ft ix.toNat c) else ft
termination_by size.toNat - ix.toNat
decreasing_by
  rw [toNat_add_one_of_lt h]
  rw [BitVec.lt_def] at h
  omega

def rkhTrcSimfilIsoff (filter : FilT w) (slot : BitVec w) : Bool :=
  let y := (slot >>> 3).setWidth 8
  let x := (slot &&& 7).setWidth 8
  filter.tbl y.toNat &&& rkhMaptbl x.toNat != 0

def rkhTrcSimfil (filter : FilT w) (slot : BitVec w) (mode : BitVec 8) : FilT w :=
  let onoff := mode &&& mb.modeMask
  if mode &&& mb.allFilters != 0 then
    { filter with
      tbl := simfilFillLoop (if onoff = filterOff then 0xFF else 0) filter.size 0 filter.tbl }
  else
    let y := (slot >>> 3).setWidth 8
    let x := (slot &&& 7).setWidth 8
    { filter with
      tbl := Function.update filter.tbl y.toNat
        (if onoff = filterOff then filter.tbl y.toNat ||| rkhMaptbl x.toNat
          else filter.tbl y.toNat &&& ~~~rkhMaptbl x.toNat) }

/-- Since `ix` stays below `size`, it never wraps: the loop writes bytes `0` to `size - 1`. -/
theorem simfilFillLoop_eq (c : BitVec 8) (size : BitVec w) :
    ∀ (n : Nat) (ix : BitVec w) (ft : Nat → BitVec 8), size.toNat - ix.toNat = n →
      simfilFillLoop c size ix ft = fillLoop c ix.toNat n ft
  | 0, ix, ft, hn => by
    rw [simfilFillLoop, dif_neg (by rw [BitVec.lt_def]; omega), fillLoop]
  | n + 1, ix, ft, hn => by
    have hlt : ix < size := by rw [BitVec.lt_def]; omega
    rw [simfilFillLoop, dif_pos hlt, fillLoop, ← toNat_add_one_of_lt hlt]
    exact simfilFillLoop_eq c size n _ _ (by rw [toNat_add_one_of_lt hlt]; omega)

end Code

/-! ### Rows and bits -/

section Index

variable {w : Nat}

theorem slot_row_toNat (slot : BitVec w) :
    ((slot >>> 3).setWidth 8).toNat = slot.toNat / 8 % 256 := by
  rw [BitVec.toNat_setWidth, BitVec.toNat_ushiftRight, Nat.shiftRight_eq_div_pow]

theorem slot_bit_toNat (slot : BitVec w) : ((slot &&& 7).setWidth 8).toNat = slot.toNat % 8 := by
  have hs := slot.isLt
  have h7w : (7 : BitVec w).toNat = 7 % 2 ^ w := BitVec.toNat_ofNat 7 w
  rw [BitVec.toNat_setWidth, BitVec.toNat_and, h7w]
  rcases Nat.lt_or_ge w 3 with hw | hw
  · have h7 : 7 % 2 ^ w = 2 ^ w - 1 := by
      rcases w with _ | _ | _ | w
      · rfl
      · rfl
      · rfl
      · omega
    have h4 : 2 ^ w ≤ 2 ^ 2 := Nat.pow_le_pow_right (by decide) (by omega)
    rw [h7, Nat.and_pow_two_sub_one_eq_mod, Nat.mod_eq_of_lt hs]
    omega
  · have h8 : 2 ^ 3 ≤ 2 ^ w := Nat.pow_le_pow_right (by decide) hw
    rw [Nat.mod_eq_of_lt (show 7 < 2 ^ w by omega),
      show 7 = 2 ^ 3 - 1 from rfl, Nat.and_pow_two_sub_one_eq_mod]
    omega

/-- A slot's row fits the `rkhui8_t` cast in a table of at most 256 bytes, or for a `TRCFS_T`
of at most 11 bits. -/
theorem slot_row_lt {size : Nat} {slot : BitVec w} (hs : slot.toNat < 8 * size)
    (hfit : size ≤ 256 ∨ w ≤ 11) : slot.toNat / 8 < 256 := by
  rcases hfit with h | h
  · omega
  · have : 2 ^ w ≤ 2 ^ 11 := Nat.pow_le_pow_right (by decide) h
    have := slot.isLt
    omega

end Index

/-! ### The two call forms -/

section Calls

variable {w : Nat} (mb : ModeBits)

theorem or_allFilters_and (c : BitVec 8) :
    (c ||| mb.allFilters) &&& mb.allFilters = mb.allFilters := by
  ext i
  simp only [BitVec.getLsbD_and, BitVec.getLsbD_or]
  cases mb.allFilters.getLsbD i <;> simp

/-- A call whose mode is `FILTER_ON` or `FILTER_OFF` sets or clears the slot's bit. -/
theorem rkhTrcSimfil_slot (filter : FilT w) (slot : BitVec w) {ctrl : BitVec 8}
    (hc : ctrl = filterOn ∨ ctrl = filterOff) :
    rkhTrcSimfil mb filter slot ctrl =
      { filter with
        tbl := Function.update filter.tbl (slot.toNat / 8 % 256)
          (if ctrl = filterOff then filter.tbl (slot.toNat / 8 % 256) ||| rkhMaptbl (slot.toNat % 8)
            else filter.tbl (slot.toNat / 8 % 256) &&& ~~~rkhMaptbl (slot.toNat % 8)) } := by
  simp only [rkhTrcSimfil, mb.ctrl_and_allFilters ctrl hc, (mb.ctrl_and_modeMask ctrl hc).1,
    bne_self_eq_false, Bool.false_eq_true, if_false]
  rw [slot_row_toNat, slot_bit_toNat]

/-- A call with `RKH_TRC_ALL_FILTERS` in its mode fills the whole table. -/
theorem rkhTrcSimfil_all (filter : FilT w) (slot : BitVec w) {ctrl : BitVec 8}
    (hc : ctrl = filterOn ∨ ctrl = filterOff) :
    rkhTrcSimfil mb filter slot (ctrl ||| mb.allFilters) =
      { filter with
        tbl := fillLoop (if ctrl = filterOff then 0xFF else 0) 0 filter.size.toNat
          filter.tbl } := by
  have hne : ((ctrl ||| mb.allFilters) &&& mb.allFilters != 0) = true := by
    rw [or_allFilters_and]
    exact bne_iff_ne.mpr mb.allFilters_ne
  simp only [rkhTrcSimfil, hne, if_true, (mb.ctrl_and_modeMask ctrl hc).2]
  rw [simfilFillLoop_eq _ _ _ 0 _ (Nat.sub_zero _)]
  rfl

end Calls

/-! ### The abstract slot set -/

/-- A call `rkh_trc_simfil(filter, slot, mode)` as the interface documents it: `ctrl` is
`FILTER_ON` or `FILTER_OFF`, and `all` says whether `RKH_TRC_ALL_FILTERS` is or-ed in. -/
structure SimfilCall (w : Nat) where
  slot : BitVec w
  ctrl : BitVec 8
  all : Bool
  deriving DecidableEq, Repr

section Runs

variable {w : Nat} (mb : ModeBits)

def SimfilCall.mode (c : SimfilCall w) : BitVec 8 :=
  if c.all then c.ctrl ||| mb.allFilters else c.ctrl

/-- A slot below `8 * size` and a documented `ctrl`. -/
def SimfilCall.WF (size : BitVec w) (c : SimfilCall w) : Prop :=
  c.slot.toNat < 8 * size.toNat ∧ (c.ctrl = filterOn ∨ c.ctrl = filterOff)

instance (size : BitVec w) (c : SimfilCall w) : Decidable (c.WF size) :=
  inferInstanceAs (Decidable (_ ∧ _))

def SimfilCall.apply (c : SimfilCall w) (filter : FilT w) : FilT w :=
  rkhTrcSimfil mb filter c.slot (c.mode mb)

/-- What a call does to the set of filtered slots. -/
def SimfilCall.applySet (c : SimfilCall w) (A : Nat → Bool) : Nat → Bool :=
  if c.all then fun _ => decide (c.ctrl = filterOff)
  else Function.update A c.slot.toNat (decide (c.ctrl = filterOff))

def simfilRun (calls : List (SimfilCall w)) (filter : FilT w) : FilT w :=
  calls.foldl (fun f c => c.apply mb f) filter

def slotSetRun (calls : List (SimfilCall w)) (A : Nat → Bool) : Nat → Bool :=
  calls.foldl (fun A c => c.applySet A) A

end Runs

section Sets

variable {w : Nat}

/-- The set of slots a table holds. -/
def FilT.slots (filter : FilT w) (s : Nat) : Bool := (filter.tbl (s / 8)).getLsbD (s % 8)

/-- What a run of calls keeps from the table `f₀` it started from: the size, the bytes past
the table, and that the slots are the set `A`. -/
structure SlotInv (f₀ f : FilT w) (A : Nat → Bool) : Prop where
  size_eq : f.size = f₀.size
  frame : ∀ i, f₀.size.toNat ≤ i → f.tbl i = f₀.tbl i
  slots : ∀ s < 8 * f₀.size.toNat, f.slots s = A s

theorem slotInv_init (f₀ : FilT w) : SlotInv f₀ f₀ f₀.slots :=
  ⟨rfl, fun _ _ => rfl, fun _ _ => rfl⟩

end Sets

section Steps

variable {w : Nat} (mb : ModeBits) {f₀ f : FilT w} {A : Nat → Bool}

theorem SlotInv.apply (h : SlotInv f₀ f A) {c : SimfilCall w} (hc : c.WF f₀.size)
    (hfit : f₀.size.toNat ≤ 256 ∨ w ≤ 11) : SlotInv f₀ (c.apply mb f) (c.applySet A) := by
  obtain ⟨slot, ctrl, all⟩ := c
  have hslot : slot.toNat < 8 * f₀.size.toNat := hc.1
  have hrow := slot_row_lt hslot hfit
  cases all with
  | true =>
    rw [SimfilCall.apply, SimfilCall.mode, if_pos rfl, rkhTrcSimfil_all mb f slot hc.2]
    refine ⟨h.size_eq, fun i hi => ?_, fun s hs => ?_⟩
    · dsimp only
      rw [fillLoop_apply, if_neg (by rw [h.size_eq]; omega), h.frame i hi]
    · simp only [FilT.slots, SimfilCall.applySet, if_pos]
      rw [fillLoop_apply, if_pos (by rw [h.size_eq]; omega)]
      exact getLsbD_fillByte ctrl (Nat.mod_lt _ (by decide))
  | false =>
    rw [SimfilCall.apply, SimfilCall.mode, if_neg Bool.false_ne_true,
      rkhTrcSimfil_slot mb f slot hc.2, Nat.mod_eq_of_lt hrow]
    refine ⟨h.size_eq, fun i hi => ?_, fun s hs => ?_⟩
    · dsimp only
      rw [Function.update_apply, if_neg (by omega), h.frame i hi]
    · have hiff : slot.toNat / 8 = s / 8 ∧ slot.toNat % 8 = s % 8 ↔ s = slot.toNat := by omega
      simp only [FilT.slots, SimfilCall.applySet, Bool.false_eq_true, if_false]
      rw [getLsbD_update_setOrClear _ _ (Nat.mod_lt _ (by decide)), Function.update_apply,
        show (f.tbl (s / 8)).getLsbD (s % 8) = A s from h.slots s hs]
      simp only [hiff]

/-- `rkh_trc_simfil_isoff` reads the row of the slot, and answers membership in `A`. -/
theorem SlotInv.isoff (h : SlotInv f₀ f A) {s : BitVec w} (hs : s.toNat < 8 * f₀.size.toNat)
    (hfit : f₀.size.toNat ≤ 256 ∨ w ≤ 11) :
    ((s >>> 3).setWidth 8).toNat < f₀.size.toNat ∧ rkhTrcSimfilIsoff f s = A s.toNat := by
  have hrow := slot_row_lt hs hfit
  rw [rkhTrcSimfilIsoff, slot_row_toNat, slot_bit_toNat, Nat.mod_eq_of_lt hrow,
    and_rkhMaptbl_ne_zero _ (Nat.mod_lt _ (by decide))]
  exact ⟨by omega, h.slots _ hs⟩

theorem SlotInv.run (h : SlotInv f₀ f A) (calls : List (SimfilCall w))
    (hcalls : ∀ c ∈ calls, c.WF f₀.size) (hfit : f₀.size.toNat ≤ 256 ∨ w ≤ 11) :
    SlotInv f₀ (simfilRun mb calls f) (slotSetRun calls A) := by
  induction calls generalizing f A with
  | nil => exact h
  | cons c calls ih =>
    exact ih (h.apply mb (hcalls c (List.mem_cons_self _ _)) hfit)
      fun c' hc' => hcalls c' (List.mem_cons_of_mem _ hc')

end Steps

theorem simfil_refines_slot_set (mb : ModeBits) {w : Nat} (f : FilT w)
    (hfit : f.size.toNat ≤ 256 ∨ w ≤ 11) (calls : List (SimfilCall w))
    (hcalls : ∀ c ∈ calls, c.WF f.size) (s : BitVec w) (hs : s.toNat < 8 * f.size.toNat) :
    rkhTrcSimfilIsoff (simfilRun mb calls f) s = slotSetRun calls f.slots s.toNat ∧
      ((s >>> 3).setWidth 8).toNat < f.size.toNat ∧
      ∀ i, f.size.toNat ≤ i → (simfilRun mb calls f).tbl i = f.tbl i :=
  have h := (slotInv_init f).run mb calls hcalls hfit
  ⟨(h.isoff hs hfit).2, (h.isoff hs hfit).1, h.frame⟩

theorem simfil_refines_slot_set_fsma :
    (((2#16).toNat ≤ 256 ∨ 16 ≤ 11) ∧
        (∀ c ∈ [(⟨0, filterOn, true⟩ : SimfilCall 16), ⟨9, filterOff, false⟩],
          c.WF 2) ∧
        (9#16).toNat < 8 * (2#16).toNat) ∧
      rkhTrcSimfilIsoff (simfilRun modeBitsBit7 [(⟨0, filterOn, true⟩ : SimfilCall 16),
          ⟨9, filterOff, false⟩] ⟨2#16, fun _ => 0⟩) 9#16 =
        slotSetRun [(⟨0, filterOn, true⟩ : SimfilCall 16), ⟨9, filterOff, false⟩]
          (FilT.slots (⟨2#16, fun _ => 0⟩ : FilT 16)) (9#16).toNat ∧
      (((9#16) >>> 3).setWidth 8).toNat < (2#16).toNat ∧
      ∀ i, (2#16).toNat ≤ i → (simfilRun modeBitsBit7
          [(⟨0, filterOn, true⟩ : SimfilCall 16), ⟨9, filterOff, false⟩]
          ⟨2#16, fun _ => 0⟩).tbl i = 0 :=
  ⟨⟨by decide, by decide, by decide⟩,
    simfil_refines_slot_set modeBitsBit7 ⟨2, fun _ => 0⟩ (by decide) _ (by decide) _
      (by decide)⟩

/-- Switching slot 2048 off in an empty table over a `TRCFS_T` of at least 12 bits sets the
bit of slot 0, though the set holds slot 2048 only. -/
theorem slot_2048_aliases_0 (mb : ModeBits) {w : Nat} (hw : 12 ≤ w) (size : BitVec w) :
    rkhTrcSimfilIsoff (simfilRun mb [(⟨BitVec.ofNat w 2048, filterOff, false⟩ : SimfilCall w)]
        ⟨size, fun _ => 0⟩) 0#w = true ∧
      slotSetRun [(⟨BitVec.ofNat w 2048, filterOff, false⟩ : SimfilCall w)]
        (FilT.slots ⟨size, fun _ => 0⟩) 0 = false := by
  have h2048 : (BitVec.ofNat w 2048).toNat = 2048 := by
    rw [BitVec.toNat_ofNat]
    exact Nat.mod_eq_of_lt (Nat.lt_of_lt_of_le (by decide) (Nat.pow_le_pow_right (by decide) hw))
  have h0 : (0#w).toNat = 0 := by simp
  constructor
  · rw [simfilRun, List.foldl_cons, List.foldl_nil, SimfilCall.apply, SimfilCall.mode,
      if_neg Bool.false_ne_true, rkhTrcSimfil_slot mb _ _ (Or.inr rfl), rkhTrcSimfilIsoff,
      slot_row_toNat, slot_bit_toNat, h2048, h0]
    simp only [Nat.reduceDiv, Nat.reduceMod, Function.update_same, if_pos]
    decide
  · simp [slotSetRun, SimfilCall.applySet, h2048, FilT.slots]

/-- With a 16-bit `TRCFS_T` and a table of 257 bytes, switching slot 2048 off switches
slot 0 off as well. -/
theorem simfil_wide_slot_aliases (mb : ModeBits) :
    (⟨2048, filterOff, false⟩ : SimfilCall 16).WF 257 ∧ (0#16).toNat < 8 * 257 ∧
      rkhTrcSimfilIsoff (simfilRun mb [(⟨2048, filterOff, false⟩ : SimfilCall 16)] ⟨257, fun _ => 0⟩)
        0#16 = true ∧
      slotSetRun [(⟨2048, filterOff, false⟩ : SimfilCall 16)]
        (FilT.slots (⟨257, fun _ => 0⟩ : FilT 16)) (0#16).toNat = false :=
  ⟨by decide, by decide, slot_2048_aliases_0 mb (by decide) 257⟩

/-- A slot filter of `size` bytes is a set: from every table, after every sequence of
documented calls, every slot below `8 * size` reads as its membership. -/
def SlotFilterIsSet (mb : ModeBits) (w : Nat) (size : BitVec w) : Prop :=
  ∀ (calls : List (SimfilCall w)) (tbl : Nat → BitVec 8), (∀ c ∈ calls, c.WF size) →
    ∀ s : BitVec w, s.toNat < 8 * size.toNat →
      rkhTrcSimfilIsoff (simfilRun mb calls ⟨size, tbl⟩) s =
        slotSetRun calls (FilT.slots ⟨size, tbl⟩) s.toNat

/-- The slot filter is a set exactly when every row fits the 8-bit row variable. -/
theorem slotFilterIsSet_iff (mb : ModeBits) (w : Nat) (size : BitVec w) :
    SlotFilterIsSet mb w size ↔ size.toNat ≤ 256 ∨ w ≤ 11 := by
  refine ⟨fun h => ?_, fun hfit calls tbl hcalls s hs =>
    (((slotInv_init _).run mb calls hcalls hfit).isoff hs hfit).2⟩
  by_contra hwide
  have hw : 12 ≤ w := by omega
  have halias := slot_2048_aliases_0 mb hw size
  have h0 : (0#w).toNat = 0 := by simp
  have hset := h [⟨BitVec.ofNat w 2048, filterOff, false⟩] (fun _ => 0)
    (fun c hc => by
      rw [List.mem_singleton.mp hc]
      refine ⟨?_, .inr rfl⟩
      rw [BitVec.toNat_ofNat, Nat.mod_eq_of_lt
        (Nat.lt_of_lt_of_le (by decide) (Nat.pow_le_pow_right (by decide) hw))]
      omega)
    0#w (by rw [h0]; omega)
  rw [halias.1, h0, halias.2] at hset
  cases hset

end Rkh.Trace
