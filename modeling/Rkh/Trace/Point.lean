import Rkh.Trace.SmaFilter
import Rkh.Trace.Pipeline

/-!
# Trace points under the runtime filters

The trace points of `rkhtrc.h` with `RKH_TRC_RUNTIME_FILTER` on: `RKH_TRC_BEGIN(eid, prio)`
writes its record only when `rkh_trc_isoff_(eid)` and `rkh_trc_sma_isoff_(prio)` both let it
through, `RKH_TRC_USR_BEGIN(eid)` asks the first only, and `RKH_TRC_BEGIN_WOFIL(eid)` asks
neither. Between them the application calls the filter macros `RKH_FILTER_ON_GROUP` to
`RKH_FILTER_OFF_SMA`.

A run interleaves the two in any order. Its abstract view keeps the filter sets, the set of
suppressed priorities and the list of records let through; `Holds` ties the tables and the
trace bytes to it, and every call keeps it.
-/

namespace Rkh.Trace

set_option autoImplicit false

/-- A call of the trace interface: a filter macro, `RKH_FILTER_ON_SMA` or `_OFF_SMA`, or a
point of `RKH_TRC_BEGIN`, `RKH_TRC_USR_BEGIN` or `RKH_TRC_BEGIN_WOFIL` with its record. -/
inductive TrcCall
  | filter (op : FilterOp)
  | filterSma (ctrl prio : BitVec 8)
  | point (prio : BitVec 8) (rec : TrcRecord)
  | usrPoint (rec : TrcRecord)
  | wofil (rec : TrcRecord)

/-- The state the trace calls act on: the group and event tables, `trcsmaftbl`, and the
record state with the stream. -/
structure TrcState (σ : Type) where
  filter : TrcFilter
  trcsmaftbl : Nat → BitVec 8
  trc : TrcRec σ

section Run
variable {σ : Type} (put : σ → BitVec 8 → σ) (cfg : TrcCfg) (rkhMaxSma : Nat)

def TrcCall.step : TrcCall → TrcState σ → TrcState σ
  | .filter op, st => { st with filter := op.apply st.filter }
  | .filterSma ctrl prio, st => { st with trcsmaftbl := rkhTrcFilterSma ctrl prio st.trcsmaftbl }
  | .point prio rec, st =>
    if rkhTrcIsoff st.filter rec.eid && rkhTrcSmaIsoff rkhMaxSma st.trcsmaftbl prio then
      { st with trc := rec.emit put cfg st.trc }
    else st
  | .usrPoint rec, st =>
    if rkhTrcIsoff st.filter rec.eid then { st with trc := rec.emit put cfg st.trc } else st
  | .wofil rec, st => { st with trc := rec.emit put cfg st.trc }

def trcRun (calls : List TrcCall) (st : TrcState σ) : TrcState σ :=
  calls.foldl (fun st c => c.step put cfg rkhMaxSma st) st

end Run

/-- The arguments the interface documents: a group, a valid event or all of them, a registered
priority, and points of a valid event from an active object or from none (`NVS`). -/
def TrcCall.WF (rkhMaxSma : Nat) : TrcCall → Prop
  | .filter op => op.WF
  | .filterSma _ prio => prio.toNat < rkhMaxSma
  | .point prio rec => ValidEvt rec.eid.toNat ∧ prio.toNat ≤ rkhMaxSma
  | .usrPoint rec => ValidEvt rec.eid.toNat
  | .wofil _ => True

instance (rkhMaxSma : Nat) : DecidablePred (TrcCall.WF rkhMaxSma)
  | .filter op => inferInstanceAs (Decidable op.WF)
  | .filterSma _ prio => inferInstanceAs (Decidable (prio.toNat < rkhMaxSma))
  | .point prio rec =>
    inferInstanceAs (Decidable (ValidEvt rec.eid.toNat ∧ prio.toNat ≤ rkhMaxSma))
  | .usrPoint rec => inferInstanceAs (Decidable (ValidEvt rec.eid.toNat))
  | .wofil _ => inferInstanceAs (Decidable True)

/-! ### The abstract view -/

/-- What a run of trace calls is for: the events let through, the priorities suppressed,
and the records written so far. -/
structure TrcView where
  sets : FilterSets
  suppressed : Nat → Bool
  written : List TrcRecord

/-- Whether the filter sets let event `e` through: its group and the event itself. -/
def FilterSets.passes (A : FilterSets) (e : Nat) : Bool := A.groups (e / 32) && A.events e

/-- A call on the abstract view: a trace point appends its record when the sets let it
through. -/
def TrcCall.stepView (rkhMaxSma : Nat) : TrcCall → TrcView → TrcView
  | .filter op, v => { v with sets := op.applySets v.sets }
  | .filterSma ctrl prio, v =>
    { v with suppressed := Function.update v.suppressed prio.toNat (decide (ctrl = filterOn)) }
  | .point prio rec, v =>
    if v.sets.passes rec.eid.toNat && (decide (prio.toNat = rkhMaxSma) || !v.suppressed prio.toNat)
    then { v with written := v.written ++ [rec] } else v
  | .usrPoint rec, v =>
    if v.sets.passes rec.eid.toNat then { v with written := v.written ++ [rec] } else v
  | .wofil rec, v => { v with written := v.written ++ [rec] }

def viewRun (rkhMaxSma : Nat) (calls : List TrcCall) (v : TrcView) : TrcView :=
  calls.foldl (fun v c => c.stepView rkhMaxSma v) v

/-! ### Every call keeps the view -/

section Holds
variable {σ : Type} (put : σ → BitVec 8 → σ) (cfg : TrcCfg) (rkhMaxSma : Nat)

theorem trcRecords_concat (recs : List TrcRecord) (rec : TrcRecord) (r : TrcRec σ) :
    trcRecords put cfg (recs ++ [rec]) r = rec.emit put cfg (trcRecords put cfg recs r) := by
  rw [trcRecords, List.foldl_append, List.foldl_cons, List.foldl_nil, ← trcRecords]

/-- The tables hold the view's sets, and the record state is that of writing the view's
records from `r₀`. -/
structure Holds (r₀ : TrcRec σ) (st : TrcState σ) (v : TrcView) : Prop where
  tables : TablesHold st.filter v.sets
  sma : SmaTableHolds rkhMaxSma st.trcsmaftbl v.suppressed
  trc_eq : st.trc = trcRecords put cfg v.written r₀

variable {put cfg rkhMaxSma} {r₀ : TrcRec σ} {st : TrcState σ} {v : TrcView}

theorem holds_init (f : TrcFilter) (t : Nat → BitVec 8) (r₀ : TrcRec σ) :
    Holds put cfg rkhMaxSma r₀ ⟨f, t, r₀⟩ ⟨f.sets, smaSet t, []⟩ :=
  ⟨tablesHold_sets f, fun _ _ => rfl, rfl⟩

/-- A trace point whose gates agree writes its record on both sides or on neither. -/
theorem Holds.gate (h : Holds put cfg rkhMaxSma r₀ st v) (rec : TrcRecord) {b b' : Bool}
    (hb : b = b') :
    Holds put cfg rkhMaxSma r₀ (if b then { st with trc := rec.emit put cfg st.trc } else st)
      (if b' then { v with written := v.written ++ [rec] } else v) := by
  subst hb
  cases b
  · exact h
  · exact ⟨h.tables, h.sma,
      (congrArg (rec.emit put cfg) h.trc_eq).trans (trcRecords_concat put cfg _ rec r₀).symm⟩

theorem Holds.step (h : Holds put cfg rkhMaxSma r₀ st v) {c : TrcCall} (hc : c.WF rkhMaxSma) :
    Holds put cfg rkhMaxSma r₀ (c.step put cfg rkhMaxSma st) (c.stepView rkhMaxSma v) := by
  cases c with
  | filter op => exact ⟨h.tables.apply hc, h.sma, h.trc_eq⟩
  | filterSma ctrl prio => exact ⟨h.tables, h.sma.filterSma ctrl prio, h.trc_eq⟩
  | point prio rec =>
    refine h.gate rec ?_
    rw [h.tables.isoff hc.1, h.sma.isoff hc.2]
    rfl
  | usrPoint rec =>
    refine h.gate rec ?_
    rw [h.tables.isoff hc]
    rfl
  | wofil rec => exact h.gate rec (b := true) rfl

theorem Holds.run (h : Holds put cfg rkhMaxSma r₀ st v) (calls : List TrcCall)
    (hcalls : ∀ c ∈ calls, c.WF rkhMaxSma) :
    Holds put cfg rkhMaxSma r₀ (trcRun put cfg rkhMaxSma calls st)
      (viewRun rkhMaxSma calls v) := by
  induction calls generalizing st v with
  | nil => exact h
  | cons c calls ih =>
    exact ih (h.step (hcalls c (List.mem_cons_self _ _)))
      fun c' hc' => hcalls c' (List.mem_cons_of_mem _ hc')

end Holds

/-- What a run writes: the stuffed frames of exactly the records whose gates were open, in
order, the `k`-th numbered `nseq + k`. -/
theorem trc_run_writes_open_records (cfg : TrcCfg) (rkhMaxSma : Nat) (calls : List TrcCall)
    (hcalls : ∀ c ∈ calls, c.WF rkhMaxSma) (f : TrcFilter) (t : Nat → BitVec 8)
    (chk nseq : BitVec 8) :
    let written := (viewRun rkhMaxSma calls ⟨f.sets, smaSet t, []⟩).written
    let frames := written.mapIdx fun k rec => trcFrame cfg (nseq + BitVec.ofNat 8 k) rec
    let sent := (trcRun logPut cfg rkhMaxSma calls ⟨f, t, ⟨chk, nseq, []⟩⟩).trc.stm
    sent = frames.flatMap (fun fr => escape fr ++ [rkhFlg]) ∧
      (splitFrames sent).map unescape = frames := by
  intro written frames sent
  have hsent : sent = frames.flatMap (fun fr => escape fr ++ [rkhFlg]) := by
    simp only [sent, ((holds_init f t _).run calls hcalls).trc_eq, trcRecords_stm,
      foldl_logPut, List.nil_append]
  exact ⟨hsent, by rw [hsent, unescape_splitFrames]⟩

theorem trc_run_writes_open_records_sma :
    (∀ c ∈ [TrcCall.filter (.group filterOff 2 eChange), .filterSma filterOn 1,
        .point 1 ⟨0x41, 0, []⟩, .point 4 ⟨0x42, 0, [.u8 rkhFlg]⟩], c.WF 4) ∧
      let written := (viewRun 4 [TrcCall.filter (.group filterOff 2 eChange),
        .filterSma filterOn 1, .point 1 ⟨0x41, 0, []⟩, .point 4 ⟨0x42, 0, [.u8 rkhFlg]⟩]
        ⟨TrcFilter.sets ⟨fun _ => 0, 0⟩, smaSet fun _ => 0, []⟩).written
      let frames := written.mapIdx fun k rec =>
        trcFrame ⟨true, true, false, 16⟩ (0 + BitVec.ofNat 8 k) rec
      let sent := (trcRun logPut ⟨true, true, false, 16⟩ 4
        [TrcCall.filter (.group filterOff 2 eChange), .filterSma filterOn 1,
          .point 1 ⟨0x41, 0, []⟩, .point 4 ⟨0x42, 0, [.u8 rkhFlg]⟩]
        ⟨⟨fun _ => 0, 0⟩, fun _ => 0, ⟨0, 0, []⟩⟩).trc.stm
      sent = frames.flatMap (fun fr => escape fr ++ [rkhFlg]) ∧
        (splitFrames sent).map unescape = frames :=
  ⟨by decide, trc_run_writes_open_records _ _ _ (by decide) _ _ _ _⟩

/-- Of the two points above, the one from the suppressed priority 1 writes nothing, the one
from no active object (`NVS`) writes one frame. -/
example :
    (viewRun 4 [TrcCall.filter (.group filterOff 2 eChange), .filterSma filterOn 1,
      .point 1 ⟨0x41, 0, []⟩, .point 4 ⟨0x42, 0, [.u8 rkhFlg]⟩]
      ⟨TrcFilter.sets ⟨fun _ => 0, 0⟩, smaSet fun _ => 0, []⟩).written.map TrcRecord.eid =
      [0x42] := by
  decide

/-- The whole trace path, from the application to the host: the newest `N` bytes of the frames
of exactly the records whose gates were open. -/
theorem trc_host_receives_open_records {N : Nat} (hN : 0 < N) (hfit : N + 1 < 2 ^ trcqtyBits N)
    (cfg : TrcCfg) (rkhMaxSma : Nat) (calls : List TrcCall)
    (hcalls : ∀ c ∈ calls, c.WF rkhMaxSma) (f : TrcFilter) (t : Nat → BitVec 8)
    (r : TrcRec TrcStream) :
    let written := (viewRun rkhMaxSma calls ⟨f.sets, smaSet t, []⟩).written
    let frames := written.mapIdx fun k rec => trcFrame cfg (BitVec.ofNat 8 k) rec
    let host := (rkhTrcFlush N (trcRun (fun s b => rkhTrcPut N b s) cfg rkhMaxSma calls
      ⟨f, t, rkhTrcInit N r⟩).trc.stm).1
    host = (trcSent cfg written).drop ((trcSent cfg written).length - N) ∧
      (splitFrames host).tail.map unescape <:+ [] :: frames ∧
      ((trcSent cfg written).length ≤ N → (splitFrames host).map unescape = [] :: frames) := by
  intro written frames host
  have hhost : host = (trcSent cfg written).drop ((trcSent cfg written).length - N) := by
    simp only [host, ((holds_init f t _).run calls hcalls).trc_eq]
    exact (refines_records hN hfit cfg written r).flush.1
  refine ⟨hhost, ?_, fun hlen => ?_⟩
  · rw [hhost, (trcSent_drop_frames cfg written _).2]
    exact List.drop_suffix _ _
  · rw [hhost, Nat.sub_eq_zero_of_le hlen, List.drop_zero]
    exact trcSent_decodes cfg written

theorem trc_host_receives_open_records_sixteen :
    ((0 < 16 ∧ 16 + 1 < 2 ^ trcqtyBits 16) ∧
        ∀ c ∈ [TrcCall.filter (.group filterOff 2 eChange), .filterSma filterOn 1,
          .point 1 ⟨0x41, 0, []⟩, .point 4 ⟨0x42, 0, [.u8 rkhFlg]⟩], c.WF 4) ∧
      let written := (viewRun 4 [TrcCall.filter (.group filterOff 2 eChange),
        .filterSma filterOn 1, .point 1 ⟨0x41, 0, []⟩, .point 4 ⟨0x42, 0, [.u8 rkhFlg]⟩]
        ⟨TrcFilter.sets ⟨fun _ => 0, 0⟩, smaSet fun _ => 0, []⟩).written
      let frames := written.mapIdx fun k rec =>
        trcFrame ⟨true, true, false, 16⟩ (BitVec.ofNat 8 k) rec
      let host := (rkhTrcFlush 16 (trcRun (fun s b => rkhTrcPut 16 b s)
        ⟨true, true, false, 16⟩ 4
        [TrcCall.filter (.group filterOff 2 eChange), .filterSma filterOn 1,
          .point 1 ⟨0x41, 0, []⟩, .point 4 ⟨0x42, 0, [.u8 rkhFlg]⟩]
        ⟨⟨fun _ => 0, 0⟩, fun _ => 0,
          rkhTrcInit 16 ⟨0, 0, ⟨fun _ => 0, 0, 0, 0⟩⟩⟩).trc.stm).1
      host = (trcSent ⟨true, true, false, 16⟩ written).drop
          ((trcSent ⟨true, true, false, 16⟩ written).length - 16) ∧
        (splitFrames host).tail.map unescape <:+ [] :: frames ∧
        ((trcSent ⟨true, true, false, 16⟩ written).length ≤ 16 →
          (splitFrames host).map unescape = [] :: frames) :=
  ⟨⟨⟨by decide, by decide⟩, by decide⟩,
    trc_host_receives_open_records (by decide) (by decide) _ _ _ (by decide) _ _ _⟩

/-! ### Bounds of the table accesses -/

/-- `st'` differs from `st` only inside the filter tables: no byte of `trceftbl` past
`RKH_TRC_MAX_EVENTS_IN_BYTES` and no row of `trcsmaftbl` past `RKH_TRC_MAX_SMA` changed. -/
structure InBounds {σ : Type} (rkhMaxSma : Nat) (st st' : TrcState σ) : Prop where
  trceftbl : ∀ i, rkhTrcMaxEventsInBytes ≤ i → st'.filter.trceftbl i = st.filter.trceftbl i
  trcsmaftbl : ∀ i, rkhTrcMaxSma rkhMaxSma ≤ i → st'.trcsmaftbl i = st.trcsmaftbl i

section Bounds
variable {σ : Type} (put : σ → BitVec 8 → σ) (cfg : TrcCfg) {rkhMaxSma : Nat}

theorem InBounds.trans {st₁ st₂ st₃ : TrcState σ} (h₁ : InBounds rkhMaxSma st₁ st₂)
    (h₂ : InBounds rkhMaxSma st₂ st₃) : InBounds rkhMaxSma st₁ st₃ :=
  ⟨fun i hi => (h₂.trceftbl i hi).trans (h₁.trceftbl i hi),
    fun i hi => (h₂.trcsmaftbl i hi).trans (h₁.trcsmaftbl i hi)⟩

theorem TrcCall.step_inBounds (hmax : rkhMaxSma ≤ 64) {c : TrcCall} (hc : c.WF rkhMaxSma)
    (st : TrcState σ) : InBounds rkhMaxSma st (c.step put cfg rkhMaxSma st) := by
  have hrec : ∀ b : Bool, ∀ rec : TrcRecord, InBounds rkhMaxSma st
      (if b then { st with trc := rec.emit put cfg st.trc } else st) := by
    intro b rec
    cases b <;> exact ⟨fun _ _ => rfl, fun _ _ => rfl⟩
  cases c with
  | filter op => exact ⟨fun i hi => FilterOp.apply_trceftbl_of_le hc _ hi, fun _ _ => rfl⟩
  | filterSma ctrl prio =>
    exact ⟨fun _ _ => rfl, fun i hi => rkhTrcFilterSma_of_le hmax ctrl hc _ hi⟩
  | point prio rec => exact hrec _ rec
  | usrPoint rec => exact hrec _ rec
  | wofil rec => exact hrec true rec

theorem trcRun_inBounds (hmax : rkhMaxSma ≤ 64) (calls : List TrcCall)
    (hcalls : ∀ c ∈ calls, c.WF rkhMaxSma) (st : TrcState σ) :
    InBounds rkhMaxSma st (trcRun put cfg rkhMaxSma calls st) := by
  induction calls generalizing st with
  | nil => exact ⟨fun _ _ => rfl, fun _ _ => rfl⟩
  | cons c calls ih =>
    exact (TrcCall.step_inBounds put cfg hmax (hcalls c (List.mem_cons_self _ _)) st).trans
      (ih (fun c' hc' => hcalls c' (List.mem_cons_of_mem _ hc')) _)

end Bounds

/-- The trace calls stay inside the filter tables: no write past `trceftbl` or `trcsmaftbl`, and
no read of `trcsmaftbl` past its end. -/
theorem trc_run_in_bounds {σ : Type} (put : σ → BitVec 8 → σ) (cfg : TrcCfg)
    {rkhMaxSma : Nat} (hmax : rkhMaxSma ≤ 64) (calls : List TrcCall)
    (hcalls : ∀ c ∈ calls, c.WF rkhMaxSma)
    (st : TrcState σ) :
    (∀ i, rkhTrcMaxEventsInBytes ≤ i →
        (trcRun put cfg rkhMaxSma calls st).filter.trceftbl i = st.filter.trceftbl i) ∧
      (∀ i, rkhTrcMaxSma rkhMaxSma ≤ i →
        (trcRun put cfg rkhMaxSma calls st).trcsmaftbl i = st.trcsmaftbl i) ∧
      ∀ prio : BitVec 8, prio.toNat < rkhMaxSma → (prio >>> 3).toNat < rkhTrcMaxSma rkhMaxSma :=
  have h := trcRun_inBounds put cfg hmax calls hcalls st
  ⟨h.trceftbl, h.trcsmaftbl,
    fun prio hp => toNat_ushiftRight_three prio ▸ prio_row_lt hp hmax⟩

theorem trc_run_in_bounds_sma :
    (4 ≤ 64 ∧ ∀ c ∈ [TrcCall.filter (.event filterOff 0x41), .filterSma filterOn 3,
        .point 3 ⟨0x41, 0, []⟩], c.WF 4) ∧
      (∀ i, rkhTrcMaxEventsInBytes ≤ i →
        (trcRun logPut ⟨true, true, false, 16⟩ 4 [TrcCall.filter (.event filterOff 0x41),
          .filterSma filterOn 3, .point 3 ⟨0x41, 0, []⟩]
          ⟨⟨fun _ => 0, 0⟩, fun _ => 0, ⟨0, 0, []⟩⟩).filter.trceftbl i = 0) ∧
      (∀ i, rkhTrcMaxSma 4 ≤ i →
        (trcRun logPut ⟨true, true, false, 16⟩ 4 [TrcCall.filter (.event filterOff 0x41),
          .filterSma filterOn 3, .point 3 ⟨0x41, 0, []⟩]
          ⟨⟨fun _ => 0, 0⟩, fun _ => 0, ⟨0, 0, []⟩⟩).trcsmaftbl i = 0) ∧
      ∀ prio : BitVec 8, prio.toNat < 4 → (prio >>> 3).toNat < rkhTrcMaxSma 4 :=
  ⟨⟨by decide, by decide⟩, trc_run_in_bounds logPut _ (by decide) _ (by decide) _⟩

end Rkh.Trace
