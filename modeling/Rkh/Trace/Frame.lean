import Rkh.Trace.Record

/-!
# Trace frames

The frame protocol documented in `rkhtrc.h`: a record is sent as one frame (event id,
sequence number, timestamp, arguments, checksum) closed by a raw flag byte `0x7E`. Inside
a frame a flag or escape byte `x` is sent as `0x7D, x ^ 0x20`, and the checksum makes the
byte sum of the frame zero modulo 256.

`escape`, `unescape` and `splitFrames` are the protocol as a receiver reads it; the
emitters of `Rkh.Trace.Record` are shown to produce it.
-/

namespace Rkh.Trace

set_option autoImplicit false

def escByte (d : BitVec 8) : List (BitVec 8) :=
  if d = rkhFlg ∨ d = rkhEsc then [rkhEsc, d ^^^ rkhXor] else [d]

def escape (l : List (BitVec 8)) : List (BitVec 8) := l.flatMap escByte

/-- The receiver's unstuffing: `0x7D, x` stands for `x ^ 0x20`. -/
def unescape : List (BitVec 8) → List (BitVec 8)
  | [] => []
  | [b] => [b]
  | b :: x :: rest =>
    if b = rkhEsc then (x ^^^ rkhXor) :: unescape rest else b :: unescape (x :: rest)

/-- The frames of a byte stream, each closed by a raw flag; `cur` is the frame read so
far, and bytes after the last flag are not a frame yet. -/
def splitFramesAux : List (BitVec 8) → List (BitVec 8) → List (List (BitVec 8))
  | _, [] => []
  | cur, b :: bs =>
    if b = rkhFlg then cur :: splitFramesAux [] bs else splitFramesAux (cur ++ [b]) bs

def splitFrames (bs : List (BitVec 8)) : List (List (BitVec 8)) := splitFramesAux [] bs

/-- The frame of a record sent with sequence number `n`, before stuffing. -/
def trcFrame (cfg : TrcCfg) (n : BitVec 8) (rec : TrcRecord) : List (BitVec 8) :=
  let body := rec.eid :: (if cfg.enNseq then [n] else []) ++ tsBytes cfg rec.ts ++
    rec.args.flatMap TrcArg.bytes
  if cfg.enChk then body ++ [-body.sum] else body

/-- The `put` that records the bytes passed to `rkh_trc_put`. -/
def logPut (l : List (BitVec 8)) (b : BitVec 8) : List (BitVec 8) := l ++ [b]

/-! ### Stuffing -/

@[simp] theorem escape_nil : escape [] = [] := rfl

@[simp] theorem escape_cons (d : BitVec 8) (l : List (BitVec 8)) :
    escape (d :: l) = escByte d ++ escape l := rfl

@[simp] theorem escape_append (l l' : List (BitVec 8)) :
    escape (l ++ l') = escape l ++ escape l' := List.flatMap_append _ _ _

theorem flg_not_mem_escByte (d : BitVec 8) : rkhFlg ∉ escByte d := by
  unfold escByte
  split_ifs with h
  · rcases h with rfl | rfl <;> decide
  · simp only [List.mem_singleton]
    exact fun he => h (.inl he.symm)

/-- No raw flag byte is left in stuffed data. -/
theorem flg_not_mem_escape (l : List (BitVec 8)) : rkhFlg ∉ escape l := by
  induction l with
  | nil => simp
  | cons d l ih => simpa [not_or] using ⟨flg_not_mem_escByte d, ih⟩

theorem unescape_cons_of_ne {b : BitVec 8} (hb : b ≠ rkhEsc) (l : List (BitVec 8)) :
    unescape (b :: l) = b :: unescape l := by
  cases l with
  | nil => rfl
  | cons x l => simp [unescape, hb]

theorem unescape_escape (l : List (BitVec 8)) : unescape (escape l) = l := by
  induction l with
  | nil => rfl
  | cons d l ih =>
    by_cases h : d = rkhFlg ∨ d = rkhEsc
    · simp [escByte, h, unescape, BitVec.xor_assoc, ih]
    · have hesc : d ≠ rkhEsc := fun he => h (.inr he)
      simp [escByte, h, unescape_cons_of_ne hesc, ih]

theorem splitFramesAux_append (cur body rest : List (BitVec 8)) (h : rkhFlg ∉ body) :
    splitFramesAux cur (body ++ rkhFlg :: rest) = (cur ++ body) :: splitFramesAux [] rest := by
  induction body generalizing cur with
  | nil => simp [splitFramesAux]
  | cons b body ih =>
    simp only [List.mem_cons, not_or] at h
    simp [splitFramesAux, Ne.symm h.1, ih _ h.2]

/-- A stream of flag-free frames each closed by a flag splits back into those frames. -/
theorem splitFrames_flatMap (fs : List (List (BitVec 8))) (h : ∀ f ∈ fs, rkhFlg ∉ f) :
    splitFrames (fs.flatMap (· ++ [rkhFlg])) = fs := by
  induction fs with
  | nil => rfl
  | cons f fs ih =>
    simp only [List.mem_cons, forall_eq_or_imp] at h
    simp only [splitFrames, List.flatMap_cons, List.append_assoc, List.singleton_append,
      splitFramesAux_append _ _ _ h.1, List.nil_append]
    exact congrArg _ (ih h.2)

/-- Cut anywhere, a stream of flag-free frames each closed by a flag splits into a first piece
and then whole frames: the frames that follow the first piece are a suffix of the stream's. -/
theorem splitFrames_drop_tail (gs : List (List (BitVec 8))) (h : ∀ g ∈ gs, rkhFlg ∉ g)
    (k : Nat) : (splitFrames ((gs.flatMap (· ++ [rkhFlg])).drop k)).tail <:+ gs := by
  induction gs generalizing k with
  | nil => simp [splitFrames, splitFramesAux]
  | cons g gs ih =>
    simp only [List.mem_cons, forall_eq_or_imp] at h
    rw [List.flatMap_cons, List.append_assoc, List.singleton_append]
    by_cases hk : k ≤ g.length
    · rw [List.drop_append_of_le_length hk, splitFrames, splitFramesAux_append _ _ _
        fun hm => h.1 (List.mem_of_mem_drop hm), ← splitFrames, splitFrames_flatMap _ h.2]
      exact List.suffix_cons g gs
    · obtain ⟨j, rfl⟩ : ∃ j, k = g.length + 1 + j := ⟨k - g.length - 1, by omega⟩
      rw [List.drop_append_eq_append_drop, List.drop_eq_nil_of_le (by omega), List.nil_append,
        show g.length + 1 + j - g.length = j + 1 by omega, List.drop_succ_cons]
      exact (ih h.2 _).trans (List.suffix_cons g gs)

/-- Every flag closes one frame, and nothing else does. -/
theorem splitFramesAux_length (cur bs : List (BitVec 8)) :
    (splitFramesAux cur bs).length = bs.count rkhFlg := by
  induction bs generalizing cur with
  | nil => rfl
  | cons b bs ih =>
    by_cases hb : b = rkhFlg
    · simp [splitFramesAux, hb, ih]
    · simp [splitFramesAux, hb, ih, List.count_cons_of_ne (Ne.symm hb)]

/-- Stuffed frames, each closed by a flag, split and unstuff back into the frames. -/
theorem unescape_splitFrames (fs : List (List (BitVec 8))) :
    (splitFrames (fs.flatMap fun f => escape f ++ [rkhFlg])).map unescape = fs := by
  have hsplit := splitFrames_flatMap (fs.map escape) fun f hf => by
    obtain ⟨g, -, rfl⟩ := List.mem_map.mp hf
    exact flg_not_mem_escape g
  rw [List.flatMap_map] at hsplit
  rw [hsplit, List.map_map]
  simp [Function.comp_def, unescape_escape]

/-! ### What the emitters put -/

section Put
variable {σ : Type} (put : σ → BitVec 8 → σ)

/-- `rkh_trc_u8` adds the byte to the checksum and puts its stuffing. -/
theorem rkhTrcU8_eq (d : BitVec 8) (r : TrcRec σ) :
    rkhTrcU8 put d r = ⟨r.chk + d, r.nseq, (escByte d).foldl put r.stm⟩ := by
  unfold rkhTrcU8 escByte
  split_ifs <;> rfl

theorem u8s_eq (l : List (BitVec 8)) (r : TrcRec σ) :
    u8s put l r = ⟨r.chk + l.sum, r.nseq, (escape l).foldl put r.stm⟩ := by
  induction l generalizing r with
  | nil => simp
  | cons d l ih => simp [ih, rkhTrcU8_eq, add_assoc]

theorem args_emit (args : List TrcArg) (r : TrcRec σ) :
    args.foldl (fun r a => a.emit put r) r = u8s put (args.flatMap TrcArg.bytes) r := by
  induction args generalizing r with
  | nil => rfl
  | cons a args ih => rw [List.foldl_cons, ih, TrcArg.emit_eq, List.flatMap_cons, u8s_append]

/-- The header: the event id, the sequence number and the timestamp through `rkh_trc_u8`,
with the checksum restarted. -/
theorem rkhTrcBegin_eq (cfg : TrcCfg) (ts : BitVec 32) (eid : BitVec 8) (r : TrcRec σ) :
    let hdr := eid :: (if cfg.enNseq then [r.nseq] else []) ++ tsBytes cfg ts
    rkhTrcBegin put cfg ts eid r =
      ⟨hdr.sum, r.nseq + (if cfg.enNseq then 1 else 0), (escape hdr).foldl put r.stm⟩ := by
  cases h : cfg.enNseq <;>
    simp [rkhTrcBegin, h, rkhTrcTstamp_eq, rkhTrcU8_eq, u8s_eq, add_assoc]

/-- The trailer: the checksum byte through `rkh_trc_u8`, then a raw flag. -/
theorem rkhTrcEnd_stm (cfg : TrcCfg) (r : TrcRec σ) :
    (rkhTrcEnd put cfg r).stm =
      put ((escape (if cfg.enChk then [-r.chk] else [])).foldl put r.stm) rkhFlg := by
  cases h : cfg.enChk <;> simp [rkhTrcEnd, h, rkhTrcU8_eq, BitVec.neg_eq_not_add]

theorem rkhTrcEnd_nseq (cfg : TrcCfg) (r : TrcRec σ) : (rkhTrcEnd put cfg r).nseq = r.nseq := by
  cases h : cfg.enChk <;> simp [rkhTrcEnd, h, rkhTrcU8_eq]

/-- A record puts its stuffed frame and one raw flag. -/
theorem TrcRecord.emit_stm (cfg : TrcCfg) (rec : TrcRecord) (r : TrcRec σ) :
    (rec.emit put cfg r).stm = put ((escape (trcFrame cfg r.nseq rec)).foldl put r.stm) rkhFlg := by
  simp only [TrcRecord.emit, args_emit, rkhTrcBegin_eq, u8s_eq, rkhTrcEnd_stm]
  rw [← List.foldl_append, ← List.foldl_append, ← escape_append, ← escape_append,
    ← List.sum_append]
  cases h : cfg.enChk <;> simp [trcFrame, h]

theorem TrcRecord.emit_nseq (cfg : TrcCfg) (rec : TrcRecord) (r : TrcRec σ) :
    (rec.emit put cfg r).nseq = r.nseq + if cfg.enNseq then 1 else 0 := by
  simp [TrcRecord.emit, args_emit, rkhTrcBegin_eq, u8s_eq, rkhTrcEnd_nseq]

theorem trcFrame_of_not_enNseq {cfg : TrcCfg} (h : cfg.enNseq = false) (n m : BitVec 8)
    (rec : TrcRecord) : trcFrame cfg n rec = trcFrame cfg m rec := by
  simp [trcFrame, h]

/-- Records put their stuffed frames, each closed by a flag, the `k`-th with sequence
number `nseq + k`. -/
theorem trcRecords_stm (cfg : TrcCfg) (recs : List TrcRecord) (r : TrcRec σ) :
    (trcRecords put cfg recs r).stm =
      ((recs.mapIdx fun k x => trcFrame cfg (r.nseq + BitVec.ofNat 8 k) x).flatMap
        (fun f => escape f ++ [rkhFlg])).foldl put r.stm := by
  induction recs generalizing r with
  | nil => rfl
  | cons rec recs ih =>
    have hseq : (fun k x => trcFrame cfg ((rec.emit put cfg r).nseq + BitVec.ofNat 8 k) x) =
        fun k x => trcFrame cfg (r.nseq + BitVec.ofNat 8 (k + 1)) x := by
      funext k x
      rw [TrcRecord.emit_nseq]
      cases h : cfg.enNseq
      · exact trcFrame_of_not_enNseq h _ _ x
      · congr 1
        simp only [if_true]
        bv_omega
    simp only [trcRecords, List.foldl_cons] at ih ⊢
    rw [ih, hseq, TrcRecord.emit_stm, List.mapIdx_cons, List.flatMap_cons, List.foldl_append]
    simp

end Put

/-! ### Decoding -/

theorem foldl_logPut (acc l : List (BitVec 8)) : l.foldl logPut acc = acc ++ l := by
  induction l generalizing acc with
  | nil => simp
  | cons b l ih => simp [ih, logPut]

/-- The checksum byte makes the byte sum of a frame zero. -/
theorem sum_append_checksum (body : List (BitVec 8)) : (body ++ [-body.sum]).sum = 0 := by
  simp only [List.sum_append, List.sum_singleton, add_neg_cancel]

/-- Trace frames decode back to their records: the bytes put split at the flags and unstuff
into one frame per record, numbered from `nseq`, each of byte sum zero. -/
theorem trc_records_decode (cfg : TrcCfg) (hn : cfg.enNseq = true) (hc : cfg.enChk = true)
    (recs : List TrcRecord) (chk nseq : BitVec 8) :
    let sent := (trcRecords logPut cfg recs ⟨chk, nseq, []⟩).stm
    let frames := recs.mapIdx fun k rec =>
      let body := [rec.eid, nseq + BitVec.ofNat 8 k] ++ tsBytes cfg rec.ts ++
        rec.args.flatMap TrcArg.bytes
      body ++ [-body.sum]
    sent = frames.flatMap (fun f => escape f ++ [rkhFlg]) ∧
      (∀ f ∈ frames, rkhFlg ∉ escape f) ∧
      (splitFrames sent).map unescape = frames ∧
      ∀ f ∈ frames, f.sum = 0 := by
  intro sent frames
  have hframes : recs.mapIdx (fun k x => trcFrame cfg (nseq + BitVec.ofNat 8 k) x) = frames := by
    simp [frames, trcFrame, hn, hc]
  have hsent : sent = frames.flatMap (fun f => escape f ++ [rkhFlg]) := by
    simp only [sent, trcRecords_stm, foldl_logPut, List.nil_append, hframes]
  refine ⟨hsent, fun f _ => flg_not_mem_escape f, ?_, ?_⟩
  · rw [hsent, unescape_splitFrames]
  · intro f hf
    obtain ⟨k, hk, rfl⟩ := List.mem_iff_getElem.mp hf
    simp only [frames, List.getElem_mapIdx]
    exact sum_append_checksum _

theorem trc_records_decode_flag_id :
    ((⟨true, true, false, 16⟩ : TrcCfg).enNseq = true ∧
      (⟨true, true, false, 16⟩ : TrcCfg).enChk = true) ∧
    let sent := (trcRecords logPut ⟨true, true, false, 16⟩ [⟨rkhFlg, 0, [.u8 rkhEsc]⟩]
      ⟨0, rkhEsc, []⟩).stm
    let frames := [(⟨rkhFlg, 0, [.u8 rkhEsc]⟩ : TrcRecord)].mapIdx fun k rec =>
      let body := [rec.eid, rkhEsc + BitVec.ofNat 8 k] ++
        tsBytes ⟨true, true, false, 16⟩ rec.ts ++ rec.args.flatMap TrcArg.bytes
      body ++ [-body.sum]
    sent = frames.flatMap (fun f => escape f ++ [rkhFlg]) ∧
      (∀ f ∈ frames, rkhFlg ∉ escape f) ∧
      (splitFrames sent).map unescape = frames ∧
      ∀ f ∈ frames, f.sum = 0 :=
  ⟨⟨rfl, rfl⟩, trc_records_decode _ rfl rfl _ _ _⟩

/-- Replacing the byte at `i` changes the byte sum by the difference. -/
theorem sum_set_add {l : List (BitVec 8)} {i : Nat} (hi : i < l.length) (b : BitVec 8) :
    (l.set i b).sum + l[i] = l.sum + b := by
  induction l generalizing i with
  | nil => cases hi
  | cons x l ih =>
    cases i with
    | zero => simp only [List.set_cons_zero, List.sum_cons, List.getElem_cons_zero,
        add_assoc, add_comm, add_left_comm]
    | succ i =>
      have := ih (Nat.lt_of_succ_lt_succ hi)
      simp only [List.set_cons_succ, List.sum_cons, List.getElem_cons_succ, add_assoc, this]

/-- A zero byte sum turns nonzero when one byte changes. -/
theorem sum_set_ne_zero {l : List (BitVec 8)} (h0 : l.sum = 0) {i : Nat} (hi : i < l.length)
    {b : BitVec 8} (hb : b ≠ l[i]) : (l.set i b).sum ≠ 0 := by
  intro hs
  have hsum := sum_set_add hi b
  rw [hs, h0, zero_add, zero_add] at hsum
  exact hb hsum.symm

end Rkh.Trace
