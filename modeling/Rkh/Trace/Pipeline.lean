import Rkh.Trace.Stream
import Rkh.Trace.Frame

/-!
# From the emitters to the host

The record emitters write through `rkh_trc_put` into the trace stream, and `rkh_trc_flush`
of the demo BSP drains the stream with `rkh_trc_get`, sending each byte. The host receives
the newest `N` bytes of everything put since `rkh_trc_init`; when they fit, splitting them at
the flags and unstuffing gives back the frames.
-/

namespace Rkh.Trace

set_option autoImplicit false

section Flush

variable (N : Nat)

theorem rkhTrcGet_qty_lt {s s' : TrcStream} {p : Nat} (h : rkhTrcGet N s = (some p, s')) :
    s'.trcqty < s.trcqty := by
  unfold rkhTrcGet at h
  split at h
  · cases h
  · cases h
    dsimp only
    omega

/-- `rkh_trc_flush` of the demo BSP: gets bytes until `rkh_trc_get` returns null, and sends
each one. -/
def rkhTrcFlush (s : TrcStream) : List (BitVec 8) × TrcStream :=
  match _hget : rkhTrcGet N s with
  | (none, s') => ([], s')
  | (some p, s') =>
    let r := rkhTrcFlush s'
    (s'.trcstm p :: r.1, r.2)
termination_by s.trcqty
decreasing_by exact rkhTrcGet_qty_lt N _hget

variable {N}

theorem rkhTrcFlush_of_none {s s' : TrcStream} (h : rkhTrcGet N s = (none, s')) :
    rkhTrcFlush N s = ([], s') := by
  rw [rkhTrcFlush]
  split <;> simp_all

theorem rkhTrcFlush_of_some {s s' : TrcStream} {p : Nat} (h : rkhTrcGet N s = (some p, s')) :
    rkhTrcFlush N s = (s'.trcstm p :: (rkhTrcFlush N s').1, (rkhTrcFlush N s').2) := by
  rw [rkhTrcFlush]
  split <;> simp_all

/-- Flushing sends the abstract stream, oldest byte first, and leaves it empty. -/
theorem Refines.flush {s : TrcStream} {q : List (BitVec 8)} (h : Refines N s q) :
    (rkhTrcFlush N s).1 = q ∧ Refines N (rkhTrcFlush N s).2 [] := by
  induction q generalizing s with
  | nil =>
    rw [rkhTrcFlush_of_none h.get_nil]
    exact ⟨rfl, h⟩
  | cons b q ih =>
    obtain ⟨hg, -, hb, h'⟩ := h.get_cons
    rw [rkhTrcFlush_of_some (Prod.ext hg rfl), rkhTrcGet_trcstm, hb, (ih h').1]
    exact ⟨rfl, (ih h').2⟩

end Flush

/-! ### Records through the stream -/

section Records

variable {N : Nat}

theorem streamRun_puts (bs : List (BitVec 8)) (s : TrcStream) :
    (streamRun N (bs.map .put) s).2 = bs.foldl (fun s b => rkhTrcPut N b s) s := by
  induction bs generalizing s with
  | nil => rfl
  | cons b bs ih => exact ih _

/-- Puts on the abstract stream keep the newest `N` bytes. -/
theorem queueRun_puts (bs : List (BitVec 8)) {q : List (BitVec 8)} (hq : q.length ≤ N) :
    (queueRun N (bs.map .put) q).2 = (q ++ bs).drop ((q ++ bs).length - N) := by
  induction bs generalizing q with
  | nil => simp [queueRun, Nat.sub_eq_zero_of_le hq]
  | cons b bs ih =>
    simp only [List.map_cons, queueRun]
    rw [ih (by simp only [queuePut_length]; omega), queuePut,
      ← List.drop_append_of_le_length
        (by simp only [List.length_append, List.length_singleton]; omega), List.drop_drop,
      List.append_assoc, List.singleton_append]
    congr 1
    simp only [List.length_append, List.length_drop, List.length_singleton, List.length_cons]
    omega

/-- The bytes put from `rkh_trc_init` on: the flag of `rkh_trc_init`, then each record's
stuffed frame and flag, numbered from 0. -/
def trcSent (cfg : TrcCfg) (recs : List TrcRecord) : List (BitVec 8) :=
  rkhFlg :: (recs.mapIdx fun k x => trcFrame cfg (BitVec.ofNat 8 k) x).flatMap
    (fun f => escape f ++ [rkhFlg])

/-- Records written through `rkh_trc_put` after `rkh_trc_init` leave the newest `N` bytes
of `trcSent` in the stream. -/
theorem refines_records (hN : 0 < N) (hfit : N + 1 < 2 ^ trcqtyBits N) (cfg : TrcCfg)
    (recs : List TrcRecord) (r : TrcRec TrcStream) :
    Refines N (trcRecords (fun s b => rkhTrcPut N b s) cfg recs (rkhTrcInit N r)).stm
      ((trcSent cfg recs).drop ((trcSent cfg recs).length - N)) := by
  have h := ((refines_init hN (by omega) r).run hfit
    (((recs.mapIdx fun k x => trcFrame cfg (BitVec.ofNat 8 k) x).flatMap
      (fun f => escape f ++ [rkhFlg])).map .put)).1
  rw [streamRun_puts, queueRun_puts _ (by simpa using hN)] at h
  rw [trcRecords_stm]
  simpa [rkhTrcInit, trcSent] using h

end Records

/-- Records written after `rkh_trc_init` and flushed reach the host as the newest `N` bytes
put, and, when these are all of them, as the records' frames. -/
theorem trc_flush_receives_records {N : Nat} (hN : 0 < N) (hfit : N + 1 < 2 ^ trcqtyBits N)
    (cfg : TrcCfg) (recs : List TrcRecord) (r : TrcRec TrcStream) :
    (rkhTrcFlush N (trcRecords (fun s b => rkhTrcPut N b s) cfg recs (rkhTrcInit N r)).stm).1 =
        (trcSent cfg recs).drop ((trcSent cfg recs).length - N) ∧
      ((trcSent cfg recs).length ≤ N →
        (splitFrames (rkhTrcFlush N (trcRecords (fun s b => rkhTrcPut N b s) cfg recs
          (rkhTrcInit N r)).stm).1).map unescape =
          [] :: recs.mapIdx fun k x => trcFrame cfg (BitVec.ofNat 8 k) x) := by
  have hflush := (refines_records hN hfit cfg recs r).flush.1
  refine ⟨hflush, fun hlen => ?_⟩
  rw [hflush, Nat.sub_eq_zero_of_le hlen, List.drop_zero, trcSent, splitFrames, splitFramesAux,
    if_pos rfl, List.map_cons, ← splitFrames, unescape_splitFrames]
  rfl

theorem trc_flush_receives_records_sixteen :
    (0 < 16 ∧ 16 + 1 < 2 ^ trcqtyBits 16) ∧
      (rkhTrcFlush 16 (trcRecords (fun s b => rkhTrcPut 16 b s) ⟨true, true, false, 16⟩
          [⟨1, 0, [.u8 rkhFlg]⟩] (rkhTrcInit 16 ⟨0, 0, ⟨fun _ => 0, 0, 0, 0⟩⟩)).stm).1 =
        (trcSent ⟨true, true, false, 16⟩ [⟨1, 0, [.u8 rkhFlg]⟩]).drop
          ((trcSent ⟨true, true, false, 16⟩ [⟨1, 0, [.u8 rkhFlg]⟩]).length - 16) ∧
      ((trcSent ⟨true, true, false, 16⟩ [⟨1, 0, [.u8 rkhFlg]⟩]).length ≤ 16 →
        (splitFrames (rkhTrcFlush 16 (trcRecords (fun s b => rkhTrcPut 16 b s)
          ⟨true, true, false, 16⟩ [⟨1, 0, [.u8 rkhFlg]⟩]
            (rkhTrcInit 16 ⟨0, 0, ⟨fun _ => 0, 0, 0, 0⟩⟩)).stm).1).map unescape =
          [] :: [(⟨1, 0, [.u8 rkhFlg]⟩ : TrcRecord)].mapIdx fun k x =>
            trcFrame ⟨true, true, false, 16⟩ (BitVec.ofNat 8 k) x) :=
  ⟨⟨by decide, by decide⟩, trc_flush_receives_records (by decide) (by decide) _ _ _⟩

/-- The frames `trcSent` closes by flags, stuffed: the empty frame of `rkh_trc_init`, then
each record's. -/
theorem trcSent_eq_flatMap (cfg : TrcCfg) (recs : List TrcRecord) :
    trcSent cfg recs = (([] :: recs.mapIdx fun k x => trcFrame cfg (BitVec.ofNat 8 k) x).map
      escape).flatMap (· ++ [rkhFlg]) := by
  simp [trcSent, List.flatMap_map]

/-- The host's reading of `trcSent` cut anywhere: one piece per flag, and after the first piece
the newest frames sent, as many as the flags after the first. -/
theorem trcSent_drop_frames (cfg : TrcCfg) (recs : List TrcRecord) (k : Nat) :
    let out := (trcSent cfg recs).drop k
    let frames := [] :: recs.mapIdx fun k x => trcFrame cfg (BitVec.ofNat 8 k) x
    (splitFrames out).length = out.count rkhFlg ∧
      (splitFrames out).tail.map unescape =
        frames.drop (frames.length - (out.count rkhFlg - 1)) := by
  intro out frames
  have hflg : ∀ g ∈ frames.map escape, rkhFlg ∉ g := fun g hg => by
    obtain ⟨f, -, rfl⟩ := List.mem_map.mp hg
    exact flg_not_mem_escape f
  have hsuf : (splitFrames out).tail.map unescape <:+ frames := by
    simp only [out, trcSent_eq_flatMap]
    simpa [List.map_map, Function.comp_def, unescape_escape] using
      (splitFrames_drop_tail _ hflg k).map unescape
  have hlen : (splitFrames out).length = out.count rkhFlg := splitFramesAux_length [] out
  refine ⟨hlen, ?_⟩
  rw [List.suffix_iff_eq_drop.mp hsuf, List.length_map, List.length_tail, hlen]

/-- The host's reading of all of `trcSent`: the empty frame, then every record's frame. -/
theorem trcSent_decodes (cfg : TrcCfg) (recs : List TrcRecord) :
    (splitFrames (trcSent cfg recs)).map unescape =
      [] :: recs.mapIdx fun k x => trcFrame cfg (BitVec.ofNat 8 k) x := by
  rw [trcSent, splitFrames, splitFramesAux, if_pos rfl, List.map_cons, ← splitFrames,
    unescape_splitFrames]
  rfl

/-- The host resynchronises after any loss: the flushed bytes split into one piece per flag,
and after the first piece come, whole and in order, the newest frames sent. -/
theorem trc_flush_resyncs {N : Nat} (hN : 0 < N) (hfit : N + 1 < 2 ^ trcqtyBits N)
    (cfg : TrcCfg) (recs : List TrcRecord) (r : TrcRec TrcStream) :
    let out := (rkhTrcFlush N (trcRecords (fun s b => rkhTrcPut N b s) cfg recs
      (rkhTrcInit N r)).stm).1
    let frames := [] :: recs.mapIdx fun k x => trcFrame cfg (BitVec.ofNat 8 k) x
    out = (trcSent cfg recs).drop ((trcSent cfg recs).length - N) ∧
      (splitFrames out).length = out.count rkhFlg ∧
      (splitFrames out).tail.map unescape =
        frames.drop (frames.length - (out.count rkhFlg - 1)) := by
  intro out frames
  have hout : out = (trcSent cfg recs).drop ((trcSent cfg recs).length - N) :=
    (refines_records hN hfit cfg recs r).flush.1
  rw [hout]
  exact ⟨rfl, trcSent_drop_frames cfg recs _⟩

theorem trc_flush_resyncs_sixteen :
    (0 < 16 ∧ 16 + 1 < 2 ^ trcqtyBits 16) ∧
      let out := (rkhTrcFlush 16 (trcRecords (fun s b => rkhTrcPut 16 b s)
        ⟨true, true, false, 16⟩ [⟨1, 0, [.u32 0]⟩, ⟨2, 0, [.u32 0]⟩, ⟨3, 0, [.u8 rkhFlg]⟩]
        (rkhTrcInit 16 ⟨0, 0, ⟨fun _ => 0, 0, 0, 0⟩⟩)).stm).1
      let frames := [] :: [(⟨1, 0, [.u32 0]⟩ : TrcRecord), ⟨2, 0, [.u32 0]⟩,
        ⟨3, 0, [.u8 rkhFlg]⟩].mapIdx fun k x =>
          trcFrame ⟨true, true, false, 16⟩ (BitVec.ofNat 8 k) x
      out = (trcSent ⟨true, true, false, 16⟩ [⟨1, 0, [.u32 0]⟩, ⟨2, 0, [.u32 0]⟩,
          ⟨3, 0, [.u8 rkhFlg]⟩]).drop ((trcSent ⟨true, true, false, 16⟩
          [⟨1, 0, [.u32 0]⟩, ⟨2, 0, [.u32 0]⟩, ⟨3, 0, [.u8 rkhFlg]⟩]).length - 16) ∧
        (splitFrames out).length = out.count rkhFlg ∧
        (splitFrames out).tail.map unescape =
          frames.drop (frames.length - (out.count rkhFlg - 1)) :=
  ⟨⟨by decide, by decide⟩, trc_flush_resyncs (by decide) (by decide) _ _ _⟩

/-! ### Flushing after every burst

The BSP's idle hook calls `rkh_trc_flush` whenever the application is idle, so the stream
sees bursts of `rkh_trc_put`, each drained by a flush. -/

section Bursts

variable (N : Nat)

/-- Bursts of bytes, each put through `rkh_trc_put` and then flushed: what each flush sent,
and the stream after the last one. -/
def flushRun : List (List (BitVec 8)) → TrcStream → List (List (BitVec 8)) × TrcStream
  | [], s => ([], s)
  | b :: bs, s =>
    let f := rkhTrcFlush N (b.foldl (fun s x => rkhTrcPut N x s) s)
    let r := flushRun bs f.2
    (f.1 :: r.1, r.2)

variable {N}

/-- A burst on an empty stream, then a flush: the newest `N` bytes of the burst are sent and
the stream is empty again. -/
theorem Refines.burst {s : TrcStream} (h : Refines N s []) (hfit : N + 1 < 2 ^ trcqtyBits N)
    (b : List (BitVec 8)) :
    (rkhTrcFlush N (b.foldl (fun s x => rkhTrcPut N x s) s)).1 = b.drop (b.length - N) ∧
      Refines N (rkhTrcFlush N (b.foldl (fun s x => rkhTrcPut N x s) s)).2 [] := by
  have hq := (h.run hfit (b.map .put)).1
  rw [streamRun_puts, queueRun_puts b (Nat.zero_le N), List.nil_append] at hq
  exact hq.flush

theorem Refines.bursts {s : TrcStream} (h : Refines N s []) (hfit : N + 1 < 2 ^ trcqtyBits N)
    (bursts : List (List (BitVec 8))) :
    (flushRun N bursts s).1 = bursts.map (fun b => b.drop (b.length - N)) ∧
      Refines N (flushRun N bursts s).2 [] := by
  induction bursts generalizing s with
  | nil => exact ⟨rfl, h⟩
  | cons b bs ih =>
    obtain ⟨hb, h'⟩ := h.burst hfit b
    obtain ⟨hbs, h''⟩ := ih h'
    exact ⟨by simp only [flushRun, hb, hbs, List.map_cons], h''⟩

end Bursts

/-- Flushing after every burst loses and duplicates nothing: each flush sends the newest `N`
bytes of its burst and leaves the stream empty. -/
theorem trc_flush_bursts {N : Nat} (hfit : N + 1 < 2 ^ trcqtyBits N) (s : TrcStream)
    (hs : Refines N s []) (bursts : List (List (BitVec 8))) :
    (flushRun N bursts s).1 = bursts.map (fun b => b.drop (b.length - N)) ∧
      (flushRun N bursts s).2.trcqty = 0 ∧
      ((∀ b ∈ bursts, b.length ≤ N) →
        (flushRun N bursts s).1.flatten = bursts.flatten) := by
  obtain ⟨hout, hend⟩ := hs.bursts hfit bursts
  refine ⟨hout, hend.qty_eq, fun hle => ?_⟩
  rw [hout, List.map_congr_left fun b hb => by rw [Nat.sub_eq_zero_of_le (hle b hb),
    List.drop_zero], List.map_id']

theorem trc_flush_bursts_four :
    (4 + 1 < 2 ^ trcqtyBits 4 ∧ Refines 4 ⟨fun _ => 0, 2, 2, 0⟩ []) ∧
      (flushRun 4 [[1, 2, 3], [4, 5, 6, 7, 8], [9]] ⟨fun _ => 0, 2, 2, 0⟩).1 =
          [[1, 2, 3], [4, 5, 6, 7, 8], [9]].map
            (fun b : List (BitVec 8) => b.drop (b.length - 4)) ∧
        (flushRun 4 [[1, 2, 3], [4, 5, 6, 7, 8], [9]] ⟨fun _ => 0, 2, 2, 0⟩).2.trcqty = 0 ∧
        ((∀ b ∈ ([[1, 2, 3], [4, 5, 6, 7, 8], [9]] : List (List (BitVec 8))),
            b.length ≤ 4) →
          (flushRun 4 [[1, 2, 3], [4, 5, 6, 7, 8], [9]] ⟨fun _ => 0, 2, 2, 0⟩).1.flatten =
            ([[1, 2, 3], [4, 5, 6, 7, 8], [9]] : List (List (BitVec 8))).flatten) :=
  ⟨⟨by decide,
      ⟨rfl, by decide, by decide, rfl, fun _ hi => absurd hi (Nat.not_lt_zero _)⟩⟩,
    trc_flush_bursts (by decide) _
      ⟨rfl, by decide, by decide, rfl, fun _ hi => absurd hi (Nat.not_lt_zero _)⟩ _⟩

end Rkh.Trace
