import Mathlib.Logic.Function.Basic
import Mathlib.Data.Nat.ModEq
import Mathlib.Data.List.Forall2

/-!
# The trace stream

`rkh_trc_put` and `rkh_trc_get` of `rkhtrc.c`: a ring buffer `trcstm` of
`RKH_TRC_SIZEOF_STREAM` bytes, an in-pointer, an out-pointer and a byte count `trcqty`
whose C type `TRCQTY_T` is 8 bits wide for streams of fewer than 255 bytes and 16 bits
wide otherwise. Pointers are indices into `trcstm`.

The abstract stream is a queue that keeps the most recent `N` bytes. `Refines` ties a
concrete stream to it; each call preserves it as long as `++trcqty` does not wrap.
-/

namespace Rkh.Trace

set_option autoImplicit false

/-- Width in bits of `TRCQTY_T` for a stream of `n` bytes. -/
def trcqtyBits (n : Nat) : Nat := if n < 255 then 8 else 16

/-- `RKH_FLG`, the frame delimiter. -/
def rkhFlg : BitVec 8 := 0x7E

/-- The stream's static variables. -/
structure TrcStream where
  trcstm : Nat → BitVec 8
  trcin : Nat
  trcout : Nat
  trcqty : Nat

/-- The static state of `rkhtrc.c` besides the filters. The record emitters reach the
stream `stm` only through `rkh_trc_put`, so the stream is a parameter. -/
structure TrcRec (σ : Type) where
  chk : BitVec 8
  nseq : BitVec 8
  stm : σ

section Calls
variable (N : Nat)

/-- `rkh_trc_put`; the count is truncated to `TRCQTY_T` after the increment. -/
def rkhTrcPut (b : BitVec 8) (s : TrcStream) : TrcStream :=
  let trcstm := Function.update s.trcstm s.trcin b
  let trcin := if s.trcin + 1 = N then 0 else s.trcin + 1
  let trcqty := (s.trcqty + 1) % 2 ^ trcqtyBits N
  if N ≤ trcqty then
    { trcstm, trcin, trcout := trcin, trcqty := N % 2 ^ trcqtyBits N }
  else
    { trcstm, trcin, trcout := s.trcout, trcqty }

/-- `rkh_trc_get`: the pointer to the oldest byte, or `none` for the null pointer. -/
def rkhTrcGet (s : TrcStream) : Option Nat × TrcStream :=
  if s.trcqty = 0 then (none, s)
  else (some s.trcout,
    { s with trcout := if N ≤ s.trcout + 1 then 0 else s.trcout + 1, trcqty := s.trcqty - 1 })

/-- `rkh_trc_init`: empties the stream, clears `nseq` and puts one flag byte. -/
def rkhTrcInit (r : TrcRec TrcStream) : TrcRec TrcStream :=
  { r with
    nseq := 0
    stm := rkhTrcPut N rkhFlg { r.stm with trcin := 0, trcout := 0, trcqty := 0 } }

inductive TrcOp
  | put (b : BitVec 8)
  | get

/-- Runs calls on the stream. Each `rkh_trc_get` reports the pointer it returned together
with the byte in that cell. -/
def streamRun : List TrcOp → TrcStream → List (Option (Nat × BitVec 8)) × TrcStream
  | [], s => ([], s)
  | .put b :: ops, s => streamRun ops (rkhTrcPut N b s)
  | .get :: ops, s =>
    let g := rkhTrcGet N s
    let r := streamRun ops g.2
    (g.1.map (fun i => (i, g.2.trcstm i)) :: r.1, r.2)

/-! ### The abstract stream -/

/-- A put on the abstract stream keeps the newest `N` bytes of `q ++ [b]`. -/
def queuePut (b : BitVec 8) (q : List (BitVec 8)) : List (BitVec 8) :=
  (q ++ [b]).drop (q.length + 1 - N)

def queueGet : List (BitVec 8) → Option (BitVec 8) × List (BitVec 8)
  | [] => (none, [])
  | b :: q => (some b, q)

def queueRun : List TrcOp → List (BitVec 8) → List (Option (BitVec 8)) × List (BitVec 8)
  | [], q => ([], q)
  | .put b :: ops, q => queueRun ops (queuePut N b q)
  | .get :: ops, q =>
    let g := queueGet q
    let r := queueRun ops g.2
    (g.1 :: r.1, r.2)

@[simp] theorem queuePut_length (b : BitVec 8) (q : List (BitVec 8)) :
    (queuePut N b q).length = min (q.length + 1) N := by
  simp only [queuePut, List.length_drop, List.length_append, List.length_singleton]
  omega

/-- The concrete stream holds the abstract one: `trcqty` bytes from `trcout` on, around
the ring. -/
structure Refines (s : TrcStream) (q : List (BitVec 8)) : Prop where
  qty_eq : s.trcqty = q.length
  qty_le : s.trcqty ≤ N
  out_lt : s.trcout < N
  in_eq : s.trcin = (s.trcout + s.trcqty) % N
  cells : ∀ i (hi : i < q.length), s.trcstm ((s.trcout + i) % N) = q[i]

/-- What a get returned agrees with the abstract get: the same byte, or both empty, and
the pointer lies inside `trcstm`. -/
def Agree (c : Option (Nat × BitVec 8)) (a : Option (BitVec 8)) : Prop :=
  c.map Prod.snd = a ∧ ∀ p ∈ c, p.1 < N

/-! ### One call -/

theorem wrap_eq_mod {a : Nat} (ha : a < N) : (if a + 1 = N then 0 else a + 1) = (a + 1) % N := by
  split
  · simp [*]
  · exact (Nat.mod_eq_of_lt (by omega)).symm

theorem ring_index_inj {a i j : Nat} (hi : i < N) (hj : j < N)
    (h : (a + i) % N = (a + j) % N) : i = j := by
  have h' : i % N = j % N := Nat.ModEq.add_left_cancel' a h
  rwa [Nat.mod_eq_of_lt hi, Nat.mod_eq_of_lt hj] at h'

/-- `rkh_trc_put` on a stream whose pointer is in range and whose count does not wrap. -/
theorem rkhTrcPut_eq (b : BitVec 8) (s : TrcStream) (hin : s.trcin < N) (hle : s.trcqty ≤ N)
    (hfit : s.trcqty + 1 < 2 ^ trcqtyBits N) :
    rkhTrcPut N b s =
      { trcstm := Function.update s.trcstm s.trcin b
        trcin := (s.trcin + 1) % N
        trcout := if s.trcqty + 1 < N then s.trcout else (s.trcin + 1) % N
        trcqty := min (s.trcqty + 1) N } := by
  simp only [rkhTrcPut, Nat.mod_eq_of_lt hfit, wrap_eq_mod N hin]
  split_ifs with h1 h2 h2
  all_goals simp only [TrcStream.mk.injEq, true_and]
  · omega
  · rw [Nat.mod_eq_of_lt (by omega)]; omega
  all_goals omega

variable {N}

theorem Refines.in_lt {s : TrcStream} {q : List (BitVec 8)} (h : Refines N s q) :
    s.trcin < N := by
  rw [h.in_eq]
  exact Nat.mod_lt _ (Nat.zero_lt_of_lt h.out_lt)

/-- The cell a put writes is read back only as the newest byte. -/
theorem put_cell_ne {s : TrcStream} {q : List (BitVec 8)} (h : Refines N s q) {j : Nat}
    (hj : j < q.length) (hd : q.length = N → 0 < j) :
    (s.trcout + j) % N ≠ s.trcin := by
  intro heq
  have hk := h.qty_eq
  have hle := h.qty_le
  rw [h.in_eq, ← Nat.add_mod_mod s.trcout s.trcqty N] at heq
  have hmod : s.trcqty % N = s.trcqty ∨ (s.trcqty = N ∧ s.trcqty % N = 0) := by
    rcases Nat.lt_or_ge s.trcqty N with hlt | hge
    · exact .inl (Nat.mod_eq_of_lt hlt)
    · exact .inr ⟨by omega, by rw [show s.trcqty = N by omega, Nat.mod_self]⟩
  have := ring_index_inj N (by omega) (Nat.mod_lt _ (Nat.zero_lt_of_lt h.out_lt)) heq
  omega

/-- A put refines the abstract put while the count does not wrap. -/
theorem Refines.put {s : TrcStream} {q : List (BitVec 8)} (h : Refines N s q) (b : BitVec 8)
    (hfit : s.trcqty + 1 < 2 ^ trcqtyBits N) :
    Refines N (rkhTrcPut N b s) (queuePut N b q) := by
  have hN : 0 < N := Nat.zero_lt_of_lt h.out_lt
  have hk := h.qty_eq
  have hle := h.qty_le
  -- the out-pointer moves past the dropped byte, if there is one
  have hout : (if s.trcqty + 1 < N then s.trcout else (s.trcin + 1) % N)
      = (s.trcout + (q.length + 1 - N)) % N := by
    split
    · rw [show q.length + 1 - N = 0 by omega, Nat.add_zero, Nat.mod_eq_of_lt h.out_lt]
    · rw [h.in_eq, Nat.mod_add_mod,
        show s.trcout + s.trcqty + 1 = s.trcout + (q.length + 1 - N) + N by omega,
        Nat.add_mod_right]
  rw [rkhTrcPut_eq N b s h.in_lt hle hfit, hout]
  refine ⟨by simp only [queuePut_length]; omega, by simp, Nat.mod_lt _ hN, ?_, ?_⟩
  · simp only [h.in_eq, Nat.mod_add_mod]
    congr 1
    omega
  · intro i hi
    simp only [queuePut_length] at hi
    simp only [queuePut, List.getElem_drop]
    rw [Nat.mod_add_mod, Nat.add_assoc]
    rcases Nat.lt_or_ge (q.length + 1 - N + i) q.length with hj | hj
    · rw [Function.update_noteq (put_cell_ne h hj (by omega)), h.cells _ hj,
        List.getElem_append_left hj]
    · have hj' : q.length + 1 - N + i = q.length := by omega
      have hcell : (s.trcout + (q.length + 1 - N + i)) % N = s.trcin := by
        rw [hj', ← hk, h.in_eq]
      rw [hcell, Function.update_same]
      simp [hj']

@[simp] theorem rkhTrcGet_trcstm (s : TrcStream) : (rkhTrcGet N s).2.trcstm = s.trcstm := by
  unfold rkhTrcGet
  split <;> rfl

theorem Refines.get_nil {s : TrcStream} (h : Refines N s []) : rkhTrcGet N s = (none, s) := by
  simp [rkhTrcGet, h.qty_eq]

/-- A get on a non-empty stream returns the cell of the oldest byte and refines the
abstract get. -/
theorem Refines.get_cons {s : TrcStream} {b : BitVec 8} {q : List (BitVec 8)}
    (h : Refines N s (b :: q)) :
    (rkhTrcGet N s).1 = some s.trcout ∧ s.trcout < N ∧ s.trcstm s.trcout = b ∧
      Refines N (rkhTrcGet N s).2 q := by
  have hk := h.qty_eq
  have hle := h.qty_le
  have hout := h.out_lt
  have hnext : (if N ≤ s.trcout + 1 then 0 else s.trcout + 1) = (s.trcout + 1) % N := by
    split
    · rw [show s.trcout + 1 = N by omega, Nat.mod_self]
    · exact (Nat.mod_eq_of_lt (by omega)).symm
  simp only [List.length_cons] at hk
  simp only [rkhTrcGet, show s.trcqty ≠ 0 by omega, if_false, hnext]
  refine ⟨trivial, hout, by simpa [Nat.mod_eq_of_lt hout] using h.cells 0 (by simp), ?_⟩
  refine ⟨by simp only; omega, by simp only; omega, Nat.mod_lt _ (by omega), ?_, ?_⟩
  · simp only [h.in_eq, Nat.mod_add_mod]
    congr 1
    omega
  · intro i hi
    simpa only [Nat.mod_add_mod, Nat.add_assoc, Nat.add_comm 1 i] using h.cells (i + 1) (by simpa)

/-- Every run of calls from a refining state stays refining, and each get agrees with the
abstract get, as long as `N + 1` fits in `TRCQTY_T`. -/
theorem Refines.run {s : TrcStream} {q : List (BitVec 8)} (h : Refines N s q)
    (hfit : N + 1 < 2 ^ trcqtyBits N) (ops : List TrcOp) :
    Refines N (streamRun N ops s).2 (queueRun N ops q).2 ∧
      List.Forall₂ (Agree N) (streamRun N ops s).1 (queueRun N ops q).1 := by
  induction ops generalizing s q with
  | nil => exact ⟨h, .nil⟩
  | cons op ops ih =>
    cases op with
    | put b => exact ih (h.put b (by have := h.qty_le; omega))
    | get =>
      cases q with
      | nil =>
        simp only [streamRun, queueRun, queueGet, h.get_nil]
        exact ⟨(ih h).1, .cons (by simp [Agree]) (ih h).2⟩
      | cons b q =>
        obtain ⟨hg, hlt, hb, h'⟩ := h.get_cons
        simp only [streamRun, queueRun, queueGet, hg]
        exact ⟨(ih h').1, .cons (by simp [Agree, hb, hlt]) (ih h').2⟩

/-- Puts alone keep the refinement while the count cannot reach `2 ^ trcqtyBits N - 1`. -/
theorem Refines.puts {s : TrcStream} {q : List (BitVec 8)} (h : Refines N s q)
    (bs : List (BitVec 8)) (hfit : q.length + bs.length < 2 ^ trcqtyBits N) :
    Refines N (streamRun N (bs.map .put) s).2 (queueRun N (bs.map .put) q).2 := by
  induction bs generalizing s q with
  | nil => exact h
  | cons b bs ih =>
    have hk := h.qty_eq
    simp only [List.length_cons] at hfit
    exact ih (h.put b (by omega)) (by simp only [queuePut_length]; omega)

theorem queueRun_puts_length (bs : List (BitVec 8)) {q : List (BitVec 8)} (hq : q.length ≤ N) :
    (queueRun N (bs.map .put) q).2.length = min (q.length + bs.length) N := by
  induction bs generalizing q with
  | nil => simpa [queueRun] using hq
  | cons b bs ih =>
    simp only [List.map_cons, queueRun, List.length_cons]
    rw [ih (by simp)]
    simp only [queuePut_length]
    omega

/-- `rkh_trc_init` leaves the flag byte in the stream. -/
theorem refines_init (hN : 0 < N) (hfit : 1 < 2 ^ trcqtyBits N) (r : TrcRec TrcStream) :
    Refines N (rkhTrcInit N r).stm [rkhFlg] := by
  have h0 : Refines N { r.stm with trcin := 0, trcout := 0, trcqty := 0 } [] :=
    ⟨rfl, Nat.zero_le _, hN, by simp, by simp⟩
  simpa [queuePut, show 1 - N = 0 by omega] using h0.put rkhFlg hfit

/-- The trace stream refines a queue that keeps the newest `N` bytes, from `rkh_trc_init`
over every run of puts and gets while the count does not wrap. -/
theorem trc_stream_refines_queue (hN : 0 < N) (hfit : N + 1 < 2 ^ trcqtyBits N)
    (r : TrcRec TrcStream) (ops : List TrcOp) :
    Refines N (streamRun N ops (rkhTrcInit N r).stm).2 (queueRun N ops [rkhFlg]).2 ∧
      List.Forall₂ (Agree N) (streamRun N ops (rkhTrcInit N r).stm).1
        (queueRun N ops [rkhFlg]).1 :=
  (refines_init hN (by omega) r).run hfit ops

theorem trc_stream_refines_queue_four :
    (0 < 4 ∧ 4 + 1 < 2 ^ trcqtyBits 4) ∧
      (Refines 4 (streamRun 4 [.put 1, .get, .get, .get] (rkhTrcInit 4 ⟨0, 0, ⟨fun _ => 0, 0, 0, 0⟩⟩).stm).2
          (queueRun 4 [.put 1, .get, .get, .get] [rkhFlg]).2 ∧
        List.Forall₂ (Agree 4)
          (streamRun 4 [.put 1, .get, .get, .get] (rkhTrcInit 4 ⟨0, 0, ⟨fun _ => 0, 0, 0, 0⟩⟩).stm).1
          (queueRun 4 [.put 1, .get, .get, .get] [rkhFlg]).1) :=
  ⟨⟨by decide, by decide⟩, trc_stream_refines_queue (by decide) (by decide) _ _⟩

theorem trcqtyBits_of_le {n : Nat} (h : 255 ≤ n) : trcqtyBits n = 16 := by
  rw [trcqtyBits, if_neg (by omega)]

/-- In a stream of at least 65535 bytes `TRCQTY_T` is 16 bits wide: a put on a count of
65535 wraps `++trcqty` to 0, the clamp does not fire, and the stream then reads as empty. -/
theorem put_wraps_at_65535 {N : Nat} (hN : 65535 ≤ N) (s : TrcStream) (hq : s.trcqty = 65535)
    (b : BitVec 8) :
    (rkhTrcPut N b s).trcqty = 0 ∧ (rkhTrcGet N (rkhTrcPut N b s)).1 = none := by
  have h0 : (rkhTrcPut N b s).trcqty = 0 := by
    simp [rkhTrcPut, hq, trcqtyBits_of_le (show 255 ≤ N by omega), show ¬N ≤ 0 by omega]
  refine ⟨h0, ?_⟩
  unfold rkhTrcGet
  rw [if_pos h0]

theorem qty_after_65534_puts {N : Nat} (hN : 65535 ≤ N) (r : TrcRec TrcStream) :
    (streamRun N ((List.replicate 65534 0).map .put) (rkhTrcInit N r).stm).2.trcqty = 65535 := by
  have hw := trcqtyBits_of_le (show 255 ≤ N by omega)
  have h := (refines_init (N := N) (by omega) (by rw [hw]; decide) r).puts (List.replicate 65534 0)
    (by rw [List.length_replicate, List.length_singleton, hw]; decide)
  rw [h.qty_eq, queueRun_puts_length _ (by simp only [List.length_singleton]; omega),
    List.length_singleton, List.length_replicate]
  omega

/-- After `rkh_trc_init` and 65534 puts a stream of 65535 bytes is full; the next put
makes it read as empty. -/
theorem trc_full_stream_reads_empty :
    (streamRun 65535 ((List.replicate 65534 0).map .put)
        (rkhTrcInit 65535 ⟨0, 0, ⟨fun _ => 0, 0, 0, 0⟩⟩).stm).2.trcqty = 65535 ∧
      (rkhTrcGet 65535 (rkhTrcPut 65535 0 (streamRun 65535 ((List.replicate 65534 0).map .put)
        (rkhTrcInit 65535 ⟨0, 0, ⟨fun _ => 0, 0, 0, 0⟩⟩).stm).2)).1 = none := by
  have hq := qty_after_65534_puts (Nat.le_refl 65535) ⟨0, 0, ⟨fun _ => 0, 0, 0, 0⟩⟩
  exact ⟨hq, (put_wraps_at_65535 (Nat.le_refl 65535) _ hq 0).2⟩

/-- Every stream of at least 65535 bytes wraps its count: after `rkh_trc_init` and 65534
puts it holds 65535 bytes, and one more put makes it read as empty. -/
theorem trc_large_stream_reads_empty {N : Nat} (hN : 65535 ≤ N) (r : TrcRec TrcStream) :
    (streamRun N ((List.replicate 65534 0).map .put) (rkhTrcInit N r).stm).2.trcqty = 65535 ∧
      (rkhTrcGet N (rkhTrcPut N 0
        (streamRun N ((List.replicate 65534 0).map .put) (rkhTrcInit N r).stm).2)).1 = none :=
  ⟨qty_after_65534_puts hN r, (put_wraps_at_65535 hN _ (qty_after_65534_puts hN r) 0).2⟩

theorem trc_large_stream_reads_empty_70000 :
    65535 ≤ 70000 ∧
      ((streamRun 70000 ((List.replicate 65534 0).map .put)
          (rkhTrcInit 70000 ⟨0, 0, ⟨fun _ => 0, 0, 0, 0⟩⟩).stm).2.trcqty = 65535 ∧
        (rkhTrcGet 70000 (rkhTrcPut 70000 0 (streamRun 70000 ((List.replicate 65534 0).map .put)
          (rkhTrcInit 70000 ⟨0, 0, ⟨fun _ => 0, 0, 0, 0⟩⟩).stm).2)).1 = none) :=
  ⟨by decide, trc_large_stream_reads_empty (by decide) _⟩

end Calls

end Rkh.Trace
