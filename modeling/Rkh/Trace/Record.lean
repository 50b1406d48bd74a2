import Rkh.Trace.Stream
import Mathlib.Data.BitVec

/-!
# Trace records

The record emitters of `rkhtrc.c`: `rkh_trc_begin` (the header macro `RKH_TRC_HDR`), the
argument emitters and `rkh_trc_end`. Every header and argument byte goes through
`rkh_trc_u8`, which adds it to the checksum `chk` and stuffs `RKH_FLG` and `RKH_ESC`.

The emitters are written over any `put`. With `rkh_trc_put` they act on the stream; with
the append to a list they record the bytes passed to `rkh_trc_put`.
-/

namespace Rkh.Trace

set_option autoImplicit false

def rkhEsc : BitVec 8 := 0x7D

/-- `RKH_XOR`, what an escaped byte is XOR-ed with. -/
def rkhXor : BitVec 8 := 0x20

def rkhStrT : BitVec 8 := 7

def rkhMemT : BitVec 8 := 8

/-- The configuration the emitters read: `RKH_TRC_EN_NSEQ`, `RKH_TRC_EN_CHK`,
`RKH_TRC_EN_TSTAMP` and `RKH_TRC_SIZEOF_TSTAMP` in bits. -/
structure TrcCfg where
  enNseq : Bool
  enChk : Bool
  enTstamp : Bool
  sizeofTstamp : Nat

section Emitters
variable {σ : Type} (put : σ → BitVec 8 → σ)

def rkhTrcU8 (d : BitVec 8) (r : TrcRec σ) : TrcRec σ :=
  let r := { r with chk := r.chk + d }
  if d = rkhFlg ∨ d = rkhEsc then { r with stm := put (put r.stm rkhEsc) (d ^^^ rkhXor) }
  else { r with stm := put r.stm d }

def rkhTrcU16 (d : BitVec 16) (r : TrcRec σ) : TrcRec σ :=
  let r := rkhTrcU8 put (d.setWidth 8) r
  let d := d >>> 8
  rkhTrcU8 put (d.setWidth 8) r

def rkhTrcU32 (d : BitVec 32) (r : TrcRec σ) : TrcRec σ :=
  let r := rkhTrcU8 put (d.setWidth 8) r
  let d := d >>> 8
  let r := rkhTrcU8 put (d.setWidth 8) r
  let d := d >>> 8
  let r := rkhTrcU8 put (d.setWidth 8) r
  let d := d >>> 8
  rkhTrcU8 put (d.setWidth 8) r

/-- The loop of `rkh_trc_str`: the characters up to the terminating NUL, which the end of
the list also stands for. -/
def strLoop : List (BitVec 8) → TrcRec σ → TrcRec σ
  | [], r => r
  | c :: s, r => if c = 0 then r else strLoop s (rkhTrcU8 put c r)

def rkhTrcStr (s : List (BitVec 8)) (r : TrcRec σ) : TrcRec σ :=
  rkhTrcU8 put 0 (strLoop put s r)

def rkhTrcFmtU8 (fmt d : BitVec 8) (r : TrcRec σ) : TrcRec σ :=
  rkhTrcU8 put d (rkhTrcU8 put fmt r)

def rkhTrcFmtU16 (fmt : BitVec 8) (d : BitVec 16) (r : TrcRec σ) : TrcRec σ :=
  rkhTrcU16 put d (rkhTrcU8 put fmt r)

def rkhTrcFmtU32 (fmt : BitVec 8) (d : BitVec 32) (r : TrcRec σ) : TrcRec σ :=
  rkhTrcU32 put d (rkhTrcU8 put fmt r)

def rkhTrcFmtStr (s : List (BitVec 8)) (r : TrcRec σ) : TrcRec σ :=
  rkhTrcU8 put 0 (strLoop put s (rkhTrcU8 put rkhStrT r))

/-- The loop of `rkh_trc_fmt_mem`: `n` bytes read from `mem` on. -/
def memLoop : Nat → (Nat → BitVec 8) → TrcRec σ → TrcRec σ
  | 0, _, r => r
  | n + 1, mem, r => memLoop n (fun i => mem (i + 1)) (rkhTrcU8 put (mem 0) r)

def rkhTrcFmtMem (mem : Nat → BitVec 8) (size : BitVec 8) (r : TrcRec σ) : TrcRec σ :=
  memLoop put size.toNat mem (rkhTrcU8 put size (rkhTrcU8 put rkhMemT r))

/-- `RKH_TRC_TSTAMP`; `ts` is what `rkh_trc_getts` returned. -/
def rkhTrcTstamp (cfg : TrcCfg) (ts : BitVec 32) (r : TrcRec σ) : TrcRec σ :=
  if cfg.enTstamp then
    if cfg.sizeofTstamp = 8 then rkhTrcU8 put (ts.setWidth 8) r
    else if cfg.sizeofTstamp = 32 then rkhTrcU32 put ts r
    else rkhTrcU16 put (ts.setWidth 16) r
  else r

/-- `rkh_trc_begin`, that is `RKH_TRC_HDR`: clears `chk`, then emits the event id, the
sequence number (`RKH_TRC_NSEQ`) and the timestamp. -/
def rkhTrcBegin (cfg : TrcCfg) (ts : BitVec 32) (eid : BitVec 8) (r : TrcRec σ) :
    TrcRec σ :=
  let r := rkhTrcU8 put eid { r with chk := 0 }
  let r := if cfg.enNseq then { rkhTrcU8 put r.nseq r with nseq := r.nseq + 1 } else r
  rkhTrcTstamp put cfg ts r

/-- `rkh_trc_end`: the checksum `RKH_TRC_CHK`, then a raw flag byte `RKH_TRC_FLG`. -/
def rkhTrcEnd (cfg : TrcCfg) (r : TrcRec σ) : TrcRec σ :=
  let r := if cfg.enChk then
      let r := { r with chk := ~~~r.chk + 1 }
      rkhTrcU8 put r.chk r
    else r
  { r with stm := put r.stm rkhFlg }

end Emitters

/-- A call of an argument emitter between `rkh_trc_begin` and `rkh_trc_end`. -/
inductive TrcArg
  | u8 (d : BitVec 8)
  | u16 (d : BitVec 16)
  | u32 (d : BitVec 32)
  | str (s : List (BitVec 8))
  | fmtU8 (fmt d : BitVec 8)
  | fmtU16 (fmt : BitVec 8) (d : BitVec 16)
  | fmtU32 (fmt : BitVec 8) (d : BitVec 32)
  | fmtStr (s : List (BitVec 8))
  | fmtMem (mem : Nat → BitVec 8) (size : BitVec 8)

/-- A trace record: its event id, the timestamp `rkh_trc_getts` returns for it, and its
arguments. -/
structure TrcRecord where
  eid : BitVec 8
  ts : BitVec 32
  args : List TrcArg

section Records
variable {σ : Type} (put : σ → BitVec 8 → σ)

def TrcArg.emit : TrcArg → TrcRec σ → TrcRec σ
  | .u8 d => rkhTrcU8 put d
  | .u16 d => rkhTrcU16 put d
  | .u32 d => rkhTrcU32 put d
  | .str s => rkhTrcStr put s
  | .fmtU8 fmt d => rkhTrcFmtU8 put fmt d
  | .fmtU16 fmt d => rkhTrcFmtU16 put fmt d
  | .fmtU32 fmt d => rkhTrcFmtU32 put fmt d
  | .fmtStr s => rkhTrcFmtStr put s
  | .fmtMem mem size => rkhTrcFmtMem put mem size

/-- One record: `rkh_trc_begin`, the argument emitters, `rkh_trc_end`. -/
def TrcRecord.emit (cfg : TrcCfg) (rec : TrcRecord) (r : TrcRec σ) : TrcRec σ :=
  rkhTrcEnd put cfg
    (rec.args.foldl (fun r a => a.emit put r) (rkhTrcBegin put cfg rec.ts rec.eid r))

def trcRecords (cfg : TrcCfg) (recs : List TrcRecord) (r : TrcRec σ) : TrcRec σ :=
  recs.foldl (fun r rec => rec.emit put cfg r) r

end Records

/-! ### The bytes of each argument -/

/-- The first `n` little-endian bytes of `d`. -/
def leBytes {w : Nat} (d : BitVec w) (n : Nat) : List (BitVec 8) :=
  (List.range n).map fun i => BitVec.ofNat 8 (d.toNat / 256 ^ i)

/-- A C string as it is sent: the bytes before its first NUL, then the NUL. -/
def cstrBytes (s : List (BitVec 8)) : List (BitVec 8) := s.takeWhile (· != 0) ++ [0]

/-- The bytes an argument stands for, before stuffing. -/
def TrcArg.bytes : TrcArg → List (BitVec 8)
  | .u8 d => [d]
  | .u16 d => leBytes d 2
  | .u32 d => leBytes d 4
  | .str s => cstrBytes s
  | .fmtU8 fmt d => [fmt, d]
  | .fmtU16 fmt d => fmt :: leBytes d 2
  | .fmtU32 fmt d => fmt :: leBytes d 4
  | .fmtStr s => rkhStrT :: cstrBytes s
  | .fmtMem mem size => rkhMemT :: size :: (List.range size.toNat).map mem

/-- The timestamp bytes of a header: the `RKHTS_T` value, little-endian. -/
def tsBytes (cfg : TrcCfg) (ts : BitVec 32) : List (BitVec 8) :=
  if cfg.enTstamp then
    if cfg.sizeofTstamp = 8 then leBytes (ts.setWidth 8) 1
    else if cfg.sizeofTstamp = 32 then leBytes ts 4
    else leBytes (ts.setWidth 16) 2
  else []

theorem leBytes_succ {w : Nat} (d : BitVec w) (n : Nat) :
    leBytes d (n + 1) = d.setWidth 8 :: leBytes (d >>> 8) n := by
  simp only [leBytes, List.range_succ_eq_map, List.map_cons, List.map_map]
  congr 1
  · simp
  · refine List.map_congr_left fun i _ => ?_
    simp [Nat.shiftRight_eq_div_pow, Nat.div_div_eq_div_mul, Nat.pow_succ']

@[simp] theorem leBytes_zero {w : Nat} (d : BitVec w) : leBytes d 0 = [] := rfl

section Bytes
variable {σ : Type} (put : σ → BitVec 8 → σ)

/-- `rkh_trc_u8` over a list of bytes. -/
def u8s (l : List (BitVec 8)) (r : TrcRec σ) : TrcRec σ :=
  l.foldl (fun r d => rkhTrcU8 put d r) r

@[simp] theorem u8s_nil (r : TrcRec σ) : u8s put [] r = r := rfl

@[simp] theorem u8s_cons (d : BitVec 8) (l : List (BitVec 8)) (r : TrcRec σ) :
    u8s put (d :: l) r = u8s put l (rkhTrcU8 put d r) := rfl

@[simp] theorem u8s_append (l l' : List (BitVec 8)) (r : TrcRec σ) :
    u8s put (l ++ l') r = u8s put l' (u8s put l r) := List.foldl_append _ _ _ _

theorem strLoop_eq (s : List (BitVec 8)) (r : TrcRec σ) :
    strLoop put s r = u8s put (s.takeWhile (· != 0)) r := by
  induction s generalizing r with
  | nil => rfl
  | cons c s ih => by_cases hc : c = 0 <;> simp_all [strLoop, List.takeWhile_cons]

theorem memLoop_eq (n : Nat) (mem : Nat → BitVec 8) (r : TrcRec σ) :
    memLoop put n mem r = u8s put ((List.range n).map mem) r := by
  induction n generalizing mem r with
  | zero => rfl
  | succ n ih => simp [memLoop, ih, List.range_succ_eq_map, Function.comp_def]

/-- Each argument emitter sends exactly the argument's bytes through `rkh_trc_u8`. -/
theorem TrcArg.emit_eq (a : TrcArg) (r : TrcRec σ) : a.emit put r = u8s put a.bytes r := by
  cases a <;>
    simp [TrcArg.emit, TrcArg.bytes, rkhTrcU16, rkhTrcU32, rkhTrcStr, rkhTrcFmtU8, rkhTrcFmtU16,
      rkhTrcFmtU32, rkhTrcFmtStr, rkhTrcFmtMem, cstrBytes, leBytes_succ, strLoop_eq, memLoop_eq]

theorem rkhTrcTstamp_eq (cfg : TrcCfg) (ts : BitVec 32) (r : TrcRec σ) :
    rkhTrcTstamp put cfg ts r = u8s put (tsBytes cfg ts) r := by
  unfold rkhTrcTstamp tsBytes
  split_ifs <;> simp [rkhTrcU16, rkhTrcU32, leBytes_succ]

end Bytes

/-! ### The configuration record

`rkh_trc_config` sends `RKH_TR_FWK_TCFG`, a record without filter (`RKH_TRC_BEGIN_WOFIL`)
that packs the configuration the host needs into six bytes of two nibbles each, then
flushes with the BSP's `rkh_trc_flush`. `TcfgSizes` holds `RKH_SIZEOF_EVENT`,
`RKH_TRC_SIZEOF_POINTER`, `RKH_TIM_SIZEOF_NTIMER`, `RKH_MP_SIZEOF_NBLOCK`,
`RKH_RQ_SIZEOF_NELEM` and `RKH_SIZEOF_ESIZE`. -/

/-- The sizes in bits that `RKH_TR_FWK_TCFG` reports besides those of `TrcCfg`. -/
structure TcfgSizes where
  sizeofEvent : Nat
  sizeofPointer : Nat
  sizeofNtimer : Nat
  sizeofNblock : Nat
  sizeofNelem : Nat
  sizeofEsize : Nat

/-- `RKH_TE_FWK_TCFG`, the fourteenth event of the framework group `RKH_FWK_START = 0xA0`. -/
def rkhTeFwkTcfg : BitVec 8 := 0xAD

/-- `(rkhui8_t)((hi << 4) | lo)`, each byte of the record. -/
def nibbles (hi lo : Nat) : BitVec 8 := BitVec.ofNat 8 (hi <<< 4 ||| lo)

/-- `RKH_TR_FWK_TCFG`, stamped `ts`. -/
def rkhTrFwkTcfg (cfg : TrcCfg) (sz : TcfgSizes) (ts : BitVec 32) : TrcRecord where
  eid := rkhTeFwkTcfg
  ts := ts
  args := [.u8 (nibbles (sz.sizeofEvent / 8) (cfg.sizeofTstamp % 256 / 8)),
    .u8 (nibbles (sz.sizeofPointer / 8) (sz.sizeofNtimer / 8)),
    .u8 (nibbles (sz.sizeofNblock / 8) (sz.sizeofNelem / 8)),
    .u8 (nibbles (sz.sizeofEsize / 8) cfg.enNseq.toNat),
    .u8 (nibbles cfg.enChk.toNat cfg.enTstamp.toNat),
    .u8 (nibbles cfg.enChk.toNat cfg.enTstamp.toNat)]

/-- `rkh_trc_config` up to its flush: the record `RKH_TR_FWK_TCFG`, unfiltered. -/
def rkhTrcConfig {σ : Type} (put : σ → BitVec 8 → σ) (cfg : TrcCfg) (sz : TcfgSizes)
    (ts : BitVec 32) (r : TrcRec σ) : TrcRec σ :=
  (rkhTrFwkTcfg cfg sz ts).emit put cfg r

/-- A byte read back as its high and low nibble. -/
def unpack (b : BitVec 8) : Nat × Nat := (b.toNat / 16, b.toNat % 16)

theorem shiftLeft_four_or {hi lo : Nat} (hlo : lo < 16) : hi <<< 4 ||| lo = 2 ^ 4 * hi + lo := by
  apply Nat.eq_of_testBit_eq
  intro j
  rw [Nat.testBit_or, Nat.testBit_shiftLeft,
    Nat.testBit_mul_pow_two_add hi (show lo < 2 ^ 4 from hlo)]
  by_cases hj : j < 4
  · simp [hj]
  · have h16 : 2 ^ 4 ≤ 2 ^ j := Nat.pow_le_pow_right (by decide) (by omega)
    have hlo' : lo.testBit j = false := Nat.testBit_lt_two_pow (by omega)
    simp [hj, hlo', show j ≥ 4 by omega]

theorem unpack_nibbles {hi lo : Nat} (hhi : hi < 16) (hlo : lo < 16) :
    unpack (nibbles hi lo) = (hi, lo) := by
  rw [unpack, nibbles, BitVec.toNat_ofNat, shiftLeft_four_or hlo, Nat.mod_eq_of_lt (by omega)]
  congr 1 <;> omega

/-- Below 128 bits every size fits its nibble: the six argument bytes read back as the
configuration, the sixth repeating the fifth. -/
theorem rkhTrFwkTcfg_unpack (cfg : TrcCfg) (sz : TcfgSizes) (ts : BitVec 32)
    (hsz : ∀ n ∈ [sz.sizeofEvent, cfg.sizeofTstamp, sz.sizeofPointer, sz.sizeofNtimer,
      sz.sizeofNblock, sz.sizeofNelem, sz.sizeofEsize], n < 128) :
    ((rkhTrFwkTcfg cfg sz ts).args.flatMap TrcArg.bytes).map unpack =
      [(sz.sizeofEvent / 8, cfg.sizeofTstamp / 8), (sz.sizeofPointer / 8, sz.sizeofNtimer / 8),
        (sz.sizeofNblock / 8, sz.sizeofNelem / 8), (sz.sizeofEsize / 8, cfg.enNseq.toNat),
        (cfg.enChk.toNat, cfg.enTstamp.toNat), (cfg.enChk.toNat, cfg.enTstamp.toNat)] := by
  simp only [List.mem_cons, List.mem_singleton, List.not_mem_nil, or_false,
    forall_eq_or_imp, forall_eq] at hsz
  obtain ⟨hev, hts, hptr, hnt, hnb, hne, hes⟩ := hsz
  have hflag : ∀ b : Bool, b.toNat < 16 := fun b => by cases b <;> decide
  simp only [rkhTrFwkTcfg, List.flatMap_cons, List.flatMap_nil, TrcArg.bytes, List.cons_append,
    List.singleton_append, List.nil_append, List.map_cons, List.map_nil,
    Nat.mod_eq_of_lt (by omega : cfg.sizeofTstamp < 256)]
  rw [unpack_nibbles (by omega) (by omega), unpack_nibbles (by omega) (by omega),
    unpack_nibbles (by omega) (by omega), unpack_nibbles (by omega) (hflag _),
    unpack_nibbles (hflag _) (hflag _)]

end Rkh.Trace
