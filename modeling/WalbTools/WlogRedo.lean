import WalbTools.WlogFile
import WalbTools.BdevBounds

namespace WalbTools.WlogRedo

open ByteMemory LogPack LogPackHeader WlogFile BdevWriter Overlay AioUtil
open DiffIo (lbs)
open Queue (calcChecksum)

def DEFAULT_BULK_LB : Nat := 64 * 1024 / lbs

/-- The paths and the verbosity are left out. -/
structure WlogRedoConfig where
  isDiscard : Bool
  isZeroDiscard : Bool
  pbs : Nat
  salt : Nat
  bgnLsid : Nat
  doShrink : Bool
  doSkipCsum : Bool

class BdevWriter (σ : Type) where
  isClipped : σ → Nat → Nat → Bool
  step : σ → BdevCall UInt8 → Except String (Bool × σ)

instance : BdevWriter (SimpleBdevWriter UInt8) where
  isClipped := SimpleBdevWriter.isClipped
  step w c := .ok (w.step c)

instance : BdevWriter (DiscardWriter UInt8) where
  isClipped w := w.toWriter.isClipped
  step w c :=
    match w.step c with
    | none => .error "stuck"
    | some r => .ok r

def prepareCall (offLb sizeLb ptr : Nat) (buf : Bytes) : PrepareCall UInt8 :=
  ⟨offLb, sizeLb, ptr, buf.takeD (sizeLb * 2 ^ 9) 0, List.takeD_length _ _ _⟩

/-- `packH` is the last header that was applied, the shrunk one if the run was stopped by an IO. -/
structure WlogApplyer (σ : Type) where
  ddevWriter : σ
  packH : Option LogPackHeader

section

variable {σ : Type} [BdevWriter σ]

/-- `addr` is the address of the buffer of a record, `zeroAddr` that of the zeroed one. -/
structure Buffers where
  addr : WlogRecord → Nat
  zeroAddr : Nat

variable (cfg : WlogRedoConfig) (bufs : Buffers)

def zeroLoop : Nat → Nat → Nat → σ → Except String (Bool × σ)
  | 0, _, _, w => .ok (true, w)
  | fuel + 1, offLb, sizeLb, w =>
      if sizeLb = 0 then .ok (true, w)
      else
        let lb := min DEFAULT_BULK_LB sizeLb
        match BdevWriter.step w (.prepare (prepareCall offLb lb bufs.zeroAddr [])) with
        | .error e => .error e
        | .ok (false, _) => .error "something wrong"
        | .ok (true, w) => zeroLoop fuel ((offLb + lb) % 2 ^ 64) (sizeLb - lb) w

def prepareZeroWrite (offLb sizeLb : Nat) (w : σ) : Except String (Bool × σ) :=
  if BdevWriter.isClipped w offLb sizeLb then .ok (false, w) else zeroLoop bufs sizeLb offLb sizeLb w

def redoNormalIo (r : WlogRecord) (buf : Bytes) (w : σ) : Except String σ := do
  let (_, w) ←
    if r.isDiscard then prepareZeroWrite bufs r.offset r.ioSize w
    else BdevWriter.step w (.prepare (prepareCall r.offset r.ioSize (bufs.addr r) buf))
  let (_, w) ← BdevWriter.step w .submit
  return w

def redoDiscard (r : WlogRecord) (w : σ) : Except String σ := do
  let (_, w) ← BdevWriter.step w (.discard r.offset r.ioSize)
  return w

def redoLogIo (r : WlogRecord) (buf : Bytes) (w : σ) : Except String σ :=
  if r.isPadding then .ok w
  else if r.isDiscard then
    if cfg.isDiscard then redoDiscard r w
    else if !cfg.isZeroDiscard then .ok w
    else redoNormalIo bufs r buf w
  else redoNormalIo bufs r buf w

def readLogPackHeader (pbs salt lsid : Nat) (reader : Bytes) : Option (LogPackHeader × Bytes) :=
  match readPackHeader pbs salt reader with
  | none => none
  | some (h, reader) => if lsid ≠ 2 ^ 64 - 1 ∧ h.logpackLsid ≠ lsid then none else some (h, reader)

/-- The IOs of a pack with these indices, and the index at which the pack is to be shrunk. -/
def redoLogIos (h : LogPackHeader) : List Nat → Bytes → σ → Except String (Option Nat × Bytes × σ)
  | [], reader, w => .ok (none, reader, w)
  | i :: is, reader, w =>
      match readLogIo h i [] reader with
      | .error e => .error e
      | .ok (isValid, buf, reader) =>
          if !isValid && cfg.doShrink then .ok (some i, reader, w)
          else if !isValid && !cfg.doSkipCsum then .error "invalid log IO"
          else
            match redoLogIo cfg bufs (h.record i) buf w with
            | .error e => .error e
            | .ok w => redoLogIos h is reader w

/-- The header that is still read behind a shrunk pack is not used. -/
def runLoop : Nat → Nat → Bytes → WlogApplyer σ → Except String (Bool × Nat × WlogApplyer σ)
  | 0, _, _, _ => .error "out of fuel"
  | fuel + 1, lsid, reader, a =>
      match readLogPackHeader cfg.pbs cfg.salt lsid reader with
      | none => .ok (false, lsid, a)
      | some (h, reader) =>
          match redoLogIos cfg bufs h (List.range h.nRecords) reader a.ddevWriter with
          | .error e => .error e
          | .ok (some i, _, w) => .ok (true, (h.shrink i).nextLogpackLsid, ⟨w, some (h.shrink i)⟩)
          | .ok (none, reader, w) => runLoop fuel h.nextLogpackLsid reader ⟨w, some h⟩

def verifyApplicablePbs (wlogPbs devPbs : Nat) : Except String Unit :=
  if devPbs ≤ wlogPbs ∧ wlogPbs % devPbs = 0 then .ok () else .error "Physical block size does not match"

/-- Whether the last pack was shrunk, the lsid that was reached, and the applyer with the device. -/
def run (devPbs : Nat) (reader : Bytes) (w : σ) : Except String (Bool × Nat × WlogApplyer σ) := do
  verifyApplicablePbs cfg.pbs devPbs
  let (isShrinked, lsid, a) ← runLoop cfg bufs (reader.length + 1) cfg.bgnLsid reader ⟨w, none⟩
  let (_, w) ← BdevWriter.step a.ddevWriter .waitForAll
  return (isShrinked, lsid, { a with ddevWriter := w })

end

def logsOf (packs : List Pack) : List (WlogRecord × Bytes) :=
  packs.flatMap fun p => p.header.records.zip p.ios

def logBytes (packs : List Pack) : Bytes := packs.flatMap fun p => p.header.block ++ p.ios.flatten

/-- What stands behind packs that end at `lsid`, the part of it that still belongs to the log,
and whether a pack is cut: there is no header, or the first IO of a pack that is not valid. -/
inductive Stop (cfg : WlogRedoConfig) (lsid : Nat) : Bytes → List Pack → Bool → Prop
  | header {rest : Bytes} (h : readLogPackHeader cfg.pbs cfg.salt lsid rest = none) : Stop cfg lsid
      rest [] false
  | io {h : LogPackHeader} {i : Nat} {ios : List Bytes} {torn tail : Bytes}
      (hdo : cfg.doShrink = true) (hkept : h.Kept)
      (hvalid : h.isValid = true) (hpbs : h.pbs = cfg.pbs) (hsalt : h.salt = cfg.salt)
        (hlsid : h.logpackLsid = lsid) (hi : i < h.nRecords)
      (hios : List.Forall₂ (IoOf cfg.pbs cfg.salt) (h.records.take i) ios)
        (hdata : (h.record i).hasDataForChecksum = true)
      (hlen : torn.length = (h.record i).ioSizePb cfg.pbs * cfg.pbs)
      (hsum : (h.record i).checksum ≠ calcChecksum (torn.take ((h.record i).ioSize * lbs)) cfg.salt) :
      Stop cfg lsid (h.block ++ (ios.flatten ++ (torn ++ tail))) [⟨h.shrink i, ios⟩] true

section

variable {σ : Type} [BdevWriter σ] {cfg : WlogRedoConfig} {bufs : Buffers} {rest : Bytes}
  {h : LogPackHeader}

/-- The writer takes the IO of one record after another; `S` says what it was given. -/
def Takes (cfg : WlogRedoConfig) (bufs : Buffers) (Ok : WlogRecord × Bytes → Prop)
    (S : σ → List (WlogRecord × Bytes) → Prop) : Prop :=
  ∀ w logs l, S w logs → Ok l → ∃ w', redoLogIo cfg bufs l.1 l.2 w = .ok w' ∧ S w' (logs ++ [l])

variable {Ok : WlogRecord × Bytes → Prop} {S : σ → List (WlogRecord × Bytes) → Prop} {w : σ}
  {logs : List (WlogRecord × Bytes)}

theorem readLogPackHeader_block (hv : h.isValid = true) (hpbs : h.pbs = cfg.pbs)
    (hsalt : h.salt = cfg.salt) (rest : Bytes) :
    readLogPackHeader cfg.pbs cfg.salt h.logpackLsid (h.block ++ rest) = some (h, rest) := by
  rw [readLogPackHeader, ← hpbs, ← hsalt, readPackHeader_block hv]
  exact if_neg fun hc => hc.2 rfl

variable (rest) in
theorem redoLogIos_eq (hS : Takes cfg bufs Ok S) (hpbs : h.pbs = cfg.pbs)
    (hsalt : h.salt = cfg.salt) {recs : List WlogRecord} {ios : List Bytes}
    (hios : List.Forall₂ (IoOf cfg.pbs cfg.salt) recs ios) :
    ∀ {k : Nat} {w : σ} {logs : List (WlogRecord × Bytes)} (is : List Nat), S w logs →
      (List.range' k recs.length).map h.record = recs →
      (∀ l, l ∈ recs.zip ios → Ok l) →
        ∃ w', redoLogIos cfg bufs h (List.range' k recs.length ++ is) (ios.flatten ++ rest) w =
        redoLogIos cfg bufs h is rest w' ∧
          S w' (logs ++ recs.zip ios) := by
  induction hios with
  | nil =>
      intro k w logs is hw _ _
      exact ⟨w, rfl, by rwa [List.zip_nil_left, List.append_nil]⟩
  | @cons r io recs ios hio hios ih =>
      intro k w logs is hw hrecs hok
      rw [List.length_cons, List.range'_succ, List.map_cons] at hrecs
      obtain ⟨hr, hrecs⟩ := List.cons.inj hrecs
      rw [List.zip_cons_cons] at hok
      obtain ⟨hfirst, hok⟩ := List.forall_mem_cons.1 hok
      rw [← hr] at hio
      have hread := @readLogIo_eq cfg.pbs cfg.salt h k io hpbs hsalt hio [] (ios.flatten ++ rest)
      have hbuf : (if (h.record k).hasData then io else []) = io := by
        split_ifs with hd
        · rfl
        · exact (hio.nil (eq_false_of_ne_true hd)).symm
      rw [hbuf] at hread
      obtain ⟨w₁, hredo, h₁⟩ := hS w logs (r, io) hw hfirst
      obtain ⟨w₂, hrun, h₂⟩ := ih is h₁ hrecs hok
      refine ⟨w₂, ?_, by rwa [List.append_assoc] at h₂⟩
      rw [List.length_cons, List.range'_succ, List.cons_append, redoLogIos, List.flatten_cons,
        List.append_assoc, hread]
      dsimp only
      rw [hr, hredo]
      exact hrun

variable (rest) in
theorem redoLogIos_pack (hS : Takes cfg bufs Ok S) {p : Pack} (hp : p.Valid cfg.pbs cfg.salt)
    (hw : S w logs)
    (hok : ∀ l, l ∈ p.header.records.zip p.ios → Ok l) :
    ∃ w', redoLogIos cfg bufs p.header (List.range p.header.nRecords) (p.ios.flatten ++ rest) w =
      .ok (none, rest, w') ∧
      S w' (logs ++ p.header.records.zip p.ios) := by
  have hlen : p.header.records.length = p.header.nRecords := length_records p.header
  have hrecs : (List.range' 0 p.header.records.length).map p.header.record = p.header.records := by
    rw [hlen, ← List.range_eq_range']
    rfl
  obtain ⟨w', hrun, hw'⟩ := redoLogIos_eq rest hS hp.pbs_eq hp.salt_eq hp.ios [] hw hrecs hok
  rw [List.append_nil, hlen, ← List.range_eq_range'] at hrun
  exact ⟨w', hrun, hw'⟩

theorem redoLogIos_torn (tail : Bytes) (hS : Takes cfg bufs Ok S) (hdo : cfg.doShrink = true)
    (hpbs : h.pbs = cfg.pbs) (hsalt : h.salt = cfg.salt) {i : Nat}
    (hi : i < h.nRecords) {ios : List Bytes}
    (hios : List.Forall₂ (IoOf cfg.pbs cfg.salt) (h.records.take i) ios)
    (hdata : (h.record i).hasDataForChecksum = true) {torn : Bytes}
    (hlen : torn.length = (h.record i).ioSizePb cfg.pbs * cfg.pbs)
    (hsum : (h.record i).checksum ≠ calcChecksum (torn.take ((h.record i).ioSize * lbs)) cfg.salt)
    (hw : S w logs)
    (hok : ∀ l, l ∈ (h.records.take i).zip ios → Ok l) :
    ∃ w', redoLogIos cfg bufs h (List.range h.nRecords) (ios.flatten ++ (torn ++ tail)) w =
      .ok (some i, tail, w') ∧
      S w' (logs ++ (h.records.take i).zip ios) := by
  have hcount : (h.records.take i).length = i := by
    rw [List.length_take, length_records, Nat.min_eq_left hi.le]
  have hrecs : (List.range' 0 (h.records.take i).length).map h.record = h.records.take i := by
    rw [hcount, ← List.range_eq_range', records_take hi.le]
  have hsplit : List.range h.nRecords = List.range' 0 (h.records.take i).length ++ i ::
      List.range' (i + 1) (h.nRecords - i - 1) := by
    obtain ⟨n, hn⟩ : ∃ n, h.nRecords = i + (n + 1) := ⟨h.nRecords - i - 1, by omega⟩
    have hrest : h.nRecords - i - 1 = n := by omega
    rw [hcount, hrest, hn, List.range_eq_range', ← List.range'_append_1, Nat.zero_add, List.range'_succ]
  obtain ⟨w', hrun, hw'⟩ := redoLogIos_eq (torn ++ tail) hS hpbs hsalt hios
    (i :: List.range' (i + 1) (h.nRecords - i - 1)) hw hrecs hok
  refine ⟨w', ?_, hw'⟩
  have hhas : (h.record i).hasData = true := by
    simp only [WlogRecord.hasDataForChecksum, WlogRecord.hasData, Bool.and_eq_true] at hdata ⊢
    exact hdata.1
  have hread : readLogIo h i [] (torn ++ tail) = .ok (false, torn, tail) := by
    rw [readLogIo]
    simp only [hhas, hdata, Bool.not_true, Bool.false_eq_true, if_false, readFile, hpbs, ← hlen, hsalt]
    rw [if_neg (by rw [List.length_append]; omega), List.take_left, List.drop_left]
    simp [bind, Except.bind, pure, Except.pure, hsum]
  rw [hsplit, hrun, redoLogIos, hread, hdo]
  rfl

/-- A word in front that takes the checksum of the block in which it is zero makes that of the
block zero, with any salt. -/
theorem calcChecksum_salted {salt : Nat} (hsalt : salt < 2 ^ 32) (post : Bytes) :
    calcChecksum (toLE 4 (calcChecksum (toLE 4 0 ++ post) salt) ++ post) salt = 0 := by
  have hzero := Checksum.checksumPartial_eq (toLE 4 0 ++ post) hsalt
  rw [Checksum.wordSum_toLE] at hzero
  rw [calcChecksum, calcChecksum, Checksum.checksumPartial_eq _ hsalt, Checksum.wordSum_toLE, hzero]
  simp only [Queue.checksumFinish]
  omega

theorem calcChecksum_updateChecksum (hp : size ≤ h.pbs) (hsalt : h.salt < 2 ^ 32) :
    calcChecksum h.updateChecksum.block h.salt = 0 := by
  have hlen : 4 ≤ h.block.length := by
    rw [h.length_block]
    exact (show 4 ≤ size by decide).trans hp
  have hset : ∀ (l : Bytes) v, 4 ≤ l.length → Splice.setField LogPackHeader.widths 0 0 v l =
      toLE 4 v ++ l.drop 4 := fun l v hl => by
    rw [Splice.setField]
    exact (Splice.splice_eq_append (by rw [length_toLE]; exact hl)).trans (by rw [length_toLE]; rfl)
  have hzero : (h.setChecksum 0).block = toLE 4 0 ++ h.block.drop 4 := hset h.block 0 hlen
  have hblock : h.updateChecksum.block = toLE 4 (calcChecksum (toLE 4 0 ++ h.block.drop 4)
      h.salt) ++ h.block.drop 4 := by
    change Splice.setField LogPackHeader.widths 0 0 (calcChecksum (h.setChecksum 0).block h.salt)
      (h.setChecksum 0).block = _
    rw [hzero, hset _ _ (by rw [List.length_append, length_toLE]; exact Nat.le_add_right _ _)]
    rw [List.drop_left' (length_toLE 4 0)]
  rw [hblock]
  exact calcChecksum_salted hsalt _

structure Shrunk (h : LogPackHeader) (i : Nat) (h' : LogPackHeader) : Prop where
  pbs : h'.pbs = h.pbs
  salt : h'.salt = h.salt
  logpackLsid : h'.logpackLsid = h.logpackLsid
  records : h'.records = h.records.take i
  totalIoSize : h'.totalIoSize = dataPb h.pbs (h.records.take i)
  isValid : h'.isValid = true

theorem shrunk_shrink (hk : h.Kept) (hsalt : h.salt < 2 ^ 32) {i : Nat} (hi : i < h.nRecords) :
    Shrunk h i (h.shrink i) := by
  have hp := size_le_pbs hk.blockSize
  have hcontents := contents_shrink hp hi.le hk.capacity
  have hkept := hk.shrink hi
  obtain ⟨hpbs₁, hsalt₁, -, -⟩ :=
    foldl_clearRecord (h := h) (List.range' i (h.nRecords - i)) fun j hj => by
    have hj := List.mem_range'_1.1 hj
    have hn := hk.capacity
    omega
  have hset : ∀ c : LogPackHeader, c.pbs = h.pbs → c.salt = h.salt →
      (((c.setNRecords i).setTotalIoSize 0).setNPadding 0).pbs = h.pbs ∧
        (((c.setNRecords i).setTotalIoSize 0).setNPadding 0).salt = h.salt := fun c hc hs => ⟨hc, hs⟩
  obtain ⟨hpbs₂, hsalt₂⟩ := hset _ hpbs₁ hsalt₁
  obtain ⟨hpbs₃, hsalt₃, -, -⟩ := foldl_countRecord (by rw [hpbs₂]; exact hp) i
  have hpbs : (h.shrink i).pbs = h.pbs := hpbs₃.trans hpbs₂
  have hsalt' : (h.shrink i).salt = h.salt := hsalt₃.trans hsalt₂
  have hrecords : (h.shrink i).records = h.records.take i := congrArg Contents.records hcontents
  have hsum : calcChecksum (h.shrink i).block (h.shrink i).salt = 0 := by
    apply calcChecksum_updateChecksum
    · rw [hpbs₃, hpbs₂]
      exact hp
    · rw [hsalt₃, hsalt₂]
      exact hsalt
  have hvalid := hkept.isValid
  rw [isValidNoChecksum, Bool.and_eq_true] at hvalid
  refine ⟨hpbs, hsalt', congrArg Contents.logpackLsid hcontents, hrecords, ?_, ?_⟩
  · rw [hkept.totalIoSize, hrecords, hpbs]
  · rw [LogPackHeader.isValid, hvalid.1, hvalid.2, hsum, decide_eq_true rfl, Bool.or_true]
    rfl

theorem Shrunk.whole {h' : LogPackHeader} {i : Nat} (hs : Shrunk h i h') (hvalid : h.isValid = true)
    (hi : i < h.nRecords)
    (hpbs : h.pbs = cfg.pbs) (hsalt : h.salt = cfg.salt) {ios : List Bytes}
    (hios : List.Forall₂ (IoOf cfg.pbs cfg.salt) (h.records.take i) ios) :
    Whole cfg.pbs cfg.salt ⟨h', ios⟩ where
  valid := by
    refine ⟨hs.pbs.trans hpbs, hs.salt.trans hsalt, hs.isValid, ?_, ?_⟩
    · have hend := end_lt hvalid (Nat.ne_zero_of_lt hi)
      rw [LogPackHeader.isEnd, hs.logpackLsid, decide_eq_false (p := h.logpackLsid = 2 ^ 64 - 1)
        (by omega), Bool.and_false]
    · dsimp only
      rw [hs.records]
      exact hios
  totalIoSize := by
    dsimp only
    rw [hs.totalIoSize, hs.records, hpbs]

theorem Stop.whole {lsid : Nat} {extra : List Pack} {isShrinked : Bool} (hsalt : cfg.salt < 2 ^ 32)
    (hstop : Stop cfg lsid rest extra isShrinked) :
    (∀ p, p ∈ extra → Whole cfg.pbs cfg.salt p) ∧ Contiguous lsid extra := by
  cases hstop with
  | header h => exact ⟨fun _ hp => absurd hp List.not_mem_nil, trivial⟩
  | io hdo hkept hvalid hpbs hsalt' hlsid hi hios hdata hlen hsum =>
      have hs := shrunk_shrink hkept (by rw [hsalt']; exact hsalt) hi
      refine ⟨fun p hp => ?_, hs.logpackLsid.trans hlsid, trivial⟩
      rw [List.mem_singleton.1 hp]
      exact hs.whole hvalid hi hpbs hsalt' hios

def lastHeader (packs : List Pack) : Option LogPackHeader := packs.getLast?.map Pack.header

theorem runLoop_eq (fuel : Nat) (hS : Takes cfg bufs Ok S) (hsalt : cfg.salt < 2 ^ 32)
    {packs extra : List Pack} {isShrinked : Bool}
    (hwhole : ∀ p, p ∈ packs → Whole cfg.pbs cfg.salt p)
    {lsid : Nat} (hc : Contiguous lsid packs)
    (hstop : Stop cfg (endLsidOf lsid packs) rest extra isShrinked) {a : WlogApplyer σ}
    (ha : S a.ddevWriter logs) (hok : ∀ l, l ∈ logsOf (packs ++ extra) → Ok l)
    (hfuel : packs.length < fuel) :
    ∃ w', runLoop cfg bufs fuel lsid (logBytes packs ++ rest) a =
        .ok (isShrinked, endLsidOf lsid (packs ++ extra),
        ⟨w', (lastHeader (packs ++ extra)).or a.packH⟩) ∧ S w' (logs ++
        logsOf (packs ++ extra)) := by
  induction packs generalizing lsid logs a fuel with
  | nil =>
      obtain ⟨fuel, rfl⟩ := Nat.exists_eq_succ_of_ne_zero (Nat.ne_zero_of_lt hfuel)
      cases hstop with
      | header h =>
          change readLogPackHeader cfg.pbs cfg.salt lsid rest = none at h
          refine ⟨a.ddevWriter, ?_, by rwa [logsOf, List.append_nil, List.flatMap_nil, List.append_nil]⟩
          rw [runLoop, logBytes, List.flatMap_nil, List.nil_append, h]
          rfl
      | @io h i ios torn tail hdo hkept hvalid hpbs hsalt' hlsid hi hios hdata hlen hsum =>
          have hs := shrunk_shrink hkept (by rw [hsalt']; exact hsalt) hi
          have hlogs : logsOf ([] ++ [⟨h.shrink i, ios⟩]) = (h.records.take i).zip ios := by
            rw [List.nil_append, logsOf, List.flatMap_singleton, hs.records]
          rw [hlogs] at hok
          obtain ⟨w', hrun, hw'⟩ :=
            redoLogIos_torn tail hS hdo hpbs hsalt' hi hios hdata hlen hsum ha hok
          refine ⟨w', ?_, by rw [hlogs]; exact hw'⟩
          change h.logpackLsid = lsid at hlsid
          rw [runLoop, logBytes, List.flatMap_nil, List.nil_append, ← hlsid,
            readLogPackHeader_block hvalid hpbs hsalt']
          dsimp only
          rw [hrun]
          rfl
  | cons p packs ih =>
      obtain ⟨fuel, rfl⟩ := Nat.exists_eq_succ_of_ne_zero (Nat.ne_zero_of_lt hfuel)
      obtain ⟨hp, hwhole⟩ := List.forall_mem_cons.1 hwhole
      obtain ⟨hlsid, hc⟩ := hc
      have hlogs : logsOf (p :: packs ++ extra) = p.header.records.zip p.ios ++
        logsOf (packs ++ extra) := rfl
      rw [hlogs] at hok
      obtain ⟨w₁, hios, h₁⟩ := redoLogIos_pack (logBytes packs ++ rest) hS hp.valid ha fun l hl =>
        hok l (List.mem_append_left _ hl)
      rw [endLsidOf_cons] at hstop
      obtain ⟨w₂, hrun, h₂⟩ := ih fuel hwhole hc hstop (a := ⟨w₁, some p.header⟩) h₁
        (fun l hl => hok l (List.mem_append_right _ hl))
        (Nat.lt_of_succ_lt_succ hfuel)
      refine ⟨w₂, ?_, by rwa [hlogs, ← List.append_assoc]⟩
      have hlast : (lastHeader (packs ++ extra)).or (some p.header) =
          (lastHeader (p :: packs ++ extra)).or a.packH := by
        rw [lastHeader, lastHeader, List.cons_append]
        cases hrest : packs ++ extra with
        | nil => rfl
        | cons q rest =>
            rw [List.getLast?_cons_cons, List.getLast?_eq_some_getLast (List.cons_ne_nil q rest)]
            rfl
      rw [hlast] at hrun
      rw [runLoop, logBytes, List.flatMap_cons, List.append_assoc, List.append_assoc, ← hlsid,
        readLogPackHeader_block hp.valid.isValid hp.valid.pbs_eq hp.valid.salt_eq]
      dsimp only
      rw [← logBytes, hios]
      dsimp only
      rw [hrun, List.cons_append, endLsidOf_cons]

end

def Clipped (sizeB offLb sizeLb : Nat) : Prop := deviceSizeLb sizeB < (offLb + sizeLb) % 2 ^ 64

instance (sizeB offLb sizeLb : Nat) : Decidable (Clipped sizeB offLb sizeLb) :=
  inferInstanceAs (Decidable (_ < _))

/-- The IO is not empty, and it and its last byte can be addressed. -/
structure Addressed (offLb sizeLb : Nat) : Prop where
  pos : 0 < sizeLb
  size_lt : sizeLb < 2 ^ 32
  end_lt : offLb + sizeLb < 2 ^ 55

/-- What a writer of the device has to promise. `waits ptr w img ds`: with what was prepared,
and all that is from the buffer at `ptr`, the device would hold `img`, and `ds` was discarded;
`shows w img ds`: nothing is left to be submitted. -/
structure Faithful (σ : Type) [BdevWriter σ] (discarded : Discarding UInt8) (sizeB : Nat) where
  waits : Nat → σ → (Nat → UInt8) → List (DeviceIo UInt8) → Prop
  shows : σ → (Nat → UInt8) → List (DeviceIo UInt8) → Prop
  idle : ∀ {w img ds}, shows w img ds → ∀ ptr, waits ptr w img ds
  isClipped : ∀ {ptr w img ds}, waits ptr w img ds → ∀ offLb sizeLb,
    BdevWriter.isClipped w offLb sizeLb = decide (Clipped sizeB offLb sizeLb)
  clip : ∀ {ptr w img ds}, waits ptr w img ds → ∀ {p : PrepareCall UInt8},
    Clipped sizeB p.offLb p.sizeLb →
    BdevWriter.step w (.prepare p) = .ok (false, w)
  prepare : ∀ {ptr w img ds}, waits ptr w img ds → ∀ {p : PrepareCall UInt8}, p.ptr = ptr →
    ¬Clipped sizeB p.offLb p.sizeLb → Addressed p.offLb p.sizeLb → p.sizeLb < 2 ^ 23 →
      ∃ w', BdevWriter.step w (.prepare p) = .ok (true, w') ∧
        waits ptr w' (write (stretch (p.offLb * 2 ^ 9) p.data) img) ds
  submit : ∀ {ptr w img ds}, waits ptr w img ds → ∃ w', BdevWriter.step w .submit = .ok (true, w') ∧
    shows w' img ds
  clipDiscard : ∀ {w img ds}, shows w img ds → ∀ {offLb sizeLb}, Clipped sizeB offLb sizeLb →
    sizeLb < 2 ^ 32 →
    BdevWriter.step w (.discard offLb sizeLb) = .ok (false, w)
  discard : ∀ {w img ds}, shows w img ds → ∀ {offLb sizeLb}, ¬Clipped sizeB offLb sizeLb →
    sizeLb < 2 ^ 32 →
    ∃ w', BdevWriter.step w (.discard offLb sizeLb) = .ok (true, w') ∧
      shows w' ((issueDiscard offLb sizeLb).apply discarded img) (ds ++ [issueDiscard offLb sizeLb])

def iosOf (cfg : WlogRedoConfig) (sizeB : Nat) (l : WlogRecord × Bytes) : List (DeviceIo UInt8) :=
  if l.1.isPadding || decide (Clipped sizeB l.1.offset l.1.ioSize) then []
  else if l.1.isDiscard then
    if cfg.isDiscard then [issueDiscard l.1.offset l.1.ioSize]
    else if !cfg.isZeroDiscard then []
    else [.pwrite (l.1.offset * 2 ^ 9) (List.replicate (l.1.ioSize * 2 ^ 9) 0)]
  else [.pwrite (l.1.offset * 2 ^ 9) (l.2.take (l.1.ioSize * 2 ^ 9))]

def iosOfLogs (cfg : WlogRedoConfig) (sizeB : Nat) (logs : List (WlogRecord × Bytes)) :
    List (DeviceIo UInt8) :=
  logs.flatMap (iosOf cfg sizeB)

def replay (discarded : Discarding UInt8) (cfg : WlogRedoConfig) (sizeB : Nat)
    (device : Nat → UInt8) (logs : List (WlogRecord × Bytes)) : Nat → UInt8 :=
  DeviceIo.applyAll discarded device (iosOfLogs cfg sizeB logs)

/-- A valid record with its data; what it writes can be addressed. -/
structure Applicable (l : WlogRecord × Bytes) : Prop where
  addressed : l.1.isPadding = false → Addressed l.1.offset l.1.ioSize
  size_lt : l.1.isPadding = false → l.1.isDiscard = false → l.1.ioSize < 2 ^ 23
  data : l.1.isPadding = false → l.1.isDiscard = false → l.1.ioSize * 2 ^ 9 ≤ l.2.length

section

variable {σ : Type} [BdevWriter σ] {discarded : Discarding UInt8} {cfg : WlogRedoConfig}
  {bufs : Buffers} {sizeB : Nat} {device img : Nat → UInt8} {ds : List (DeviceIo UInt8)} {w : σ}

theorem write_stretch_append (pos : Nat) (l m : Bytes) (img : Nat → UInt8) :
    write (stretch (pos + l.length) m) (write (stretch pos l) img) =
      write (stretch pos (l ++ m)) img := by
  rw [write_write, stretch_append]

theorem zeroLoop_spec (F : Faithful σ discarded sizeB) {fuel offLb sizeLb : Nat}
    (hfuel : sizeLb ≤ fuel) (hclip : ¬Clipped sizeB offLb sizeLb)
    (hend : offLb + sizeLb < 2 ^ 55) (hw : F.waits bufs.zeroAddr w img ds) :
    ∃ w', zeroLoop bufs fuel offLb sizeLb w = .ok (true, w') ∧
      F.waits bufs.zeroAddr w' (write (stretch (offLb * 2 ^ 9) (List.replicate (sizeLb * 2 ^ 9) 0))
      img) ds := by
  induction fuel generalizing offLb sizeLb w img with
  | zero =>
      obtain rfl := Nat.le_zero.1 hfuel
      refine ⟨w, rfl, ?_⟩
      have hnone : write (stretch (offLb * 2 ^ 9) (List.replicate (0 * 2 ^ 9) 0)) img = img :=
        funext fun a => write_of_none (by rw [stretch]; split_ifs <;> rfl)
      rwa [hnone]
  | succ fuel ih =>
      rw [zeroLoop]
      by_cases hzero : sizeLb = 0
      · subst hzero
        refine ⟨w, rfl, ?_⟩
        have hnone : write (stretch (offLb * 2 ^ 9) (List.replicate (0 * 2 ^ 9) 0)) img = img :=
          funext fun a => write_of_none (by rw [stretch]; split_ifs <;> rfl)
        rwa [hnone]
      · rw [if_neg hzero]
        dsimp only
        have hbulk : DEFAULT_BULK_LB = 128 := by decide
        generalize hlb : min DEFAULT_BULK_LB sizeLb = lb
        have hpos : 0 < lb := by omega
        have hle : lb ≤ sizeLb := by omega
        have hclip' : ¬Clipped sizeB offLb lb := by
          simp only [Clipped, not_lt] at hclip ⊢
          omega
        obtain ⟨w₁, hstep, h₁⟩ := F.prepare hw (p := prepareCall offLb lb bufs.zeroAddr []) rfl hclip'
          ⟨hpos, show lb < 2 ^ 32 by omega, show offLb + lb < 2 ^ 55 by omega⟩
            (show lb < 2 ^ 23 by omega)
        have hmod : (offLb + lb) % 2 ^ 64 = offLb + lb := Nat.mod_eq_of_lt (by omega)
        have hclip₁ : ¬Clipped sizeB (offLb + lb) (sizeLb - lb) := by
          simp only [Clipped, not_lt] at hclip ⊢
          rwa [Nat.add_assoc, Nat.add_sub_cancel' hle]
        obtain ⟨w₂, hrun, h₂⟩ := ih (by omega) hclip₁ (by omega) h₁
        refine ⟨w₂, ?_, ?_⟩
        · rw [hstep]
          dsimp only
          rw [hmod]
          exact hrun
        · have hdata : (prepareCall offLb lb bufs.zeroAddr []).data =
            List.replicate (lb * 2 ^ 9) 0 := List.takeD_nil _ _
          have hlen : (List.replicate (lb * 2 ^ 9) (0 : UInt8)).length = lb * 2 ^ 9 :=
            List.length_replicate
          have hsum : List.replicate (sizeLb * 2 ^ 9) (0 : UInt8) =
              List.replicate (lb * 2 ^ 9) 0 ++ List.replicate ((sizeLb - lb) * 2 ^ 9) 0 := by
            rw [List.replicate_append_replicate, ← Nat.add_mul, Nat.add_sub_cancel' hle]
          rw [hdata] at h₂
          rw [hsum, ← write_stretch_append, hlen, ← Nat.add_mul]
          exact h₂

theorem takeD_eq {n : Nat} {l : Bytes} (h : n ≤ l.length) : l.takeD n 0 = l.take n :=
  List.takeD_eq_take 0 h

variable (bufs) in
theorem prepareZeroWrite_spec (F : Faithful σ discarded sizeB) {offLb sizeLb : Nat}
    (ha : Addressed offLb sizeLb) (hw : F.shows w img ds) :
    ∃ b w', prepareZeroWrite bufs offLb sizeLb w = .ok (b, w') ∧ F.waits bufs.zeroAddr w'
      (if Clipped sizeB offLb sizeLb then img else write
        (stretch (offLb * 2 ^ 9) (List.replicate (sizeLb * 2 ^ 9) 0)) img) ds := by
  have hidle := F.idle hw bufs.zeroAddr
  rw [prepareZeroWrite, F.isClipped hidle]
  by_cases hclip : Clipped sizeB offLb sizeLb
  · rw [if_pos (decide_eq_true hclip), if_pos hclip]
    exact ⟨false, w, rfl, hidle⟩
  · rw [decide_eq_false hclip, if_neg (by decide), if_neg hclip]
    obtain ⟨w', hrun, hw'⟩ := zeroLoop_spec F (Nat.le_refl sizeLb) hclip ha.end_lt hidle
    exact ⟨true, w', hrun, hw'⟩

variable (bufs) in
theorem redoNormalIo_spec (F : Faithful σ discarded sizeB) {l : WlogRecord × Bytes}
    (hok : Applicable l) (hpad : l.1.isPadding = false)
    (hw : F.shows w img ds) :
    ∃ w', redoNormalIo bufs l.1 l.2 w = .ok w' ∧ F.shows w'
      (if Clipped sizeB l.1.offset l.1.ioSize then img
        else write (stretch (l.1.offset * 2 ^ 9)
          (if l.1.isDiscard then List.replicate (l.1.ioSize * 2 ^ 9) 0
            else l.2.take (l.1.ioSize * 2 ^ 9))) img) ds := by
  have ha := hok.addressed hpad
  rw [redoNormalIo]
  cases hd : l.1.isDiscard with
  | true =>
      obtain ⟨b, w₁, hzero, h₁⟩ := prepareZeroWrite_spec bufs F ha hw
      obtain ⟨w₂, hsubmit, h₂⟩ := F.submit h₁
      refine ⟨w₂, ?_, h₂⟩
      rw [if_pos rfl, hzero]
      change BdevWriter.step w₁ .submit >>= _ = _
      rw [hsubmit]
      rfl
  | false =>
      have hidle := F.idle hw (bufs.addr l.1)
      have hdata : (prepareCall l.1.offset l.1.ioSize (bufs.addr l.1) l.2).data =
          l.2.take (l.1.ioSize * 2 ^ 9) :=
        takeD_eq (hok.data hpad hd)
      by_cases hclip : Clipped sizeB l.1.offset l.1.ioSize
      · obtain ⟨w₂, hsubmit, h₂⟩ := F.submit hidle
        refine ⟨w₂, ?_, by rwa [if_pos hclip]⟩
        rw [if_neg (by decide), F.clip hidle (p := prepareCall l.1.offset l.1.ioSize (bufs.addr l.1)
          l.2) hclip]
        change BdevWriter.step w .submit >>= _ = _
        rw [hsubmit]
        rfl
      · obtain ⟨w₁, hstep, h₁⟩ :=
          F.prepare hidle (p := prepareCall l.1.offset l.1.ioSize (bufs.addr l.1) l.2) rfl hclip ha
          (hok.size_lt hpad hd)
        obtain ⟨w₂, hsubmit, h₂⟩ := F.submit h₁
        rw [hdata] at h₂
        refine ⟨w₂, ?_, by rw [if_neg hclip, if_neg (by decide)]; exact h₂⟩
        rw [if_neg (by decide), hstep]
        change BdevWriter.step w₁ .submit >>= _ = _
        rw [hsubmit]
        rfl

def Given (F : Faithful σ discarded sizeB) (cfg : WlogRedoConfig) (device : Nat → UInt8) (w : σ)
    (logs : List (WlogRecord × Bytes)) : Prop :=
  F.shows w (replay discarded cfg sizeB device logs) ((iosOfLogs cfg sizeB logs).filter
    DeviceIo.isDiscard)

theorem iosOfLogs_concat (logs : List (WlogRecord × Bytes)) (l : WlogRecord × Bytes) :
    iosOfLogs cfg sizeB (logs ++ [l]) = iosOfLogs cfg sizeB logs ++ iosOf cfg sizeB l := by
  rw [iosOfLogs, List.flatMap_append, List.flatMap_singleton, iosOfLogs]

theorem Given.concat {F : Faithful σ discarded sizeB} {logs : List (WlogRecord × Bytes)}
    {l : WlogRecord × Bytes}
    {ios : List (DeviceIo UInt8)} (hios : iosOf cfg sizeB l = ios)
    (hw : F.shows w (DeviceIo.applyAll discarded (replay discarded cfg sizeB device logs) ios)
      ((iosOfLogs cfg sizeB logs).filter DeviceIo.isDiscard ++ ios.filter DeviceIo.isDiscard)) :
    Given F cfg device w (logs ++ [l]) := by
  rwa [Given, replay, iosOfLogs_concat, DeviceIo.applyAll_append, List.filter_append, hios]

theorem Given.concat_nil {F : Faithful σ discarded sizeB} {logs : List (WlogRecord × Bytes)}
    {l : WlogRecord × Bytes}
    {w' : σ} (hios : iosOf cfg sizeB l = []) (hw : F.shows w' (replay discarded cfg sizeB device logs)
      ((iosOfLogs cfg sizeB logs).filter DeviceIo.isDiscard)) : Given F cfg device w' (logs ++ [l]) := by
  apply Given.concat hios
  rw [List.filter_nil, List.append_nil]
  exact hw

theorem Given.concat_pwrite {F : Faithful σ discarded sizeB} {logs : List (WlogRecord × Bytes)}
    {l : WlogRecord × Bytes} {offset : Nat} {data : Bytes}
    (hios : iosOf cfg sizeB l = [.pwrite offset data])
    (hw : F.shows w (write (stretch offset data) (replay discarded cfg sizeB device logs))
      ((iosOfLogs cfg sizeB logs).filter DeviceIo.isDiscard)) : Given F cfg device w (logs ++ [l]) := by
  apply Given.concat hios
  have hnone : [(.pwrite offset data : DeviceIo UInt8)].filter DeviceIo.isDiscard = [] := rfl
  rw [hnone, List.append_nil]
  exact hw

theorem redoDiscard_spec (F : Faithful σ discarded sizeB) {l : WlogRecord × Bytes}
    (ha : Addressed l.1.offset l.1.ioSize) (hw : F.shows w img ds) :
    ∃ w', redoDiscard l.1 w = .ok w' ∧
      if Clipped sizeB l.1.offset l.1.ioSize then F.shows w' img ds
      else F.shows w' ((issueDiscard l.1.offset l.1.ioSize).apply discarded img)
        (ds ++ [issueDiscard l.1.offset l.1.ioSize]) := by
  rw [redoDiscard]
  by_cases hclip : Clipped sizeB l.1.offset l.1.ioSize
  · rw [F.clipDiscard hw hclip ha.size_lt]
    exact ⟨w, rfl, by rwa [if_pos hclip]⟩
  · obtain ⟨w', hstep, hw'⟩ := F.discard hw hclip ha.size_lt
    rw [hstep]
    exact ⟨w', rfl, by rwa [if_neg hclip]⟩

variable (cfg bufs device) in
theorem takes_of_faithful (F : Faithful σ discarded sizeB) :
    Takes cfg bufs Applicable (Given F cfg device) := by
  intro w logs l hw hok
  rw [redoLogIo]
  cases hpad : l.1.isPadding with
  | true => exact ⟨w, if_pos rfl, .concat_nil (by simp [iosOf, hpad]) hw⟩
  | false =>
      have ha := hok.addressed hpad
      obtain ⟨w₁, hnormal, h₁⟩ := redoNormalIo_spec bufs F hok hpad hw
      obtain ⟨w₂, hdiscard, h₂⟩ := redoDiscard_spec F ha hw
      rw [if_neg (by decide)]
      by_cases hclip : Clipped sizeB l.1.offset l.1.ioSize
      · -- Nothing is written or discarded, whatever the record is.
        have hnil : iosOf cfg sizeB l = [] := by simp [iosOf, hclip]
        rw [if_pos hclip] at h₁ h₂
        split_ifs
        · exact ⟨w₂, hdiscard, .concat_nil hnil h₂⟩
        · exact ⟨w, rfl, .concat_nil hnil hw⟩
        · exact ⟨w₁, hnormal, .concat_nil hnil h₁⟩
        · exact ⟨w₁, hnormal, .concat_nil hnil h₁⟩
      · rw [if_neg hclip] at h₁ h₂
        cases hd : l.1.isDiscard with
        | false =>
            rw [hd, if_neg (by decide)] at h₁
            have hios : iosOf cfg sizeB l = [.pwrite (l.1.offset * 2 ^ 9)
                (l.2.take (l.1.ioSize * 2 ^ 9))] := by
              simp [iosOf, hpad, hclip, hd]
            exact ⟨w₁, by rw [if_neg (by decide)]; exact hnormal, .concat_pwrite hios h₁⟩
        | true =>
            rw [hd, if_pos rfl] at h₁
            rw [if_pos rfl]
            split_ifs with hdo hzero
            · have hios : iosOf cfg sizeB l = [issueDiscard l.1.offset l.1.ioSize] := by
                simp [iosOf, hpad, hclip, hd, hdo]
              exact ⟨w₂, hdiscard, .concat hios h₂⟩
            · exact ⟨w, rfl, .concat_nil (by simpa [iosOf, hpad, hclip, hd, hdo] using hzero) hw⟩
            · have hios : iosOf cfg sizeB l = [.pwrite (l.1.offset * 2 ^ 9)
                  (List.replicate (l.1.ioSize * 2 ^ 9) 0)] := by
                simpa [iosOf, hpad, hclip, hd, hdo] using hzero
              exact ⟨w₁, hnormal, .concat_pwrite hios h₁⟩

end

section

variable {discarded : Discarding UInt8} {sizeB : Nat} {device img : Nat → UInt8}
  {ds : List (DeviceIo UInt8)}

/-- With what waits in the queue the device of the simple writer would hold `img`. -/
structure SimpleWaits (discarded : Discarding UInt8) (sizeB : Nat) (device : Nat → UInt8)
    (w : SimpleBdevWriter UInt8) (img : Nat → UInt8) (ds : List (DeviceIo UInt8)) : Prop where
  bdevSizeLb : w.bdevSizeLb = deviceSizeLb sizeB
  image : DeviceIo.applyAll discarded device w.submit.issued = img
  discards : w.issued.filter DeviceIo.isDiscard = ds

theorem filter_submitted (ps : List (PrepareCall UInt8)) :
    (ps.map fun p => DeviceIo.pwrite (p.offLb * 2 ^ 9 % 2 ^ 64) p.data).filter DeviceIo.isDiscard =
      [] := by
  rw [List.filter_map, List.map_eq_nil_iff]
  exact List.filter_eq_nil_iff.2 fun _ _ => Bool.false_ne_true

theorem SimpleWaits.isClipped {w : SimpleBdevWriter UInt8}
    (h : SimpleWaits discarded sizeB device w img ds)
    (offLb sizeLb : Nat) : w.isClipped offLb sizeLb = decide (Clipped sizeB offLb sizeLb) := by
  rw [SimpleBdevWriter.isClipped, h.bdevSizeLb]
  rfl

theorem SimpleWaits.prepare {w : SimpleBdevWriter UInt8}
    (h : SimpleWaits discarded sizeB device w img ds)
    {p : PrepareCall UInt8} (hclip : ¬Clipped sizeB p.offLb p.sizeLb) (ha : Addressed p.offLb p.sizeLb) :
    w.prepare p = (true, { w with ioQ := w.ioQ ++ [p] }) ∧
      SimpleWaits discarded sizeB device { w with ioQ := w.ioQ ++ [p] }
      (write (stretch (p.offLb * 2 ^ 9) p.data) img)
        ds := by
  have hend := ha.end_lt
  refine ⟨?_, h.bdevSizeLb, ?_, h.discards⟩
  · rw [SimpleBdevWriter.prepare, h.isClipped, decide_eq_false hclip, if_neg (by decide)]
  · rw [← h.image]
    dsimp only [SimpleBdevWriter.submit]
    rw [List.map_append, ← List.append_assoc, DeviceIo.applyAll_append, List.map_singleton,
      Nat.mod_eq_of_lt (by omega)]
    rfl

theorem SimpleWaits.submit {w : SimpleBdevWriter UInt8}
    (h : SimpleWaits discarded sizeB device w img ds) :
    SimpleWaits discarded sizeB device w.submit img ds := by
  refine ⟨h.bdevSizeLb, ?_, ?_⟩
  · rw [← h.image]
    exact congrArg (DeviceIo.applyAll discarded device) (List.append_nil _)
  · rw [SimpleBdevWriter.submit, List.filter_append, filter_submitted, List.append_nil]
    exact h.discards

theorem SimpleWaits.discard {w : SimpleBdevWriter UInt8}
    (h : SimpleWaits discarded sizeB device w img ds)
    (hnil : w.ioQ = []) {offLb sizeLb : Nat} (hclip : ¬Clipped sizeB offLb sizeLb) :
    w.discard offLb sizeLb = (true, { w with issued := w.issued ++ [issueDiscard offLb sizeLb] }) ∧
      SimpleWaits discarded sizeB device { w with issued := w.issued ++ [issueDiscard offLb sizeLb] }
        ((issueDiscard offLb sizeLb).apply discarded img) (ds ++ [issueDiscard offLb sizeLb]) := by
  refine ⟨?_, h.bdevSizeLb, ?_, ?_⟩
  · rw [SimpleBdevWriter.discard, h.isClipped, decide_eq_false hclip, if_neg (by decide)]
  · rw [← h.image]
    dsimp only [SimpleBdevWriter.submit]
    rw [hnil, List.map_nil, List.append_nil, List.append_nil, DeviceIo.applyAll_append]
    rfl
  · rw [← h.discards]
    exact List.filter_append _ _

/-- The same of the asynchronous one; what waits is all from one buffer. -/
structure AsyncWaits (discarded : Discarding UInt8) (sizeB ptr : Nat) (w : DiscardWriter UInt8)
    (img : Nat → UInt8) (ds : List (DeviceIo UInt8)) : Prop where
  bdevSizeLb : w.bdevSizeLb = deviceSizeLb sizeB
  waiting : Waiting w.toWriter img
  ptr : ∀ io, io ∈ w.fetched → io.ptr = ptr
  discarded_eq : w.discarded = discarded
  discards : w.discards = ds

theorem tryMerge_eq_none {dst src : FetchedIo UInt8} (hv : dst.Valid) (hptr : dst.ptr = src.ptr) :
    tryMerge dst src = none := by
  have hpos := hv.pos
  have hcan : dst.canMerge src = false := by
    rw [FetchedIo.canMerge, hptr, decide_eq_false (p := src.ptr + dst.size = src.ptr) (by omega),
      Bool.and_false]
  rw [tryMerge, FetchedIo.tryMerge, hcan, if_neg (show ¬false = true by decide), ite_self]

theorem ptr_addFetched {ptr : Nat} {fetched : List (FetchedIo UInt8)} {src : FetchedIo UInt8}
    (h : ∀ io, io ∈ fetched → io.ptr = ptr)
    (hsrc : src.ptr = ptr) : ∀ io, io ∈ addFetched fetched src → io.ptr = ptr := by
  intro io hio
  rcases addFetched_cases fetched src with ⟨dst, rest, merged, rfl, hmerged, hadd⟩ | hadd
  · rw [hadd] at hio
    obtain ⟨-, -, rfl⟩ := tryMerge_eq_some hmerged
    rcases List.mem_cons.1 hio with rfl | hio
    · exact h dst List.mem_cons_self
    · exact h io (List.mem_cons_of_mem dst hio)
  · rw [hadd] at hio
    rcases List.mem_append.1 hio with hio | hio
    · exact h io hio
    · rw [List.mem_singleton.1 hio]
      exact hsrc

theorem fetched_submit {w w' : Writer UInt8} (h : w.submit = some w') : w'.fetched = [] := by
  rw [Writer.submit, Option.map_eq_some_iff] at h
  obtain ⟨engine, -, rfl⟩ := h
  rfl

theorem AsyncWaits.isClipped {ptr : Nat} {w : DiscardWriter UInt8}
    (h : AsyncWaits discarded sizeB ptr w img ds) (offLb sizeLb : Nat) :
    w.toWriter.isClipped offLb sizeLb = decide (Clipped sizeB offLb sizeLb) := by
  rw [Writer.isClipped, h.bdevSizeLb]
  rfl

theorem AsyncWaits.idle {ptr : Nat} {w : DiscardWriter UInt8}
    (h : AsyncWaits discarded sizeB ptr w img ds) (hnil : w.fetched = []) (ptr' : Nat) :
    AsyncWaits discarded sizeB ptr' w img ds := by
  refine ⟨h.bdevSizeLb, h.waiting, ?_, h.discarded_eq, h.discards⟩
  rw [hnil]
  exact fun _ hio => absurd hio List.not_mem_nil

theorem AsyncWaits.prepare {ptr : Nat} {w : DiscardWriter UInt8}
    (h : AsyncWaits discarded sizeB ptr w img ds) {p : PrepareCall UInt8}
    (hptr : p.ptr = ptr) (hclip : ¬Clipped sizeB p.offLb p.sizeLb) (ha : Addressed p.offLb p.sizeLb)
    (hsize : p.sizeLb < 2 ^ 23) :
    w.toWriter.prepare p = (true, { w.toWriter with fetched := addFetched w.fetched p.io }) ∧
      AsyncWaits discarded sizeB ptr { w with toWriter := { w.toWriter with
      fetched := addFetched w.fetched p.io } }
        (write (stretch (p.offLb * 2 ^ 9) p.data) img) ds := by
  have hc : w.toWriter.isClipped p.offLb p.sizeLb = false := by
    rw [h.isClipped]
    exact decide_eq_false hclip
  have hp : w.toWriter.prepare p = (true, { w.toWriter with fetched := addFetched w.fetched p.io }) := by
    rw [Writer.prepare, hc, if_neg (by decide)]
  have hend := ha.end_lt
  have hclear : w.toWriter.Clear (.prepare p) := by
    refine fun _ => ⟨ha.pos, hsize, by omega, fun dst rest hf hmerge => ?_⟩
    have hdst : dst ∈ w.fetched := by
      rw [hf]
      exact List.mem_cons_self
    exact absurd (tryMerge_eq_none (h.waiting.valid dst hdst) ((h.ptr dst hdst).trans hptr.symm)) hmerge
  obtain ⟨w', hstep, hw', hsame⟩ := h.waiting.step hclear
  change some (w.toWriter.prepare p).2 = some w' at hstep
  rw [hp] at hstep
  cases hstep
  refine ⟨hp, h.bdevSizeLb, ?_, ptr_addFetched h.ptr hptr, h.discarded_eq, h.discards⟩
  rw [Writer.accepted, Writer.accepted, hc, if_neg (by decide)] at hw'
  exact hw'

theorem AsyncWaits.submit {ptr : Nat} {w : DiscardWriter UInt8}
    (h : AsyncWaits discarded sizeB ptr w img ds) :
    ∃ w', w.toWriter.submit = some w' ∧ AsyncWaits discarded sizeB 0
      { w with toWriter := w' } img ds ∧ w'.fetched = [] := by
  obtain ⟨w', hsubmit, hw', hsame⟩ := h.waiting.submit
  have hnil := fetched_submit hsubmit
  refine ⟨w', hsubmit, ⟨hsame.trans h.bdevSizeLb, hw', ?_, h.discarded_eq, h.discards⟩, hnil⟩
  rw [hnil]
  exact fun _ hio => absurd hio List.not_mem_nil

/-- Every write that was prepared before is on the device when the discard is issued. -/
theorem AsyncWaits.discard {ptr : Nat} {w : DiscardWriter UInt8}
    (h : AsyncWaits discarded sizeB ptr w img ds)
    {offLb sizeLb : Nat} (hclip : ¬Clipped sizeB offLb sizeLb) (hsize : sizeLb < 2 ^ 32) :
    ∃ w', w.discard offLb sizeLb = some (true, w') ∧
      AsyncWaits discarded sizeB 0 w' ((issueDiscard offLb sizeLb).apply discarded img)
        (ds ++ [issueDiscard offLb sizeLb]) ∧ w'.fetched = [] := by
  have hc : w.toWriter.isClipped offLb (sizeLb % 2 ^ 32) = false := by
    rw [h.isClipped, Nat.mod_eq_of_lt hsize]
    exact decide_eq_false hclip
  obtain ⟨w', hwait, hgiven, hsame, hnil⟩ := h.waiting.give w.discarded (issueDiscard offLb sizeLb)
  refine ⟨⟨w'.give w.discarded (issueDiscard offLb sizeLb), w.discarded,
    w.discards ++ [issueDiscard offLb sizeLb]⟩,
    ?_, ⟨hsame.trans h.bdevSizeLb, ?_, ?_, h.discarded_eq, ?_⟩, hnil⟩
  · rw [DiscardWriter.discard, hc, if_neg (by decide), hwait, Nat.mod_eq_of_lt hsize]
    rfl
  · rw [← h.discarded_eq]
    exact hgiven
  · intro io hio
    change io ∈ w'.fetched at hio
    rw [hnil] at hio
    exact absurd hio List.not_mem_nil
  · rw [← h.discards]

end

section

variable {cfg : WlogRedoConfig} {packs extra : List Pack} {rest : Bytes} {isShrinked : Bool}

theorem length_logBytes (hb : 0 < cfg.pbs) (hwhole : ∀ p, p ∈ packs → Whole cfg.pbs cfg.salt p) :
    packs.length ≤ (logBytes packs).length := by
  induction packs with
  | nil => exact Nat.zero_le _
  | cons p packs ih =>
      obtain ⟨hp, hwhole⟩ := List.forall_mem_cons.1 hwhole
      have hlen : p.header.block.length = cfg.pbs := p.header.length_block.trans hp.valid.pbs_eq
      have hle := ih hwhole
      rw [logBytes, List.flatMap_cons, List.length_append, List.length_append, hlen,
        List.length_cons, ← logBytes]
      omega

theorem le_capacityPb {pbs : Nat} (hb : BlockSize pbs) (n : Nat) : n * lbs ≤ capacityPb pbs n * pbs := by
  have hpos := hb.blocks_pos
  have hpbs : pbs / lbs * lbs = pbs := Nat.div_mul_cancel hb.dvd
  have hdiv := Nat.div_add_mod (n + pbs / lbs - 1) (pbs / lbs)
  have hmod := Nat.mod_lt (n + pbs / lbs - 1) hpos
  have hle : n ≤ capacityPb pbs n * (pbs / lbs) := by
    rw [capacityPb, Nat.mul_comm]
    omega
  calc n * lbs ≤ capacityPb pbs n * (pbs / lbs) * lbs := Nat.mul_le_mul_right _ hle
    _ = capacityPb pbs n * pbs := by rw [Nat.mul_assoc, hpbs]

/-- The records of valid packs can be applied where their addresses allow it. -/
theorem applicable_of_whole (hb : BlockSize cfg.pbs) (hwhole : ∀ p, p ∈ packs → Whole cfg.pbs cfg.salt p)
    (haddr : ∀ l, l ∈ logsOf packs → l.1.isPadding = false → l.1.offset + l.1.ioSize < 2 ^ 55) :
    ∀ l, l ∈ logsOf packs → Applicable l := by
  intro l hl
  obtain ⟨p, hp, hzip⟩ := List.mem_flatMap.1 hl
  have hvalid := (hwhole p hp).valid
  have hr : l.1.isValid = true := isValid_of_mem hvalid.isValid (List.of_mem_zip hzip).1
  have hio : IoOf cfg.pbs cfg.salt l.1 l.2 := (List.forall₂_iff_zip.1 hvalid.ios).2 hzip
  have hfits : l.1.ioSize < 2 ^ 32 := by
    obtain ⟨i, -, hi⟩ := List.mem_map.1 (List.of_mem_zip hzip).1
    rw [← hi]
    exact fits_record.ioSize
  simp only [WlogRecord.isValid, Bool.and_eq_true, Bool.or_eq_true, decide_eq_true_eq] at hr
  obtain ⟨⟨⟨⟨hexist, hpos⟩, hmax⟩, -⟩, -⟩ := hr
  refine ⟨fun hpad => ⟨?_, hfits, haddr l hl hpad⟩, fun _ hd => ?_, fun hpad hd => ?_⟩
  · exact hpos.resolve_left fun h => by
      rw [hpad] at h
      cases h
  · have hle := hmax.resolve_left fun h => by
      rw [hd] at h
      cases h
    rw [WALB_MAX_NORMAL_IO_SECTORS] at hle
    omega
  · have hhas : l.1.hasData = true := by rw [WlogRecord.hasData, hexist, hd]; rfl
    rw [hio.length hhas]
    exact le_capacityPb hb l.1.ioSize

theorem run_eq {σ : Type} [BdevWriter σ] {discarded : Discarding UInt8} {sizeB : Nat}
    (F : Faithful σ discarded sizeB)
    (bufs : Buffers) (device : Nat → UInt8) (hb : BlockSize cfg.pbs) {devPbs : Nat}
    (hdev : devPbs ≤ cfg.pbs ∧ cfg.pbs % devPbs = 0) (hsalt : cfg.salt < 2 ^ 32)
    (hwhole : ∀ p, p ∈ packs → Whole cfg.pbs cfg.salt p) (hc : Contiguous cfg.bgnLsid packs)
    (hstop : Stop cfg (endLsidOf cfg.bgnLsid packs) rest extra isShrinked)
    (haddr : ∀ l, l ∈ logsOf (packs ++ extra) → l.1.isPadding = false →
      l.1.offset + l.1.ioSize < 2 ^ 55) {w : σ}
    (hw : F.shows w device []) :
    ∃ w', Given F cfg device w' (logsOf (packs ++ extra)) ∧
      run cfg bufs devPbs (logBytes packs ++ rest) w = (BdevWriter.step w' .waitForAll).map fun r =>
        (isShrinked, endLsidOf cfg.bgnLsid (packs ++ extra), ⟨r.2, lastHeader (packs ++ extra)⟩) := by
  have hextra := (hstop.whole hsalt).1
  have hall : ∀ p, p ∈ packs ++ extra → Whole cfg.pbs cfg.salt p :=
    fun p hp => (List.mem_append.1 hp).elim (hwhole p) (hextra p)
  have hlen := length_logBytes hb.pos hwhole
  obtain ⟨w', hloop, hw'⟩ :=
    runLoop_eq ((logBytes packs ++ rest).length + 1) (takes_of_faithful cfg bufs device F)
    hsalt hwhole hc hstop (a := ⟨w, none⟩) (show Given F cfg device w [] from hw)
      (applicable_of_whole hb hall haddr)
    (by rw [List.length_append]; omega)
  refine ⟨w', hw', ?_⟩
  rw [Option.or_none] at hloop
  rw [run, verifyApplicablePbs, if_pos hdev]
  change runLoop cfg bufs _ cfg.bgnLsid (logBytes packs ++ rest) ⟨w, none⟩ >>= _ = _
  rw [hloop]
  change BdevWriter.step w' .waitForAll >>= _ = _
  cases BdevWriter.step w' .waitForAll <;> rfl

end

theorem salt_threeEdits (h : LogPackHeader) : (LogPackHeader.run h threeEdits).salt = h.salt := by
  have hnormal : ∀ (h : LogPackHeader) offset size, (h.addNormalIo offset size).2.salt = h.salt := by
    intro h offset size
    rw [LogPackHeader.addNormalIo]
    split_ifs <;> rfl
  have hdiscard : ∀ (h : LogPackHeader) offset size, (h.addDiscardIo offset size).2.salt = h.salt := by
    intro h offset size
    rw [LogPackHeader.addDiscardIo]
    split_ifs <;> rfl
  exact (hnormal _ _ _).trans ((hnormal _ _ _).trans (hdiscard _ _ _))

theorem exists_twoRecords : ∃ h : LogPackHeader, h.Kept ∧ h.isValid = true ∧ h.pbs = lbs ∧
    h.salt = 0 ∧ h.logpackLsid = 7 ∧
    h.records = [⟨0, 5, 0, 8, 1, 8⟩, ⟨0, 1, 8, 8, 1, 8⟩] := by
  have hcontents := contents_threeEdits (h := LogPackHeader.init lbs 0 7) rfl contents_init_lbs
  have hpbs := pbs_threeEdits (h := LogPackHeader.init lbs 0 7) rfl
  have hsalt : (LogPackHeader.run (LogPackHeader.init lbs 0 7) threeEdits).salt = 0 := salt_threeEdits _
  generalize LogPackHeader.run (LogPackHeader.init lbs 0 7) threeEdits = g at hcontents hpbs hsalt
  have hn := nRecords_of_contents hcontents
  have hrecords : g.records = [⟨0, 5, 0, 8, 1, 8⟩, ⟨0, 1, 8, 8, 1, 8⟩, ⟨0, 1, 16, 8, 9, 16⟩] :=
    congrArg Contents.records hcontents
  have hlsid : g.logpackLsid = 7 := congrArg Contents.logpackLsid hcontents
  have htotal : g.totalIoSize = 16 := congrArg Contents.totalIoSize hcontents
  have hpadding : g.nPadding = 0 := congrArg Contents.nPadding hcontents
  have hkept : g.Kept := by
    refine ⟨hpbs ▸ blockSize_lbs, ?_, congrArg Contents.sectorType hcontents, ?_, ?_, ?_, ?_, ?_,
      ?_, ?_, ?_⟩
    · rw [hn, hpbs]
      decide
    · rw [hrecords]
      decide
    · rw [hrecords]
      decide
    · rw [hrecords, hlsid]
      decide
    · rw [hrecords, hpbs]
      exact ⟨by decide, by decide, by decide, trivial⟩
    · rw [htotal, hrecords, hpbs]
      decide
    · rw [hpadding, hrecords]
      decide
    · rw [hpadding]
      decide
    · intro _
      rw [hlsid, htotal]
      decide
  have hi : 2 < g.nRecords := by
    rw [hn]
    decide
  have hs := shrunk_shrink hkept (by rw [hsalt]; decide) hi
  refine ⟨g.shrink 2, hkept.shrink hi, hs.isValid, hs.pbs.trans hpbs, hs.salt.trans hsalt,
    hs.logpackLsid.trans hlsid, ?_⟩
  rw [hs.records, hrecords]
  rfl

end WalbTools.WlogRedo
