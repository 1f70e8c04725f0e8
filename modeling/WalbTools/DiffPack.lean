import WalbTools.DiffMem
import WalbTools.Queue

namespace WalbTools.DiffPack

open Overlay ByteMemory DiffIo
open Queue (calcChecksum)

structure LogicalBlock where
  bytes : Bytes
  length_bytes : bytes.length = lbs
  deriving DecidableEq

namespace LogicalBlock

def toBytes (io : List LogicalBlock) : Bytes := io.flatMap bytes

/-- The blocks of a buffer; a rest shorter than a block is dropped. -/
def ofBytes (data : Bytes) : List LogicalBlock :=
  if h : lbs ≤ data.length then
    ⟨data.take lbs, List.length_take_of_le h⟩ :: ofBytes (data.drop lbs)
  else []
termination_by data.length
decreasing_by
  rw [List.length_drop, lbs]
  rw [lbs] at h
  omega

theorem length_toBytes (io : List LogicalBlock) : (toBytes io).length = io.length * lbs := by
  induction io with
  | nil => rfl
  | cons b io ih =>
      rw [toBytes, List.flatMap_cons, List.length_append, b.length_bytes, ← toBytes, ih,
        List.length_cons,
        Nat.succ_mul, Nat.add_comm]

theorem ofBytes_toBytes (io : List LogicalBlock) : ofBytes (toBytes io) = io := by
  induction io with
  | nil => rw [ofBytes, dif_neg (by decide)]
  | cons b io ih =>
      have hlen : lbs ≤ (toBytes (b :: io)).length := by
        rw [length_toBytes, List.length_cons, Nat.succ_mul]
        exact Nat.le_add_left _ _
      rw [ofBytes, dif_pos hlen]
      have htake : (toBytes (b :: io)).take lbs = b.bytes := by
        rw [toBytes, List.flatMap_cons, ← b.length_bytes, List.take_left]
      have hdrop : (toBytes (b :: io)).drop lbs = toBytes io := by
        rw [toBytes, List.flatMap_cons, ← b.length_bytes, List.drop_left, toBytes]
      rw [hdrop, ih]
      congr 1
      cases b
      simp only [htake]

theorem take_ofBytes (d : Bytes) (k : Nat) : (ofBytes d).take k = ofBytes (d.take (k * lbs)) := by
  induction k generalizing d with
  | zero => rw [List.take_zero, Nat.zero_mul, List.take_zero, ofBytes, dif_neg (by decide)]
  | succ k ih =>
      by_cases hd : lbs ≤ d.length
      · have htake : lbs ≤ (d.take ((k + 1) * lbs)).length := by
          rw [List.length_take, Nat.succ_mul]
          omega
        rw [ofBytes, dif_pos hd, List.take_succ_cons, ih, ofBytes.eq_1 (d.take _), dif_pos htake]
        congr 1
        · simp only [List.take_take, Nat.succ_mul, Nat.min_eq_left (Nat.le_add_left _ _)]
        · rw [List.drop_take, Nat.succ_mul, Nat.add_sub_cancel]
      · have htake : ¬lbs ≤ (d.take ((k + 1) * lbs)).length := by
          rw [List.length_take]
          omega
        rw [ofBytes, dif_neg hd, List.take_nil, ofBytes, dif_neg htake]

theorem drop_ofBytes (d : Bytes) (k : Nat) : (ofBytes d).drop k = ofBytes (d.drop (k * lbs)) := by
  induction k generalizing d with
  | zero => rw [List.drop_zero, Nat.zero_mul, List.drop_zero]
  | succ k ih =>
      by_cases hd : lbs ≤ d.length
      · rw [ofBytes, dif_pos hd, List.drop_succ_cons, ih, List.drop_drop, Nat.succ_mul, Nat.add_comm lbs]
      · have hdrop : d.drop ((k + 1) * lbs) = [] := by
          apply List.drop_of_length_le
          rw [Nat.succ_mul]
          omega
        rw [hdrop, ofBytes, dif_neg hd, List.drop_nil, ofBytes, dif_neg (by decide)]

theorem length_ofBytes {d : Bytes} {k : Nat} (h : d.length = k * lbs) : (ofBytes d).length = k := by
  induction k generalizing d with
  | zero =>
      rw [Nat.zero_mul, List.length_eq_zero_iff] at h
      rw [h, ofBytes, dif_neg (by decide), List.length_nil]
  | succ k ih =>
      rw [Nat.succ_mul] at h
      rw [ofBytes, dif_pos (by omega), List.length_cons, ih]
      rw [List.length_drop]
      omega

theorem toBytes_ofBytes {d : Bytes} {k : Nat} (h : d.length = k * lbs) : toBytes (ofBytes d) = d := by
  induction k generalizing d with
  | zero =>
      rw [Nat.zero_mul, List.length_eq_zero_iff] at h
      rw [h, ofBytes, dif_neg (by decide)]
      rfl
  | succ k ih =>
      rw [Nat.succ_mul] at h
      rw [ofBytes, dif_pos (by omega), toBytes, List.flatMap_cons, ← toBytes, ih, List.take_append_drop]
      rw [List.length_drop]
      omega

end LogicalBlock

open LogicalBlock (toBytes ofBytes)

def WALB_DIFF_PACK_SIZE : Nat := 4096

def WALB_DIFF_PACK_MAX_SIZE : Nat := 32 * 1024 * 1024

def MAX_N_RECORDS_IN_WALB_DIFF_PACK : Nat := (WALB_DIFF_PACK_SIZE - 16) / 32

def WALB_DIFF_CMPR_NONE : Nat := 0

def WALB_DIFF_CMPR_SNAPPY : Nat := 2

def WALB_DIFF_CMPR_MAX : Nat := 6

/-- `walb_diff_record` as it is in a pack, of data that may be compressed. -/
structure PackRecord extends DiffRecord where
  compressionType : Nat
  dataOffset : Nat
  checksum : Nat
  deriving DecidableEq

namespace PackRecord

def verify (r : PackRecord) : Except String Unit :=
  if r.type ≠ .normal then .ok ()
  else if WALB_DIFF_CMPR_MAX ≤ r.compressionType then .error "compression type is invalid"
  else if r.ioBlocks = 0 then .error "io_blocks must not be 0"
  else .ok ()

end PackRecord

/-- `DiffPackHeader::canAdd`; the sum is of 32 bits. -/
def canAdd (nRecords totalSize dataSize : Nat) : Bool :=
  if MAX_N_RECORDS_IN_WALB_DIFF_PACK ≤ nRecords then false
  else if 0 < nRecords ∧ WALB_DIFF_PACK_MAX_SIZE < (totalSize + dataSize) % 2 ^ 32 then false
  else true

/-- A pack in memory: the header, and the data behind it. -/
structure Pack where
  records : List PackRecord
  totalSize : Nat
  data : Bytes

namespace Pack

def clear : Pack := ⟨[], 0, []⟩

def size (p : Pack) : Nat := WALB_DIFF_PACK_SIZE + p.data.length

def canAdd (p : Pack) (dataSize : Nat) : Bool := DiffPack.canAdd p.records.length p.totalSize dataSize

def addRecord (p : Pack) (inRec : PackRecord) : Option Pack :=
  if p.canAdd inRec.dataSize then
    some ⟨p.records ++ [{ inRec with dataOffset := p.totalSize }],
      (p.totalSize + inRec.dataSize) % 2 ^ 32, p.data⟩
  else none

def addRec (p : Pack) (r : PackRecord) (data : Bytes) : Option Pack :=
  (p.addRecord r).map fun p' =>
    { p' with data := if r.type = .normal then p'.data ++ data.take r.dataSize else p'.data }

def isAllZero (data : Bytes) : Bool := data.all (· == 0)

def add (p : Pack) (ioAddr ioBlocks : Nat) (data : Bytes) : Option Pack :=
  let dSize := ioBlocks * lbs % 2 ^ 32
  if p.canAdd dSize then
    if isAllZero (data.take dSize) then p.addRec ⟨⟨ioAddr, ioBlocks, 0, .allZero⟩,
      WALB_DIFF_CMPR_NONE, 0, 0⟩ data
    else p.addRec ⟨⟨ioAddr, ioBlocks, dSize, .normal⟩, WALB_DIFF_CMPR_NONE, 0, 0⟩ data
  else none

def verifyRecords (p : Pack) : List PackRecord → Except String Unit
  | [] => .ok ()
  | r :: rs =>
      if p.size < WALB_DIFF_PACK_SIZE + r.dataOffset + r.dataSize then .error "data_size out of range"
      else if r.type = .normal ∧ calcChecksum ((p.data.drop r.dataOffset).take r.dataSize) 0 ≠
        r.checksum then
        .error "invalid checksum"
      else p.verifyRecords rs

/-- `DiffPackHeader::verify`, but for the checksum of the header. -/
def verifyHeader (p : Pack) : Except String Unit :=
  if MAX_N_RECORDS_IN_WALB_DIFF_PACK < p.records.length then .error "invalid n_recoreds"
  else p.records.forM PackRecord.verify

def verifyDiffPack (p : Pack) : Except String Unit := do
  if p.size ≠ WALB_DIFF_PACK_SIZE + p.totalSize then .error "invalid pack size"
  p.verifyHeader
  p.verifyRecords p.records

def verifyDiffPackSize (p : Pack) : Except String Unit :=
  if WALB_DIFF_PACK_SIZE + WALB_DIFF_PACK_MAX_SIZE < p.size then .error "too large pack size" else .ok ()

end Pack

/-- A compression library: `compress` is given the size of the output buffer and may
decline. -/
structure Codec where
  compress : Nat → Bytes → Option Bytes
  uncompress : Bytes → Option Bytes

structure Codec.Lawful (C : Codec) : Prop where
  uncompress_compress : ∀ n b e, C.compress n b = some e → C.uncompress e = some b

section Convert

variable (C : Codec)

namespace PackCompressor

def convertRecord (type maxOutSize : Nat) (r : PackRecord) (data : Bytes) : PackRecord × Bytes :=
  match C.compress maxOutSize data with
  | some enc =>
      if enc.length < r.dataSize then
        ({ r with compressionType := type, dataSize := enc.length, checksum := calcChecksum enc 0 }, enc)
      else ({ r with compressionType := WALB_DIFF_CMPR_NONE, checksum := calcChecksum data 0 }, data)
  | none => ({ r with compressionType := WALB_DIFF_CMPR_NONE, checksum := calcChecksum data 0 }, data)

/-- One record of `g_convert`. The data of a record that is not normal is skipped. -/
def convertIo (type maxOutSize : Nat) (r : PackRecord) (data : Bytes) : PackRecord × Bytes :=
  if r.type = .normal then convertRecord C type maxOutSize r data else (r, List.replicate r.dataSize 0)

def convertLoop (type maxOutSize outOffset : Nat) : List PackRecord → Bytes → List PackRecord × Bytes
  | [], _ => ([], [])
  | r :: rs, data =>
      let (r', out) := convertIo C type (maxOutSize - outOffset) r (data.take r.dataSize)
      let (rs', outs) :=
        convertLoop type maxOutSize ((outOffset + r'.dataSize) % 2 ^ 32) rs (data.drop r.dataSize)
      ({ r' with dataOffset := outOffset } :: rs', out ++ outs)

def convertAs (type : Nat) (p : Pack) : Pack :=
  let (records, data) := convertLoop C type (p.totalSize + 4096) 0 p.records p.data
  ⟨records, data.length % 2 ^ 32, data⟩

def convert (p : Pack) : Pack := convertAs C WALB_DIFF_CMPR_SNAPPY p

end PackCompressor

/-- What a reader of the pack makes of a record: `uncompressDiffIo` if it is compressed. -/
def readIo (r : PackRecord) (data : Bytes) : Except String (DiffRecIo LogicalBlock) :=
  if r.type ≠ .normal then .ok ⟨r.toDiffRecord, []⟩
  else if r.compressionType = WALB_DIFF_CMPR_NONE then
    .ok ⟨r.toDiffRecord, ofBytes data⟩
  else
    match C.uncompress data with
    | none => .error "snappy_uncompress"
    | some out =>
        if out.length = r.ioBlocks * lbs then .ok ⟨{ r.toDiffRecord with dataSize := out.length },
          ofBytes out⟩
        else .error "uncompressData:size is invalid"

def readIos : List PackRecord → Bytes → Except String (List (DiffRecIo LogicalBlock))
  | [], _ => .ok []
  | r :: rs, data => do
      let io ← readIo C r (data.take r.dataSize)
      let ios ← readIos rs (data.drop r.dataSize)
      .ok (io :: ios)

end Convert

theorem readIos_cons {C : Codec} {r : PackRecord} {rs : List PackRecord} {data : Bytes}
    {ios : List (DiffRecIo LogicalBlock)} (h : readIos C (r :: rs) data = .ok ios) :
    ∃ io ios', readIo C r (data.take r.dataSize) = .ok io ∧
      readIos C rs (data.drop r.dataSize) = .ok ios' ∧
      ios = io :: ios' := by
  rw [readIos] at h
  cases hio : readIo C r (data.take r.dataSize) with
  | error e =>
      rw [hio] at h
      cases h
  | ok io =>
      rw [hio] at h
      change (readIos C rs (data.drop r.dataSize) >>= fun ios => .ok (io :: ios)) = _ at h
      cases hrest : readIos C rs (data.drop r.dataSize) with
      | error e =>
          rw [hrest] at h
          cases h
      | ok ios' =>
          rw [hrest] at h
          exact ⟨io, ios', rfl, rfl, (Except.ok.inj h).symm⟩

structure RecordOf (r : PackRecord) (io : DiffRecIo LogicalBlock) : Prop where
  record : r.toDiffRecord = io.record
  compressionType : r.compressionType = WALB_DIFF_CMPR_NONE
  checksum_lt : r.checksum < 2 ^ 32
  sized : io.record.dataSize = io.io.length * lbs
  valid : io.Valid

namespace RecordOf

variable {r : PackRecord} {io : DiffRecIo LogicalBlock}

theorem ioAddress (h : RecordOf r io) : r.ioAddress = io.record.ioAddress :=
  congrArg DiffRecord.ioAddress h.record

theorem ioBlocks (h : RecordOf r io) : r.ioBlocks = io.record.ioBlocks :=
  congrArg DiffRecord.ioBlocks h.record

theorem type (h : RecordOf r io) : r.type = io.record.type := congrArg DiffRecord.type h.record

theorem dataSize (h : RecordOf r io) : r.dataSize = io.record.dataSize :=
  congrArg DiffRecord.dataSize h.record

end RecordOf

structure Holds (p : Pack) (ios : List (DiffRecIo LogicalBlock)) : Prop where
  records : List.Forall₂ RecordOf p.records ios
  data : p.data = ios.flatMap fun io => toBytes io.io
  totalSize : p.totalSize = p.data.length
  fits : p.data.length ≤ WALB_DIFF_PACK_MAX_SIZE
  count : p.records.length ≤ MAX_N_RECORDS_IN_WALB_DIFF_PACK

theorem Holds.valid {p : Pack} {ios : List (DiffRecIo LogicalBlock)} (h : Holds p ios) :
    ∀ io, io ∈ ios → io.Valid := by
  have hrecords := h.records
  clear h
  generalize p.records = rs at hrecords
  induction hrecords with
  | nil => exact fun _ h => absurd h List.not_mem_nil
  | cons hr _ ih => exact List.forall_mem_cons.2 ⟨hr.valid, ih⟩

theorem holds_clear : Holds .clear [] := ⟨.nil, rfl, rfl, Nat.zero_le _, Nat.zero_le _⟩

def pieceOf (ioAddr : Nat) (io : List LogicalBlock) : DiffRecIo LogicalBlock :=
  if Pack.isAllZero (toBytes io) then ⟨⟨ioAddr, io.length, 0, .allZero⟩, []⟩
  else ⟨⟨ioAddr, io.length, io.length * lbs, .normal⟩, io⟩

section Add

variable {p : Pack} {ios : List (DiffRecIo LogicalBlock)} {ioAddr : Nat} {io : List LogicalBlock}

theorem pieceOf_ioAddress : (pieceOf ioAddr io).record.ioAddress = ioAddr := by
  rw [pieceOf]
  split_ifs <;> rfl

theorem pieceOf_ioBlocks : (pieceOf ioAddr io).record.ioBlocks = io.length := by
  rw [pieceOf]
  split_ifs <;> rfl

theorem pieceOf_dataSize_le : (pieceOf ioAddr io).record.dataSize ≤ io.length * lbs := by
  rw [pieceOf]
  split_ifs
  · exact Nat.zero_le _
  · exact le_rfl

theorem pieceOf_valid (h : 0 < io.length) : (pieceOf ioAddr io).Valid := by
  rw [pieceOf]
  split_ifs
  · exact ⟨h, nofun, nofun, fun _ => rfl⟩
  · exact ⟨h, fun _ => rfl, fun _ => rfl, fun hn => absurd rfl hn⟩

theorem canAdd_clear (n : Nat) : Pack.clear.canAdd n = true := rfl

theorem add_eq (h : io.length * lbs < 2 ^ 32) :
    p.add ioAddr io.length (toBytes io) =
      if p.canAdd (io.length * lbs) then
        p.addRec ⟨(pieceOf ioAddr io).record, WALB_DIFF_CMPR_NONE, 0, 0⟩ (toBytes io)
      else none := by
  have htake : (toBytes io).take (io.length * lbs) = toBytes io := by
    rw [← LogicalBlock.length_toBytes, List.take_length]
  rw [Pack.add, pieceOf]
  simp only [Nat.mod_eq_of_lt h, htake]
  split_ifs <;> rfl

theorem Holds.data_nil (h : Holds p ios) (hp : p.records = []) : p.data = [] := by
  have hr := h.records
  rw [hp, List.forall₂_nil_left_iff] at hr
  rw [h.data, hr, List.flatMap_nil]

theorem Holds.canAdd_iff (h : Holds p ios) {n : Nat} (hn : n ≤ WALB_DIFF_PACK_MAX_SIZE) :
    p.canAdd n = true ↔
      p.records.length < MAX_N_RECORDS_IN_WALB_DIFF_PACK ∧
      p.data.length + n ≤ WALB_DIFF_PACK_MAX_SIZE := by
  have hfits := h.fits
  have hmod : (p.totalSize + n) % 2 ^ 32 = p.data.length + n := by
    rw [h.totalSize]
    apply Nat.mod_eq_of_lt
    simp only [WALB_DIFF_PACK_MAX_SIZE] at hfits hn
    omega
  rw [Pack.canAdd, DiffPack.canAdd, hmod]
  split_ifs with hcount hsize
  · exact iff_of_false id fun hc => absurd hc.1 (not_lt.2 hcount)
  · exact iff_of_false id fun hc => absurd hc.2 (not_le.2 hsize.2)
  · refine iff_of_true rfl ⟨not_le.1 hcount, ?_⟩
    rcases Nat.eq_zero_or_pos p.records.length with hz | hpos
    · rw [h.data_nil (List.eq_nil_of_length_eq_zero hz), List.length_nil, Nat.zero_add]
      exact hn
    · exact not_lt.1 fun hlt => hsize ⟨hpos, hlt⟩

theorem Holds.addRec (h : Holds p ios) {r : PackRecord} {io' : DiffRecIo LogicalBlock}
    (hr : RecordOf r io')
    {data : Bytes} (hdata : r.type = .normal → data.take r.dataSize = toBytes io'.io)
    (hn : r.dataSize ≤ WALB_DIFF_PACK_MAX_SIZE) (hc : p.canAdd r.dataSize = true) :
    ∃ p', p.addRec r data = some p' ∧ Holds p' (ios ++ [io']) := by
  obtain ⟨hcount, hfits⟩ := (h.canAdd_iff hn).1 hc
  have hsize : (p.totalSize + r.dataSize) % 2 ^ 32 = p.data.length + r.dataSize := by
    rw [h.totalSize]
    apply Nat.mod_eq_of_lt
    simp only [WALB_DIFF_PACK_MAX_SIZE] at hfits
    omega
  have hlen : r.dataSize = (toBytes io'.io).length := by
    rw [hr.dataSize, hr.sized, LogicalBlock.length_toBytes]
  have hout : (if r.type = .normal then p.data ++ data.take r.dataSize else p.data) = p.data ++
      toBytes io'.io := by
    split_ifs with ht
    · rw [hdata ht]
    · rw [hr.type] at ht
      rw [hr.valid.io_nil ht, toBytes, List.flatMap_nil, List.append_nil]
  refine ⟨⟨p.records ++ [{ r with dataOffset := p.totalSize }], p.data.length + r.dataSize,
    p.data ++ toBytes io'.io⟩, ?_, ?_⟩
  · rw [Pack.addRec, Pack.addRecord, if_pos hc, hsize, Option.map_some, hout]
  · constructor
    · exact List.rel_append h.records (.cons ⟨hr.record, hr.compressionType,
        hr.checksum_lt, hr.sized, hr.valid⟩ .nil)
    · rw [List.flatMap_append, List.flatMap_singleton, ← h.data]
    · rw [List.length_append, ← hlen]
    · rw [List.length_append, ← hlen]
      exact hfits
    · rw [List.length_append, List.length_singleton]
      exact hcount

/-- `DiffPacker::add` appends the piece, or leaves it to the next pack. -/
theorem Holds.add (h : Holds p ios) (ioAddr : Nat) {io : List LogicalBlock} (hpos : 0 < io.length)
    (hlen : io.length < 2 ^ 16) :
    if p.canAdd (io.length * lbs) then
      ∃ p', p.add ioAddr io.length (toBytes io) = some p' ∧ Holds p' (ios ++ [pieceOf ioAddr io])
    else p.add ioAddr io.length (toBytes io) = none ∧ p.records ≠ [] := by
  have hn : io.length * lbs ≤ WALB_DIFF_PACK_MAX_SIZE := by
    simp only [lbs, WALB_DIFF_PACK_MAX_SIZE]
    omega
  have hfits := h.fits
  have h32 : io.length * lbs < 2 ^ 32 := by
    simp only [WALB_DIFF_PACK_MAX_SIZE] at hn
    omega
  rw [add_eq h32]
  split_ifs with hc
  · obtain ⟨hcount, hroom⟩ := (h.canAdd_iff hn).1 hc
    have hrec : RecordOf ⟨(pieceOf ioAddr io).record, WALB_DIFF_CMPR_NONE, 0, 0⟩
        (pieceOf ioAddr io) := by
      refine ⟨rfl, rfl, Nat.two_pow_pos 32, ?_, pieceOf_valid hpos⟩
      rw [pieceOf]
      split_ifs <;> simp
    refine h.addRec hrec ?_ ?_ ?_
    · intro ht
      change (pieceOf ioAddr io).record.type = .normal at ht
      change (toBytes io).take (pieceOf ioAddr io).record.dataSize = _
      rw [pieceOf] at ht ⊢
      split_ifs at ht ⊢
      change (toBytes io).take (io.length * lbs) = _
      rw [← LogicalBlock.length_toBytes, List.take_length]
    · exact pieceOf_dataSize_le.trans hn
    · rw [h.canAdd_iff (pieceOf_dataSize_le.trans hn)]
      exact ⟨hcount, (Nat.add_le_add_left pieceOf_dataSize_le _).trans hroom⟩
  · refine ⟨rfl, fun hnil => hc ?_⟩
    rw [h.canAdd_iff hn, hnil, h.data_nil hnil]
    exact ⟨by decide, by simpa using hn⟩

end Add

section Convert

variable {C : Codec} {ios : List (DiffRecIo LogicalBlock)} {p : Pack}

/-- A record in a pack of the given data passes the checks of the receiver. -/
structure Checked (data : Bytes) (r : PackRecord) : Prop where
  verify : r.verify = .ok ()
  dataSize_zero : r.type ≠ .normal → r.dataSize = 0
  inside : r.dataOffset + r.dataSize ≤ data.length
  checksum : r.type = .normal → calcChecksum ((data.drop r.dataOffset).take r.dataSize) 0 = r.checksum

theorem verifyDiffPack_eq_ok (hsize : p.totalSize = p.data.length)
    (hcount : p.records.length ≤ MAX_N_RECORDS_IN_WALB_DIFF_PACK)
    (h : ∀ r, r ∈ p.records → Checked p.data r) :
    p.verifyDiffPack = .ok () := by
  have hforM : ∀ rs : List PackRecord, (∀ r, r ∈ rs → Checked p.data r) →
      rs.forM PackRecord.verify = .ok () := by
    intro rs hrs
    induction rs with
    | nil => rfl
    | cons r rs ih =>
        rw [List.forall_mem_cons] at hrs
        change (r.verify >>= fun _ => rs.forM PackRecord.verify) = _
        rw [hrs.1.verify]
        exact ih hrs.2
  have hrecords : ∀ rs : List PackRecord, (∀ r, r ∈ rs → Checked p.data r) →
      p.verifyRecords rs = .ok () := by
    intro rs hrs
    induction rs with
    | nil => rfl
    | cons r rs ih =>
        rw [List.forall_mem_cons] at hrs
        have hin := hrs.1.inside
        rw [Pack.verifyRecords, if_neg, if_neg, ih hrs.2]
        · rintro ⟨ht, hne⟩
          exact hne (hrs.1.checksum ht)
        · rw [Pack.size]
          omega
  rw [Pack.verifyDiffPack, if_neg (by rw [Pack.size, hsize]; exact fun hn => hn rfl), Pack.verifyHeader,
    if_neg (not_lt.2 hcount), hforM p.records h]
  exact hrecords p.records h

/-- The data of the records stands one behind the other from `off` up to `e`. -/
def Placed (e : Nat) : Nat → List PackRecord → Prop
  | off, [] => off = e
  | off, r :: rs => r.dataOffset = off ∧ Placed e (off + r.dataSize) rs

theorem Placed.le {e off : Nat} {rs : List PackRecord} (h : Placed e off rs) : off ≤ e := by
  induction rs generalizing off with
  | nil => exact Nat.le_of_eq h
  | cons r rs ih => exact (Nat.le_add_right _ _).trans (ih h.2)

/-- What is copied as it is does not get shorter. -/
def Codec.Copies (C : Codec) (type : Nat) : Prop :=
  type = WALB_DIFF_CMPR_NONE → ∀ n b e, C.compress n b = some e → b.length ≤ e.length

/-- The record of an IO with its data in the output of the compressor. -/
structure Converted (C : Codec) (type : Nat) (r : PackRecord) (out : Bytes)
    (io : DiffRecIo LogicalBlock) : Prop where
  verify : r.verify = .ok ()
  dataSize_zero : r.type ≠ .normal → r.dataSize = 0
  dataSize : r.dataSize = out.length
  checksum : r.type = .normal → calcChecksum out 0 = r.checksum
  checksum_lt : r.checksum < 2 ^ 32
  length_le : out.length ≤ (toBytes io.io).length
  compressionType : r.compressionType = type ∨ r.compressionType = WALB_DIFF_CMPR_NONE
  readIo : readIo C r out = .ok io

theorem RecordOf.mk_eq {r : PackRecord} {io : DiffRecIo LogicalBlock} (h : RecordOf r io) {n : Nat}
    (hn : n = io.record.dataSize) : (⟨⟨r.ioAddress, r.ioBlocks, n, r.type⟩, io.io⟩ : DiffRecIo
      LogicalBlock) = io := by
  rw [h.ioAddress, h.ioBlocks, h.type, hn]

theorem RecordOf.length_toBytes {r : PackRecord} {io : DiffRecIo LogicalBlock} (h : RecordOf r io) :
    (toBytes io.io).length = r.dataSize := by
  rw [LogicalBlock.length_toBytes, h.dataSize, h.sized]

theorem RecordOf.verify {r : PackRecord} {io : DiffRecIo LogicalBlock} (h : RecordOf r io) {t n c : Nat}
    (ht : t < WALB_DIFF_CMPR_MAX) :
    PackRecord.verify { r with compressionType := t, dataSize := n, checksum := c } = .ok () := by
  have hblocks : r.ioBlocks ≠ 0 := by
    rw [h.ioBlocks]
    exact h.valid.pos.ne'
  rw [PackRecord.verify, if_neg (not_le.2 ht), if_neg hblocks, ite_self]

theorem RecordOf.converted_raw {type : Nat} {r : PackRecord} {io : DiffRecIo LogicalBlock}
    (h : RecordOf r io)
    (ht : r.type = .normal) :
    Converted C type { r with
      compressionType := WALB_DIFF_CMPR_NONE, checksum := calcChecksum (toBytes io.io) 0 }
      (toBytes io.io) io where
  verify := h.verify (by decide)
  dataSize_zero hn := absurd ht hn
  dataSize := h.length_toBytes.symm
  checksum _ := rfl
  checksum_lt := Queue.QueueFile.calcChecksum_lt _ _
  length_le := le_rfl
  compressionType := .inr rfl
  readIo := by
    rw [DiffPack.readIo, if_neg (not_not.2 ht), if_pos rfl, LogicalBlock.ofBytes_toBytes]
    exact congrArg Except.ok (h.mk_eq h.dataSize)

theorem RecordOf.converted (hC : C.Lawful) {type : Nat} (htype : type < WALB_DIFF_CMPR_MAX)
    (hN : C.Copies type)
    {r : PackRecord} {io : DiffRecIo LogicalBlock} (h : RecordOf r io) (n : Nat) :
    Converted C type (PackCompressor.convertIo C type n r (toBytes io.io)).1
      (PackCompressor.convertIo C type n r (toBytes io.io)).2 io := by
  have hlen := h.length_toBytes
  by_cases ht : r.type = .normal
  · rw [PackCompressor.convertIo, if_pos ht, PackCompressor.convertRecord]
    cases henc : C.compress n (toBytes io.io) with
    | none => exact h.converted_raw ht
    | some enc =>
        dsimp only
        split_ifs with hshort
        · have hne : type ≠ WALB_DIFF_CMPR_NONE := fun hz => by
            have hle := hN hz n _ _ henc
            omega
          refine ⟨h.verify htype, fun hn => absurd ht hn, rfl, fun _ => rfl,
            Queue.QueueFile.calcChecksum_lt _ _,
            (hlen ▸ hshort).le, .inl rfl, ?_⟩
          have hout : (toBytes io.io).length = r.ioBlocks * lbs := by
            rw [LogicalBlock.length_toBytes, h.valid.io_length (h.type ▸ ht), h.ioBlocks]
          simp only [DiffPack.readIo, if_neg (not_not.2 ht), if_neg hne,
            hC.uncompress_compress _ _ _ henc, if_pos hout, LogicalBlock.ofBytes_toBytes]
          exact congrArg Except.ok (h.mk_eq (hlen.trans h.dataSize))
        · exact h.converted_raw ht
  · have hio : io.io = [] := h.valid.io_nil (h.type ▸ ht)
    have hzero : r.dataSize = 0 := by rw [← hlen, hio, toBytes, List.flatMap_nil, List.length_nil]
    rw [PackCompressor.convertIo, if_neg ht, hzero, List.replicate_zero]
    refine ⟨?_, fun _ => hzero, hzero, fun hn => absurd hn ht, h.checksum_lt, Nat.zero_le _,
      .inr h.compressionType, ?_⟩
    · rw [PackRecord.verify, if_pos ht]
    · rw [DiffPack.readIo, if_pos ht, ← hio]
      exact congrArg Except.ok (h.mk_eq h.dataSize)

theorem convertLoop_spec (hC : C.Lawful) {type : Nat} (htype : type < WALB_DIFF_CMPR_MAX)
    (hN : C.Copies type)
    {rs : List PackRecord} (h : List.Forall₂ RecordOf rs ios) (maxOutSize : Nat) (done : Bytes)
    (hfits : done.length + (ios.flatMap fun io => toBytes io.io).length < 2 ^ 32) :
    ∃ rs' out, PackCompressor.convertLoop C type maxOutSize done.length rs
      (ios.flatMap fun io => toBytes io.io) = (rs', out) ∧
      rs'.length = rs.length ∧ out.length ≤ (ios.flatMap fun io => toBytes io.io).length ∧
      (∀ r, r ∈ rs' → Checked (done ++ out) r) ∧ Placed (done ++ out).length done.length rs' ∧
      (∀ r, r ∈ rs' → (r.compressionType = type ∨ r.compressionType = WALB_DIFF_CMPR_NONE) ∧
      r.checksum < 2 ^ 32) ∧
      readIos C rs' out = .ok ios := by
  induction h generalizing done with
  | nil => exact ⟨[], [], rfl, rfl, le_rfl, by simp, by simp [Placed], by simp, rfl⟩
  | @cons r io rs ios hr hrs ih =>
      have hlen := hr.length_toBytes
      have hconv := hr.converted hC htype hN (maxOutSize - done.length)
      rw [List.flatMap_cons, List.length_append] at hfits
      rw [List.flatMap_cons, PackCompressor.convertLoop, ← hlen, List.take_left, List.drop_left]
      generalize PackCompressor.convertIo C type (maxOutSize - done.length) r (toBytes io.io) = conv
        at hconv
      obtain ⟨r', out⟩ := conv
      have hsize := hconv.dataSize
      have hle := hconv.length_le
      dsimp only at hsize hle ⊢
      have hmod : (done.length + r'.dataSize) % 2 ^ 32 = (done ++ out).length := by
        rw [hsize, List.length_append]
        apply Nat.mod_eq_of_lt
        omega
      obtain ⟨rs', outs, hloop, hcount, hout, hchecked, hplaced, hcmpr, hread⟩ := ih (done ++ out) (by
        rw [List.length_append]
        omega)
      rw [hmod, hloop]
      refine ⟨_, _, rfl, ?_, ?_, ?_, ⟨rfl, ?_⟩, ?_, ?_⟩
      · rw [List.length_cons, List.length_cons, hcount]
      · rw [List.length_append, List.length_append]
        exact Nat.add_le_add hle hout
      · intro q hq
        rcases List.mem_cons.1 hq with rfl | hq
        · refine ⟨hconv.verify, hconv.dataSize_zero, ?_, fun ht => ?_⟩
          · simp only [List.length_append, hsize]
            omega
          · rw [← hconv.checksum ht, List.drop_left, hsize, List.take_left]
        · rw [← List.append_assoc]
          exact hchecked q hq
      · dsimp only
        rwa [hsize, ← List.length_append, ← List.append_assoc]
      · exact List.forall_mem_cons.2 ⟨⟨hconv.compressionType, hconv.checksum_lt⟩, hcmpr⟩
      · change (readIo C r' ((out ++ outs).take r'.dataSize) >>= fun io =>
          readIos C rs' ((out ++ outs).drop r'.dataSize) >>= fun ios => .ok (io :: ios)) = _
        rw [hsize, List.take_left, List.drop_left, hconv.readIo, hread]
        rfl

/-- What a receiver asks of a pack. -/
def Accepted (p : Pack) : Prop := p.verifyDiffPackSize = .ok () ∧ p.verifyDiffPack = .ok ()

theorem Accepted.verifyHeader (h : Accepted p) : p.verifyHeader = .ok () := by
  have hverify := h.2
  rw [Pack.verifyDiffPack] at hverify
  split_ifs at hverify
  · cases hverify
  · change (p.verifyHeader >>= fun _ => p.verifyRecords p.records) = _ at hverify
    cases hheader : p.verifyHeader with
    | error e =>
        rw [hheader] at hverify
        cases hverify
    | ok u => rfl

/-- A pack that has been converted is accepted, and read as what it holds. -/
theorem Holds.convertAs (hC : C.Lawful) {type : Nat} (htype : type < WALB_DIFF_CMPR_MAX)
    (hN : C.Copies type) (h : Holds p ios) :
    Accepted (PackCompressor.convertAs C type p) ∧
      (∀ r, r ∈ (PackCompressor.convertAs C type p).records →
      Checked (PackCompressor.convertAs C type p).data r) ∧
      Placed (PackCompressor.convertAs C type p).data.length 0
      (PackCompressor.convertAs C type p).records ∧
      (∀ r, r ∈ (PackCompressor.convertAs C type p).records →
        (r.compressionType = type ∨ r.compressionType = WALB_DIFF_CMPR_NONE) ∧ r.checksum < 2 ^ 32) ∧
      (PackCompressor.convertAs C type p).records.length = p.records.length ∧
      readIos C (PackCompressor.convertAs C type p).records
      (PackCompressor.convertAs C type p).data = .ok ios := by
  have hfits := h.fits
  rw [h.data] at hfits
  have h32 : ([] : Bytes).length + (ios.flatMap fun io => toBytes io.io).length < 2 ^ 32 := by
    simp only [WALB_DIFF_PACK_MAX_SIZE, List.length_nil] at hfits ⊢
    omega
  obtain ⟨rs', out, hloop, hcount, hout, hchecked, hplaced, hcmpr, hread⟩ :=
    convertLoop_spec hC htype hN h.records (p.totalSize + 4096) [] h32
  rw [List.length_nil, ← h.data] at hloop
  rw [PackCompressor.convertAs, hloop]
  refine ⟨⟨?_, verifyDiffPack_eq_ok ?_ ?_ hchecked⟩, hchecked, hplaced, hcmpr, hcount, hread⟩
  · rw [Pack.verifyDiffPackSize, Pack.size, if_neg]
    exact not_lt.2 (Nat.add_le_add_left (hout.trans hfits) _)
  · apply Nat.mod_eq_of_lt
    rw [List.length_nil, Nat.zero_add] at h32
    exact hout.trans_lt h32
  · exact hcount.le.trans h.count

theorem Holds.convert (hC : C.Lawful) (h : Holds p ios) :
    (PackCompressor.convert C p).verifyDiffPackSize = .ok () ∧
      (PackCompressor.convert C p).verifyDiffPack = .ok () ∧
      Placed (PackCompressor.convert C p).data.length 0 (PackCompressor.convert C p).records ∧
      readIos C (PackCompressor.convert C p).records (PackCompressor.convert C p).data = .ok ios := by
  have hcopies : C.Copies WALB_DIFF_CMPR_SNAPPY := fun hz => by cases hz
  obtain ⟨haccepted, -, hplaced, -, -, hread⟩ := h.convertAs hC (by decide) hcopies
  exact ⟨haccepted.1, haccepted.2, hplaced, hread⟩

end Convert

end WalbTools.DiffPack
