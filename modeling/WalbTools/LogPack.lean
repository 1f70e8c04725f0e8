import WalbTools.DiffIo
import WalbTools.Layout
import WalbTools.Queue

namespace WalbTools.LogPack

open ByteMemory Layout
open DiffIo (lbs)
open Queue (calcChecksum)

def WALB_MAX_NORMAL_IO_SECTORS : Nat := 2 ^ 16 - 1

def MAX_LSID : Nat := 2 ^ 64 - 2

def SECTOR_TYPE_LOGPACK : Nat := 3

structure WlogRecord where
  checksum : Nat
  flags : Nat
  offset : Nat
  ioSize : Nat
  lsidLocal : Nat
  lsid : Nat
  deriving DecidableEq

def capacityPb (pbs capacityLb : Nat) : Nat := (capacityLb + pbs / lbs - 1) / (pbs / lbs)

namespace WlogRecord

def size : Nat := 32

def ofBytes (raw : Bytes) : WlogRecord :=
  match fields [4, 4, 8, 4, 2, 2, 8] raw with
  | [checksum, flags, offset, ioSize, lsidLocal, _, lsid] =>
      ⟨checksum, flags, offset, ioSize, lsidLocal, lsid⟩
  | _ => ⟨0, 0, 0, 0, 0, 0⟩

def isExist (r : WlogRecord) : Bool := r.flags.testBit 0

def isPadding (r : WlogRecord) : Bool := r.flags.testBit 1

def isDiscard (r : WlogRecord) : Bool := r.flags.testBit 2

def hasData (r : WlogRecord) : Bool := r.isExist && !r.isDiscard

def hasDataForChecksum (r : WlogRecord) : Bool := r.isExist && !r.isDiscard && !r.isPadding

def isValid (r : WlogRecord) : Bool :=
  r.isExist && (r.isPadding || decide (0 < r.ioSize)) &&
    (r.isDiscard || decide (r.ioSize ≤ WALB_MAX_NORMAL_IO_SECTORS)) && decide (0 < r.lsidLocal) &&
      decide (r.lsid ≤ MAX_LSID)

def ioSizePb (r : WlogRecord) (pbs : Nat) : Nat := capacityPb pbs r.ioSize

end WlogRecord

structure LogPackHeader where
  pbs : Nat
  salt : Nat
  block : Bytes
  length_block : block.length = pbs
  deriving DecidableEq

namespace LogPackHeader

def size : Nat := 24

def field (h : LogPackHeader) (i : Nat) : Nat := (fields [4, 2, 2, 8, 2, 2, 4] h.block).getD i 0

def sectorType (h : LogPackHeader) : Nat := h.field 1

def totalIoSize (h : LogPackHeader) : Nat := h.field 2

def logpackLsid (h : LogPackHeader) : Nat := h.field 3

def nRecords (h : LogPackHeader) : Nat := h.field 4

def nPadding (h : LogPackHeader) : Nat := h.field 5

def record (h : LogPackHeader) (i : Nat) : WlogRecord :=
  .ofBytes (h.block.drop (size + WlogRecord.size * i))

def records (h : LogPackHeader) : List WlogRecord := (List.range h.nRecords).map h.record

def isEnd (h : LogPackHeader) : Bool := decide (h.nRecords = 0) && decide (h.logpackLsid = 2 ^ 64 - 1)

def isValidHeader (h : LogPackHeader) : Bool :=
  decide (h.sectorType = SECTOR_TYPE_LOGPACK) &&
    if h.nRecords = 0 then decide (h.totalIoSize = 0) && decide (h.nPadding = 0)
    else decide (h.nPadding ≤ 1) && decide (h.nPadding ≤ h.nRecords) &&
      decide (h.logpackLsid < (h.logpackLsid + 1 + h.totalIoSize) % 2 ^ 64)

def isValidHeaderAndRecords (h : LogPackHeader) : Bool :=
  h.isValidHeader && h.records.all fun r =>
    r.isValid && decide ((r.lsid + (2 ^ 64 - r.lsidLocal)) % 2 ^ 64 = h.logpackLsid)

def isValid (h : LogPackHeader) : Bool :=
  decide (h.pbs ≠ 0) && (decide (h.nRecords = 0) || decide (calcChecksum h.block h.salt = 0)) &&
    h.isValidHeaderAndRecords

theorem isValid_of_mem {h : LogPackHeader} (hv : h.isValid = true) {r : WlogRecord}
    (hr : r ∈ h.records) :
    r.isValid = true := by
  rw [isValid, isValidHeaderAndRecords, Bool.and_eq_true, Bool.and_eq_true, Bool.and_eq_true,
    List.all_eq_true] at hv
  have hrec := hv.2.2 r hr
  rw [Bool.and_eq_true] at hrec
  exact hrec.1

end LogPackHeader

/-- A physical block size of a device: whole logical blocks. It is a power of two in 32 bits. -/
structure BlockSize (pbs : Nat) : Prop where
  dvd : lbs ∣ pbs
  pos : 0 < pbs
  le : pbs ≤ 2 ^ 31

/-- The data of a record, as `readLogIo` reads it: whole physical blocks, padding included, and
nothing for a discard. -/
structure IoOf (pbs salt : Nat) (r : WlogRecord) (io : Bytes) : Prop where
  nil : r.hasData = false → io = []
  length : r.hasData = true → io.length = r.ioSizePb pbs * pbs
  checksum : r.hasDataForChecksum = true → calcChecksum (io.take (r.ioSize * lbs)) salt = r.checksum

structure Pack where
  header : LogPackHeader
  ios : List Bytes
  deriving DecidableEq

structure Pack.Valid (pbs salt : Nat) (p : Pack) : Prop where
  pbs_eq : p.header.pbs = pbs
  salt_eq : p.header.salt = salt
  isValid : p.header.isValid = true
  notEnd : p.header.isEnd = false
  ios : List.Forall₂ (IoOf pbs salt) p.header.records p.ios

section

variable {pbs n : Nat} {r : WlogRecord}

theorem BlockSize.blocks_pos (h : BlockSize pbs) : 0 < pbs / lbs :=
  Nat.div_pos (Nat.le_of_dvd h.pos h.dvd) (by decide)

theorem BlockSize.capacityPb_le (h : BlockSize pbs) : capacityPb pbs n * pbs ≤ n * lbs + pbs := by
  have hn := h.blocks_pos
  have hpbs : pbs / lbs * lbs = pbs := Nat.div_mul_cancel h.dvd
  have hmul : capacityPb pbs n * (pbs / lbs) ≤ n + pbs / lbs - 1 := Nat.div_mul_le_self _ _
  calc capacityPb pbs n * pbs = capacityPb pbs n * (pbs / lbs) * lbs := by rw [Nat.mul_assoc, hpbs]
    _ ≤ (n + pbs / lbs - 1) * lbs := Nat.mul_le_mul_right _ hmul
    _ ≤ (n + pbs / lbs) * lbs := Nat.mul_le_mul_right _ (Nat.sub_le _ _)
    _ = n * lbs + pbs := by rw [Nat.add_mul, hpbs]

theorem BlockSize.capacityPb_eq_zero_iff (h : BlockSize pbs) : capacityPb pbs n = 0 ↔ n = 0 := by
  have hn := h.blocks_pos
  rw [capacityPb, Nat.div_eq_zero_iff]
  omega

theorem ioSize_lt (h : BlockSize pbs) (hr : r.isValid = true) (hd : r.hasData = true) :
    r.ioSizePb pbs * pbs < 2 ^ 32 := by
  have hle := h.capacityPb_le (n := r.ioSize)
  have hpbs := h.le
  simp only [WlogRecord.isValid, WlogRecord.hasData, Bool.and_eq_true, Bool.or_eq_true,
    Bool.not_eq_true',
    decide_eq_true_eq] at hr hd
  have hsize : r.ioSize ≤ WALB_MAX_NORMAL_IO_SECTORS := hr.1.1.2.resolve_left fun ht => by
    rw [hd.2] at ht
    cases ht
  simp only [WALB_MAX_NORMAL_IO_SECTORS, lbs] at hsize hle
  rw [WlogRecord.ioSizePb]
  omega

end

end WalbTools.LogPack
