import WalbTools.LogPack
import WalbTools.Splice

namespace WalbTools.LogPack

open ByteMemory Layout Splice
open DiffIo (lbs)
open Queue (calcChecksum)

def MAX_TOTAL_IO_SIZE_IN_LOGPACK_HEADER : Nat := 2 ^ 16 - 1

namespace WlogRecord

def widths : List Nat := [4, 4, 8, 4, 2, 2, 8]

def ofFields : List Nat → WlogRecord
  | [checksum, flags, offset, ioSize, lsidLocal, _, lsid] =>
      ⟨checksum, flags, offset, ioSize, lsidLocal, lsid⟩
  | _ => ⟨0, 0, 0, 0, 0, 0⟩

theorem ofBytes_congr {raw raw' : Bytes} (h : fields widths raw = fields widths raw') :
    ofBytes raw = ofBytes raw' :=
  congrArg ofFields h

structure Fits (r : WlogRecord) : Prop where
  checksum : r.checksum < 2 ^ 32
  flags : r.flags < 2 ^ 32
  offset : r.offset < 2 ^ 64
  ioSize : r.ioSize < 2 ^ 32
  lsidLocal : r.lsidLocal < 2 ^ 16
  lsid : r.lsid < 2 ^ 64

def setPadding (r : WlogRecord) : WlogRecord := { r with flags := r.flags ||| 2 ^ 1 }

def dataPb (pbs : Nat) (r : WlogRecord) : Nat := if r.hasData then r.ioSizePb pbs else 0

end WlogRecord

def dataPb (pbs : Nat) (records : List WlogRecord) : Nat := (records.map (WlogRecord.dataPb pbs)).sum

def countedPb (pbs : Nat) (records : List WlogRecord) : Nat :=
  (records.map fun r => if r.isDiscard then 0 else r.ioSizePb pbs).sum

namespace LogPackHeader

def widths : List Nat := [4, 2, 2, 8, 2, 2, 4]

def maxNLogRecordInSector (pbs : Nat) : Nat := (pbs - size) / WlogRecord.size

def recordPos (i : Nat) : Nat := size + WlogRecord.size * i

def store (h : LogPackHeader) (off : Nat) (l : Bytes) : LogPackHeader :=
  { h with block := splice h.block off l, length_block := length_splice.trans h.length_block }

def set (h : LogPackHeader) (i v : Nat) : LogPackHeader :=
  { h with block := setField widths 0 i v h.block, length_block := length_setField.trans h.length_block }

def setChecksum (h : LogPackHeader) (v : Nat) : LogPackHeader := h.set 0 v

def setSectorType (h : LogPackHeader) (v : Nat) : LogPackHeader := h.set 1 v

def setTotalIoSize (h : LogPackHeader) (v : Nat) : LogPackHeader := h.set 2 v

def setLogpackLsid (h : LogPackHeader) (v : Nat) : LogPackHeader := h.set 3 v

def setNRecords (h : LogPackHeader) (v : Nat) : LogPackHeader := h.set 4 v

def setNPadding (h : LogPackHeader) (v : Nat) : LogPackHeader := h.set 5 v

def setRecordField (h : LogPackHeader) (pos i v : Nat) : LogPackHeader :=
  { h with
    block := setField WlogRecord.widths (recordPos pos) i v h.block
    length_block := length_setField.trans h.length_block }

def setRecord (h : LogPackHeader) (pos : Nat) (r : WlogRecord) : LogPackHeader :=
  ((((((h.setRecordField pos 0 r.checksum).setRecordField pos 1 r.flags).setRecordField pos 2
    r.offset).setRecordField
    pos 3 r.ioSize).setRecordField pos 4 r.lsidLocal).setRecordField pos 6 r.lsid)

/-- `record(i) = record(j)` -/
def copyRecord (h : LogPackHeader) (i j : Nat) : LogPackHeader :=
  h.store (recordPos i) ((h.block.drop (recordPos j)).take WlogRecord.size)

def clearRecord (h : LogPackHeader) (i : Nat) : LogPackHeader :=
  h.store (recordPos i) (List.replicate WlogRecord.size 0)

def updateChecksum (h : LogPackHeader) : LogPackHeader :=
  (h.setChecksum 0).setChecksum (calcChecksum (h.setChecksum 0).block h.salt)

def nextLogpackLsid (h : LogPackHeader) : Nat :=
  if 0 < h.nRecords then (h.logpackLsid + 1 + h.totalIoSize) % 2 ^ 64 else h.logpackLsid

def isValidNoChecksum (h : LogPackHeader) : Bool := decide (h.pbs ≠ 0) && h.isValidHeaderAndRecords

def init (pbs salt lsid : Nat) : LogPackHeader :=
  let h : LogPackHeader := ⟨pbs, salt, List.replicate pbs 0, List.length_replicate⟩
  (h.setLogpackLsid lsid).setSectorType SECTOR_TYPE_LOGPACK

def newRecord (h : LogPackHeader) (flags offset ioSize : Nat) : WlogRecord where
  checksum := 0
  flags := flags
  offset := offset
  ioSize := ioSize
  lsidLocal := (h.totalIoSize + 1) % 2 ^ 16
  lsid := (h.logpackLsid + (h.totalIoSize + 1) % 2 ^ 16) % 2 ^ 64

def pushRecord (h : LogPackHeader) (flags offset ioSize : Nat) : LogPackHeader :=
  (h.setRecord h.nRecords (h.newRecord flags offset ioSize)).setNRecords (h.nRecords + 1)

def addNormalIo (h : LogPackHeader) (offset size : Nat) : Except String Bool × LogPackHeader :=
  if maxNLogRecordInSector h.pbs ≤ h.nRecords then (.ok false, h)
  else if MAX_TOTAL_IO_SIZE_IN_LOGPACK_HEADER < h.totalIoSize + capacityPb h.pbs size then (.ok false, h)
  else if size = 0 then (.error "Normal IO can not be zero-sized.", h)
  else (.ok true, (h.pushRecord 1 offset size).setTotalIoSize (h.totalIoSize + capacityPb h.pbs size))

/-- The size of a discard is not added to the total. -/
def addDiscardIo (h : LogPackHeader) (offset size : Nat) : Except String Bool × LogPackHeader :=
  if maxNLogRecordInSector h.pbs ≤ h.nRecords then (.ok false, h)
  else if size = 0 then (.error "Discard IO can not be zero-sized.", h)
  else (.ok true, h.pushRecord 5 offset size)

def addPadding (h : LogPackHeader) (size : Nat) : Except String Bool × LogPackHeader :=
  if maxNLogRecordInSector h.pbs ≤ h.nRecords then (.ok false, h)
  else if MAX_TOTAL_IO_SIZE_IN_LOGPACK_HEADER < h.totalIoSize + capacityPb h.pbs size then (.ok false, h)
  else if 0 < h.nPadding then (.ok false, h)
  else if size % (h.pbs / lbs) ≠ 0 then (.error "Padding size must be pbs-aligned.", h)
  else (.ok true, ((h.pushRecord 3 0 size).setTotalIoSize
    (h.totalIoSize + capacityPb h.pbs size)).setNPadding (h.nPadding + 1))

def updateRecordLsid (newLsid : Nat) (h : LogPackHeader) (i : Nat) : LogPackHeader :=
  h.setRecordField i 6 (newLsid + (h.record i).lsidLocal)

def updateLsid (h : LogPackHeader) (newLsid : Nat) : Except String Unit × LogPackHeader :=
  if h.logpackLsid = newLsid then (.ok (), h)
  else
    let h' := (List.range h.nRecords).foldl (updateRecordLsid newLsid) (h.setLogpackLsid newLsid)
    -- A refusal comes after the change.
    (if h'.isValidNoChecksum then .ok () else .error "LogPackHeader:invalid", h')

def countRecord (h : LogPackHeader) (i : Nat) : LogPackHeader :=
  let r := h.record i
  let h' := if r.isDiscard then h else h.setTotalIoSize (h.totalIoSize + r.ioSizePb h.pbs)
  if r.isPadding then h'.setNPadding (h'.nPadding + 1) else h'

def shrink (h : LogPackHeader) (invalidIdx : Nat) : LogPackHeader :=
  let cleared := (List.range' invalidIdx (h.nRecords - invalidIdx)).foldl clearRecord h
  let counted := (List.range invalidIdx).foldl countRecord
    (((cleared.setNRecords invalidIdx).setTotalIoSize 0).setNPadding 0)
  counted.updateChecksum

/-- The loop copies to the same place at each turn. -/
def invalidate (h : LogPackHeader) (idx : Nat) : Nat × LogPackHeader :=
  let r := h.record idx
  if r.isDiscard then
    let n := h.nRecords
    let moved := (List.range' idx (n - 1 - idx)).foldl (fun h _ => h.copyRecord idx (idx + 1)) h
    (idx, (moved.clearRecord (n - 1)).setNRecords (n - 1))
  else if r.isPadding then (idx + 1, h)
  else (idx + 1, h.setRecord idx { r.setPadding with offset := 0, checksum := 0 })

section

variable {h : LogPackHeader} {i j v pos flags offset ioSize : Nat} {r : WlogRecord} {l : Bytes}

@[simp] theorem pbs_set : (h.set i v).pbs = h.pbs := rfl

@[simp] theorem pbs_setChecksum : (h.setChecksum v).pbs = h.pbs := rfl

@[simp] theorem pbs_setSectorType : (h.setSectorType v).pbs = h.pbs := rfl

@[simp] theorem pbs_setTotalIoSize : (h.setTotalIoSize v).pbs = h.pbs := rfl

@[simp] theorem pbs_setLogpackLsid : (h.setLogpackLsid v).pbs = h.pbs := rfl

@[simp] theorem pbs_setNRecords : (h.setNRecords v).pbs = h.pbs := rfl

@[simp] theorem pbs_setNPadding : (h.setNPadding v).pbs = h.pbs := rfl

@[simp] theorem pbs_setRecordField : (h.setRecordField pos i v).pbs = h.pbs := rfl

@[simp] theorem pbs_setRecord : (h.setRecord pos r).pbs = h.pbs := by
  simp only [setRecord, pbs_setRecordField]

@[simp] theorem pbs_pushRecord : (h.pushRecord flags offset ioSize).pbs = h.pbs := by
  rw [pushRecord, pbs_setNRecords, pbs_setRecord]

@[simp] theorem pbs_copyRecord : (h.copyRecord i j).pbs = h.pbs := rfl

@[simp] theorem pbs_clearRecord : (h.clearRecord i).pbs = h.pbs := rfl

@[simp] theorem pbs_updateChecksum : h.updateChecksum.pbs = h.pbs := by
  rw [updateChecksum, pbs_setChecksum, pbs_setChecksum]

end

/-- What a header says, apart from its checksum. -/
@[ext] structure Contents where
  sectorType : Nat
  totalIoSize : Nat
  logpackLsid : Nat
  nPadding : Nat
  records : List WlogRecord

def contents (h : LogPackHeader) : Contents :=
  ⟨h.sectorType, h.totalIoSize, h.logpackLsid, h.nPadding, h.records⟩

section

variable {h : LogPackHeader} {i v k : Nat} {r : WlogRecord}

theorem length_le_drop (hp : size ≤ h.pbs) : 0 + widths.sum ≤ h.block.length := by
  rw [h.length_block]
  exact hp

theorem field_set (hp : size ≤ h.pbs) (hi : i < widths.length) (j : Nat) :
    (h.set i v).field j = if j = i then v % 256 ^ widths[i] else h.field j := by
  exact getD_fields_setField hi (length_le_drop hp) j

theorem record_set (hi : i < widths.length) : (h.set i v).record = h.record := by
  funext k
  have hfields : fields WlogRecord.widths ((setField widths 0 i v h.block).drop (recordPos k)) =
      fields WlogRecord.widths (h.block.drop (recordPos k)) :=
    fields_setField_of_disjoint hi
      (.inr (by simp only [widths, recordPos, size, List.sum_cons, List.sum_nil]; omega))
  exact WlogRecord.ofBytes_congr hfields

theorem recordPos_add_le (hk : k < maxNLogRecordInSector h.pbs) :
    recordPos k + WlogRecord.widths.sum ≤ h.block.length := by
  rw [h.length_block]
  simp only [maxNLogRecordInSector, recordPos, size, WlogRecord.size, WlogRecord.widths,
    List.sum_cons, List.sum_nil] at *
  omega

theorem size_le_of_lt {n : Nat} (hk : k < maxNLogRecordInSector n) : size ≤ n := by
  by_contra hn
  rw [maxNLogRecordInSector, Nat.sub_eq_zero_of_le (Nat.le_of_not_le hn), Nat.zero_div] at hk
  exact Nat.not_lt_zero k hk

theorem size_le_recordPos : size ≤ recordPos k := Nat.le_add_right _ _

theorem recordPos_add_le_of_lt {j : Nat} (hjk : j < k) :
    recordPos j + WlogRecord.widths.sum ≤ recordPos k := by
  simp only [recordPos, size, WlogRecord.size, WlogRecord.widths, List.sum_cons, List.sum_nil]
  omega

theorem apart_of_ne {j : Nat} (hjk : j ≠ k) :
    recordPos j + WlogRecord.widths.sum ≤ recordPos k ∨
      recordPos k + WlogRecord.widths.sum ≤ recordPos j :=
  (Nat.lt_or_gt_of_ne hjk).imp recordPos_add_le_of_lt recordPos_add_le_of_lt

theorem fields_setRecordField (hk : k < maxNLogRecordInSector h.pbs)
    (hi : i < WlogRecord.widths.length) :
    fields WlogRecord.widths ((h.setRecordField k i v).block.drop (recordPos k)) =
      (fields WlogRecord.widths (h.block.drop (recordPos k))).set i (v % 256 ^ WlogRecord.widths[i]) :=
  fields_setField hi (recordPos_add_le hk)

theorem field_setRecordField (hi : i < WlogRecord.widths.length) :
    (h.setRecordField k i v).field = h.field := by
  funext j
  have hfields : fields widths ((setField WlogRecord.widths (recordPos k) i v h.block).drop 0) =
      fields widths (h.block.drop 0) := fields_setField_of_disjoint hi (.inl size_le_recordPos)
  exact congrArg (fun l => l.getD j 0) hfields

theorem record_setRecordField_of_ne {j : Nat} (hi : i < WlogRecord.widths.length) (hjk : j ≠ k) :
    (h.setRecordField k i v).record j = h.record j :=
  WlogRecord.ofBytes_congr (fields_setField_of_disjoint hi (apart_of_ne hjk))

theorem ofFields_set_all {l : List Nat} (hl : l.length = 7) (hr : r.Fits) :
    WlogRecord.ofFields ((((((l.set 0 (r.checksum % 256 ^ 4)).set 1 (r.flags % 256 ^ 4)).set 2
      (r.offset % 256 ^ 8)).set 3
      (r.ioSize % 256 ^ 4)).set 4 (r.lsidLocal % 256 ^ 2)).set 6 (r.lsid % 256 ^ 8)) = r := by
  match l, hl with
  | [_, _, _, _, _, _, _], _ =>
      have hchecksum := hr.checksum
      have hflags := hr.flags
      have hoffset := hr.offset
      have hioSize := hr.ioSize
      have hlocal := hr.lsidLocal
      have hlsid := hr.lsid
      simp only [List.set, WlogRecord.ofFields]
      rw [Nat.mod_eq_of_lt (by omega), Nat.mod_eq_of_lt (by omega), Nat.mod_eq_of_lt (by omega),
        Nat.mod_eq_of_lt (by omega), Nat.mod_eq_of_lt (by omega), Nat.mod_eq_of_lt (by omega)]

theorem field_setRecord : (h.setRecord k r).field = h.field := by
  rw [setRecord, field_setRecordField (by decide), field_setRecordField (by decide),
    field_setRecordField (by decide),
    field_setRecordField (by decide), field_setRecordField (by decide), field_setRecordField (by decide)]

theorem record_setRecord (hk : k < maxNLogRecordInSector h.pbs) (hr : r.Fits) :
    (h.setRecord k r).record = Function.update h.record k r := by
  funext j
  by_cases hjk : j = k
  · subst hjk
    rw [Function.update_self]
    change WlogRecord.ofFields (fields WlogRecord.widths
      ((h.setRecord j r).block.drop (recordPos j))) = r
    simp only [setRecord]
    rw [fields_setRecordField (by exact hk) (by decide), fields_setRecordField (by exact hk) (by decide),
      fields_setRecordField (by exact hk) (by decide), fields_setRecordField (by exact hk) (by decide),
      fields_setRecordField (by exact hk) (by decide), fields_setRecordField (by exact hk) (by decide)]
    exact ofFields_set_all (length_fields _ _) hr
  · rw [Function.update_of_ne hjk]
    simp only [setRecord]
    rw [record_setRecordField_of_ne (by decide) hjk, record_setRecordField_of_ne (by decide) hjk,
      record_setRecordField_of_ne (by decide) hjk, record_setRecordField_of_ne (by decide) hjk,
      record_setRecordField_of_ne (by decide) hjk, record_setRecordField_of_ne (by decide) hjk]

theorem record_setRecordField_lsid (hk : k < maxNLogRecordInSector h.pbs) :
    (h.setRecordField k 6 v).record = Function.update h.record k
      { h.record k with lsid := v % 2 ^ 64 } := by
  funext j
  by_cases hjk : j = k
  · subst hjk
    rw [Function.update_self]
    change WlogRecord.ofFields (fields WlogRecord.widths
      ((h.setRecordField j 6 v).block.drop (recordPos j))) =
      { WlogRecord.ofFields (fields WlogRecord.widths (h.block.drop (recordPos j))) with
      lsid := v % 2 ^ 64 }
    rw [fields_setRecordField hk (by decide)]
    match fields WlogRecord.widths (h.block.drop (recordPos j)),
      length_fields WlogRecord.widths (h.block.drop (recordPos j)) with
    | [_, _, _, _, _, _, _], _ => rfl
  · rw [Function.update_of_ne hjk, record_setRecordField_of_ne (by decide) hjk]

theorem field_store {off : Nat} {l : Bytes} (hoff : size ≤ off) : (h.store off l).field = h.field := by
  funext j
  have hfields : fields widths ((splice h.block off l).drop 0) = fields widths (h.block.drop 0) :=
    fields_splice_of_disjoint (.inl hoff)
  exact congrArg (fun l => l.getD j 0) hfields

theorem record_store {l : Bytes} (hk : k < maxNLogRecordInSector h.pbs)
    (hl : l.length = WlogRecord.size) :
    (h.store (recordPos k) l).record = Function.update h.record k (.ofBytes l) := by
  funext j
  have hsum : WlogRecord.widths.sum = l.length := hl.symm
  by_cases hjk : j = k
  · subst hjk
    have hread : ((splice h.block (recordPos j) l).drop (recordPos j)).take l.length = l :=
      take_drop_splice (hsum ▸ recordPos_add_le hk)
    rw [Function.update_self]
    refine WlogRecord.ofBytes_congr (fields_congr ?_)
    rw [hsum, List.take_length]
    exact hread
  · rw [Function.update_of_ne hjk]
    refine WlogRecord.ofBytes_congr (fields_splice_of_disjoint ?_)
    rw [← hsum]
    exact apart_of_ne hjk

theorem length_recordBytes (hk : k < maxNLogRecordInSector h.pbs) :
    ((h.block.drop (recordPos k)).take WlogRecord.size).length = WlogRecord.size := by
  have hle := recordPos_add_le hk
  rw [List.length_take, List.length_drop]
  simp only [WlogRecord.size, WlogRecord.widths, List.sum_cons, List.sum_nil] at *
  omega

theorem ofBytes_recordBytes : WlogRecord.ofBytes ((h.block.drop (recordPos k)).take
    WlogRecord.size) = h.record k := by
  refine WlogRecord.ofBytes_congr (fields_congr ?_)
  rw [List.take_take]
  rfl

theorem record_copyRecord (hk : k < maxNLogRecordInSector h.pbs) (hi : i < maxNLogRecordInSector h.pbs) :
    (h.copyRecord k i).record = Function.update h.record k (h.record i) := by
  rw [copyRecord, record_store hk (length_recordBytes hi), ofBytes_recordBytes]

def noRecord : WlogRecord := ⟨0, 0, 0, 0, 0, 0⟩

theorem record_clearRecord (hk : k < maxNLogRecordInSector h.pbs) :
    (h.clearRecord k).record = Function.update h.record k noRecord := by
  rw [clearRecord, record_store hk List.length_replicate]
  rfl

theorem nRecords_set (hp : size ≤ h.pbs) (hi : i < widths.length) (hne : i ≠ 4) :
    (h.set i v).nRecords = h.nRecords := by
  rw [nRecords, field_set hp hi, if_neg hne.symm]
  rfl

theorem records_set (hp : size ≤ h.pbs) (hi : i < widths.length) (hne : i ≠ 4) :
    (h.set i v).records = h.records := by
  rw [records, nRecords_set hp hi hne, record_set hi]
  rfl

theorem contents_setChecksum (hp : size ≤ h.pbs) : (h.setChecksum v).contents = h.contents := by
  rw [setChecksum, contents, records_set hp (by decide) (by decide)]
  simp only [sectorType, totalIoSize, logpackLsid, nPadding,
    field_set hp (show 0 < widths.length by decide)]
  rfl

theorem contents_setSectorType (hp : size ≤ h.pbs) :
    (h.setSectorType v).contents = { h.contents with sectorType := v % 2 ^ 16 } := by
  rw [setSectorType, contents, records_set hp (by decide) (by decide)]
  simp only [sectorType, totalIoSize, logpackLsid, nPadding,
    field_set hp (show 1 < widths.length by decide)]
  rfl

theorem contents_setTotalIoSize (hp : size ≤ h.pbs) :
    (h.setTotalIoSize v).contents = { h.contents with totalIoSize := v % 2 ^ 16 } := by
  rw [setTotalIoSize, contents, records_set hp (by decide) (by decide)]
  simp only [sectorType, totalIoSize, logpackLsid, nPadding,
    field_set hp (show 2 < widths.length by decide)]
  rfl

theorem contents_setLogpackLsid (hp : size ≤ h.pbs) :
    (h.setLogpackLsid v).contents = { h.contents with logpackLsid := v % 2 ^ 64 } := by
  rw [setLogpackLsid, contents, records_set hp (by decide) (by decide)]
  simp only [sectorType, totalIoSize, logpackLsid, nPadding,
    field_set hp (show 3 < widths.length by decide)]
  rfl

theorem contents_setNPadding (hp : size ≤ h.pbs) :
    (h.setNPadding v).contents = { h.contents with nPadding := v % 2 ^ 16 } := by
  rw [setNPadding, contents, records_set hp (by decide) (by decide)]
  simp only [sectorType, totalIoSize, logpackLsid, nPadding,
    field_set hp (show 5 < widths.length by decide)]
  rfl

theorem contents_setNRecords (hp : size ≤ h.pbs) (hv : v < 2 ^ 16) :
    (h.setNRecords v).contents = { h.contents with records := (List.range v).map h.record } := by
  have hn : (h.setNRecords v).nRecords = v := by
    rw [nRecords, setNRecords, field_set hp (by decide)]
    exact Nat.mod_eq_of_lt hv
  rw [contents, records, hn, setNRecords, record_set (by decide)]
  simp only [sectorType, totalIoSize, logpackLsid, nPadding,
    field_set hp (show 4 < widths.length by decide)]
  rfl

@[simp] theorem length_records (h : LogPackHeader) : h.records.length = h.nRecords := by
  rw [records, List.length_map, List.length_range]

theorem getElem_records (hi : i < h.records.length) : h.records[i] = h.record i := by
  simp only [records, List.getElem_map, List.getElem_range]

theorem contents_setRecord (hk : k < maxNLogRecordInSector h.pbs) (hr : r.Fits) :
    (h.setRecord k r).contents = { h.contents with records := h.records.set k r } := by
  have hfield := field_setRecord (h := h) (k := k) (r := r)
  have hrecords : (h.setRecord k r).records = h.records.set k r := by
    apply List.ext_getElem
    · rw [List.length_set, length_records, length_records, nRecords, hfield, nRecords]
    · intro j hj hj'
      rw [getElem_records, List.getElem_set, record_setRecord hk hr, getElem_records]
      by_cases hjk : j = k
      · rw [hjk, Function.update_self, if_pos rfl]
      · rw [Function.update_of_ne hjk, if_neg (Ne.symm hjk)]
  rw [contents, hrecords]
  simp only [sectorType, totalIoSize, logpackLsid, nPadding, hfield]
  rfl

theorem contents_pushRecord {flags offset ioSize : Nat} (hk : h.nRecords < maxNLogRecordInSector h.pbs)
    (hn : h.nRecords + 1 < 2 ^ 16) (hr : (h.newRecord flags offset ioSize).Fits) :
    (h.pushRecord flags offset ioSize).contents =
      { h.contents with records := h.records ++ [h.newRecord flags offset ioSize] } := by
  have hrecords : (List.range (h.nRecords + 1)).map (h.setRecord h.nRecords
      (h.newRecord flags offset ioSize)).record =
        h.records ++ [h.newRecord flags offset ioSize] := by
    rw [record_setRecord hk hr, List.range_succ, List.map_append, List.map_singleton,
      Function.update_self]
    refine congrArg (· ++ _) (List.map_congr_left fun j hj => Function.update_of_ne ?_ _ _)
    exact (List.mem_range.1 hj).ne
  rw [pushRecord, contents_setNRecords (by rw [pbs_setRecord]; exact size_le_of_lt hk) hn, hrecords,
    contents_setRecord hk hr]

theorem fits_newRecord {flags offset ioSize : Nat} (hf : flags < 2 ^ 32) (ho : offset < 2 ^ 64)
    (hs : ioSize < 2 ^ 32) :
    (h.newRecord flags offset ioSize).Fits :=
  ⟨Nat.two_pow_pos 32, hf, ho, hs, Nat.mod_lt _ (by decide), Nat.mod_lt _ (by decide)⟩

theorem field_lt (hi : i < widths.length) : h.field i < 256 ^ widths[i] := by
  change (fields widths h.block).getD i 0 < _
  rw [List.getD_eq_getElem _ 0 (by rwa [length_fields]), getElem_fields _ hi]
  exact ofLE_take_lt _ _

theorem totalIoSize_lt : h.totalIoSize < 2 ^ 16 := field_lt (i := 2) (by decide)

theorem logpackLsid_lt : h.logpackLsid < 2 ^ 64 := field_lt (i := 3) (by decide)

theorem nRecords_lt : h.nRecords < 2 ^ 16 := field_lt (i := 4) (by decide)

theorem nPadding_lt : h.nPadding < 2 ^ 16 := field_lt (i := 5) (by decide)

theorem foldl_clearRecord (l : List Nat) (hl : ∀ j ∈ l, j < maxNLogRecordInSector h.pbs) :
    (l.foldl clearRecord h).pbs = h.pbs ∧ (l.foldl clearRecord h).salt = h.salt ∧
      (l.foldl clearRecord h).field = h.field ∧
      ∀ j, j ∉ l → (l.foldl clearRecord h).record j = h.record j := by
  induction l generalizing h with
  | nil => exact ⟨rfl, rfl, rfl, fun _ _ => rfl⟩
  | cons k l ih =>
      obtain ⟨hk, hl⟩ := List.forall_mem_cons.1 hl
      obtain ⟨hpbs, hsalt, hfield, hrecord⟩ := ih (h := h.clearRecord k) hl
      refine ⟨hpbs, hsalt, hfield.trans (field_store size_le_recordPos), fun j hj => ?_⟩
      obtain ⟨hjk, hjl⟩ := not_or.1 (List.mem_cons.not.1 hj)
      rw [List.foldl_cons, hrecord j hjl, record_clearRecord hk, Function.update_of_ne hjk]

theorem contents_countRecord (hp : size ≤ h.pbs) (i : Nat) : (h.countRecord i).contents =
    { h.contents with
      totalIoSize := (h.totalIoSize + countedPb h.pbs [h.record i]) % 2 ^ 16
      nPadding := (h.nPadding + [h.record i].countP WlogRecord.isPadding) % 2 ^ 16 } := by
  have htotal : (h.totalIoSize + 0) % 2 ^ 16 = h.totalIoSize := Nat.mod_eq_of_lt totalIoSize_lt
  have hpadding : (h.nPadding + 0) % 2 ^ 16 = h.nPadding := Nat.mod_eq_of_lt nPadding_lt
  simp only [countRecord, countedPb, List.map_cons, List.map_nil, List.sum_cons, List.sum_nil,
    List.countP_cons,
    List.countP_nil, Nat.add_zero, Nat.zero_add]
  by_cases hdiscard : (h.record i).isDiscard
  · simp only [if_pos hdiscard]
    by_cases hpad : (h.record i).isPadding
    · rw [if_pos hpad, if_pos hpad, contents_setNPadding hp, htotal]
      rfl
    · rw [if_neg hpad, if_neg hpad, htotal, hpadding]
      rfl
  · simp only [if_neg hdiscard]
    by_cases hpad : (h.record i).isPadding
    · have hsame : (h.setTotalIoSize (h.totalIoSize + (h.record i).ioSizePb h.pbs)).nPadding =
          h.nPadding :=
        congrArg Contents.nPadding (contents_setTotalIoSize hp)
      rw [if_pos hpad, if_pos hpad, contents_setNPadding (by rwa [pbs_setTotalIoSize]),
        contents_setTotalIoSize hp, hsame]
    · rw [if_neg hpad, if_neg hpad, hpadding, contents_setTotalIoSize hp]
      rfl

theorem record_countRecord (i : Nat) : (h.countRecord i).record = h.record := by
  have htotal : ∀ v, (h.setTotalIoSize v).record = h.record := fun v => record_set (by decide)
  have hpadding : ∀ (g : LogPackHeader) v, (g.setNPadding v).record = g.record :=
    fun g v => record_set (by decide)
  simp only [countRecord]
  split_ifs
  · rw [hpadding]
  · rw [hpadding, htotal]
  · rfl
  · rw [htotal]

theorem pbs_countRecord (i : Nat) : (h.countRecord i).pbs = h.pbs ∧ (h.countRecord i).salt = h.salt := by
  simp only [countRecord]
  split_ifs <;> exact ⟨rfl, rfl⟩

theorem foldl_countRecord (hp : size ≤ h.pbs) (m : Nat) :
    ((List.range m).foldl countRecord h).pbs = h.pbs ∧ ((List.range m).foldl countRecord h).salt =
      h.salt ∧
      ((List.range m).foldl countRecord h).record = h.record ∧
      ((List.range m).foldl countRecord h).contents =
        { h.contents with
          totalIoSize := (h.totalIoSize + countedPb h.pbs ((List.range m).map h.record)) % 2 ^ 16
          nPadding := (h.nPadding + ((List.range m).map h.record).countP
            WlogRecord.isPadding) % 2 ^ 16 } := by
  induction m with
  | zero =>
      refine ⟨rfl, rfl, rfl, ?_⟩
      change h.contents = { h.contents with
        totalIoSize := (h.totalIoSize + 0) % 2 ^ 16, nPadding := (h.nPadding + 0) % 2 ^ 16 }
      rw [Nat.add_zero, Nat.add_zero, Nat.mod_eq_of_lt totalIoSize_lt, Nat.mod_eq_of_lt nPadding_lt]
      rfl
  | succ m ih =>
      obtain ⟨hpbs, hsalt, hrecord, hcontents⟩ := ih
      have htotal := congrArg Contents.totalIoSize hcontents
      have hpadding := congrArg Contents.nPadding hcontents
      simp only [contents] at htotal hpadding
      rw [List.range_succ, List.foldl_append, List.foldl_cons, List.foldl_nil]
      refine ⟨(pbs_countRecord m).1.trans hpbs, (pbs_countRecord m).2.trans hsalt,
        (record_countRecord m).trans hrecord, ?_⟩
      rw [contents_countRecord (by rwa [hpbs]), hcontents, htotal, hpadding, hrecord, hpbs,
        List.map_append,
        List.countP_append, Nat.mod_add_mod, Nat.mod_add_mod, Nat.add_assoc, Nat.add_assoc]
      simp only [countedPb, List.map_append, List.map_cons, List.map_nil, List.sum_append]

theorem contents_updateChecksum (hp : size ≤ h.pbs) : h.updateChecksum.contents = h.contents := by
  rw [updateChecksum, contents_setChecksum (by rwa [pbs_setChecksum]), contents_setChecksum hp]

theorem records_take {idx : Nat} (hidx : idx ≤ h.nRecords) :
    (List.range idx).map h.record = h.records.take idx := by
  rw [records, ← List.map_take, List.take_range, Nat.min_eq_left hidx]

/-- `shrink` keeps the records before `invalidIdx` and counts them again. -/
theorem contents_shrink {invalidIdx : Nat} (hp : size ≤ h.pbs) (hidx : invalidIdx ≤ h.nRecords)
    (hn : h.nRecords ≤ maxNLogRecordInSector h.pbs) : (h.shrink invalidIdx).contents =
      { h.contents with
        totalIoSize := countedPb h.pbs (h.records.take invalidIdx) % 2 ^ 16
        nPadding := (h.records.take invalidIdx).countP WlogRecord.isPadding % 2 ^ 16
        records := h.records.take invalidIdx } := by
  have hlast : invalidIdx < 2 ^ 16 := hidx.trans_lt nRecords_lt
  obtain ⟨hpbs, -, hfield, hrecord⟩ :=
    foldl_clearRecord (h := h) (List.range' invalidIdx (h.nRecords - invalidIdx))
    fun j hj => by
      have hj := List.mem_range'_1.1 hj
      omega
  simp only [shrink]
  generalize (List.range' invalidIdx (h.nRecords - invalidIdx)).foldl clearRecord h = cleared
    at hpbs hfield hrecord ⊢
  have hcp : size ≤ cleared.pbs := by rwa [hpbs]
  have hkept : (List.range invalidIdx).map cleared.record = h.records.take invalidIdx := by
    rw [← records_take hidx]
    refine List.map_congr_left fun j hj => hrecord j fun hj' => ?_
    have hlt := List.mem_range.1 hj
    have hle := List.mem_range'_1.1 hj'
    omega
  have hfields : cleared.contents = { h.contents with records := cleared.records } := by
    simp only [contents, sectorType, totalIoSize, logpackLsid, nPadding, hfield]
  have hzero : (((cleared.setNRecords invalidIdx).setTotalIoSize 0).setNPadding 0).contents =
      { h.contents with totalIoSize := 0, nPadding := 0, records := h.records.take invalidIdx } := by
    rw [contents_setNPadding (by simpa using hcp), contents_setTotalIoSize (by simpa using hcp),
      contents_setNRecords hcp hlast, hkept,
      hfields]
    rfl
  have hsame : (((cleared.setNRecords invalidIdx).setTotalIoSize 0).setNPadding 0).record =
      cleared.record :=
    (record_set (by decide)).trans ((record_set (by decide)).trans (record_set (by decide)))
  generalize hz : ((cleared.setNRecords invalidIdx).setTotalIoSize 0).setNPadding 0 = zeroed
    at hzero hsame ⊢
  have hzpbs : zeroed.pbs = h.pbs := by
    subst hz
    exact hpbs
  have hzp : size ≤ zeroed.pbs := by rwa [hzpbs]
  obtain ⟨hpbs', -, -, hcounted⟩ := foldl_countRecord hzp invalidIdx
  have htotal : zeroed.totalIoSize = 0 := congrArg Contents.totalIoSize hzero
  have hpadding : zeroed.nPadding = 0 := congrArg Contents.nPadding hzero
  rw [contents_updateChecksum (by rwa [hpbs']), hcounted, hzero, htotal, hpadding, hsame, hkept,
    hzpbs, Nat.zero_add,
    Nat.zero_add]

theorem foldl_updateRecordLsid (newLsid : Nat) (m : Nat) (hm : m ≤ maxNLogRecordInSector h.pbs) :
    ((List.range m).foldl (updateRecordLsid newLsid) h).pbs = h.pbs ∧
      ((List.range m).foldl (updateRecordLsid newLsid) h).field = h.field ∧
      ∀ j, ((List.range m).foldl (updateRecordLsid newLsid) h).record j =
        if j < m then { h.record j with lsid := (newLsid + (h.record j).lsidLocal) % 2 ^ 64 }
        else h.record j := by
  induction m with
  | zero => exact ⟨rfl, rfl, fun j => rfl⟩
  | succ m ih =>
      obtain ⟨hpbs, hfield, hrecord⟩ := ih (Nat.le_of_succ_le hm)
      rw [List.range_succ, List.foldl_append, List.foldl_cons, List.foldl_nil]
      generalize (List.range m).foldl (updateRecordLsid newLsid) h = g at hpbs hfield hrecord ⊢
      have hmem : m < maxNLogRecordInSector g.pbs := by rwa [hpbs]
      refine ⟨hpbs, (field_setRecordField (by decide)).trans hfield, fun j => ?_⟩
      rw [updateRecordLsid, record_setRecordField_lsid hmem]
      by_cases hj : j = m
      · rw [hj, Function.update_self, hrecord, if_neg (Nat.lt_irrefl m), if_pos (Nat.lt_succ_self m)]
      · rw [Function.update_of_ne hj, hrecord]
        by_cases hlt : j < m
        · rw [if_pos hlt, if_pos (Nat.lt_succ_of_lt hlt)]
        · rw [if_neg hlt, if_neg (by omega)]

theorem contents_updateLsid {newLsid : Nat} (hp : size ≤ h.pbs)
    (hn : h.nRecords ≤ maxNLogRecordInSector h.pbs)
    (hne : h.logpackLsid ≠ newLsid) : (h.updateLsid newLsid).2.contents =
      { h.contents with
        logpackLsid := newLsid % 2 ^ 64
        records := h.records.map fun r => { r with lsid := (newLsid + r.lsidLocal) % 2 ^ 64 } } := by
  have hset := contents_setLogpackLsid (v := newLsid) hp
  have hrecord : (h.setLogpackLsid newLsid).record = h.record := record_set (by decide)
  obtain ⟨-, hfield, hupdated⟩ :=
    foldl_updateRecordLsid (h := h.setLogpackLsid newLsid) newLsid h.nRecords hn
  rw [updateLsid, if_neg hne]
  dsimp only
  generalize (List.range h.nRecords).foldl (updateRecordLsid newLsid) (h.setLogpackLsid newLsid) = g
    at hfield hupdated ⊢
  have hnr : g.nRecords = h.nRecords :=
    (congrFun hfield 4).trans (nRecords_set hp (by decide) (by decide))
  have hrecords : g.records = h.records.map fun r => { r with
      lsid := (newLsid + r.lsidLocal) % 2 ^ 64 } := by
    rw [records, records, List.map_map, hnr]
    refine List.map_congr_left fun j hj => ?_
    rw [hupdated, if_pos (List.mem_range.1 hj), hrecord]
    rfl
  have hfields : g.contents = { (h.setLogpackLsid newLsid).contents with records := g.records } := by
    simp only [contents, sectorType, totalIoSize, logpackLsid, nPadding, hfield]
  rw [hfields, hset, hrecords]

theorem fits_record : (h.record k).Fits :=
  ⟨ofLE_take_lt _ 4, ofLE_take_lt _ 4, ofLE_take_lt _ 8, ofLE_take_lt _ 4, ofLE_take_lt _ 2,
    ofLE_take_lt _ 8⟩

theorem foldl_copyRecord {idx : Nat} (l : List Nat) (hidx : idx + 1 < maxNLogRecordInSector h.pbs) :
    (l.foldl (fun h _ => h.copyRecord idx (idx + 1)) h).pbs = h.pbs ∧
      (l.foldl (fun h _ => h.copyRecord idx (idx + 1)) h).field = h.field ∧
      (l ≠ [] → (l.foldl (fun h _ => h.copyRecord idx (idx + 1)) h).record =
        Function.update h.record idx (h.record (idx + 1))) := by
  induction l generalizing h with
  | nil => exact ⟨rfl, rfl, fun hne => absurd rfl hne⟩
  | cons k l ih =>
      obtain ⟨hpbs, hfield, hrecord⟩ := ih (h := h.copyRecord idx (idx + 1)) hidx
      have hone := record_copyRecord (Nat.lt_of_succ_lt hidx) hidx
      refine ⟨hpbs, hfield.trans (field_store size_le_recordPos), fun _ => ?_⟩
      rw [List.foldl_cons]
      by_cases hl : l = []
      · rw [hl, List.foldl_nil, hone]
      · -- A second copy stores what is there already.
        rw [hrecord hl, hone, Function.update_idem, Function.update_of_ne (Nat.succ_ne_self idx)]

/-- On a discard, `invalidate` drops the last record and puts the next one in its place. -/
theorem contents_invalidate_discard {idx : Nat} (hn : h.nRecords ≤ maxNLogRecordInSector h.pbs)
    (hidx : idx < h.nRecords)
    (hd : (h.record idx).isDiscard = true) : (h.invalidate idx).2.contents =
      { h.contents with records := (h.records.take (h.nRecords - 1)).set idx (h.record (idx + 1)) } := by
  have hlast : h.nRecords - 1 < 2 ^ 16 := (Nat.sub_le _ _).trans_lt nRecords_lt
  rw [invalidate]
  dsimp only
  rw [if_pos hd]
  obtain ⟨g, hg⟩ : ∃ g, (List.range' idx (h.nRecords - 1 - idx)).foldl
    (fun h _ => h.copyRecord idx (idx + 1)) h = g := ⟨_, rfl⟩
  obtain ⟨hpbs, hfield, hrecord⟩ : g.pbs = h.pbs ∧ g.field = h.field ∧
      ∀ j, j < h.nRecords - 1 → g.record j = if j = idx then h.record (idx + 1) else h.record j := by
    by_cases hnext : idx + 1 < h.nRecords
    · obtain ⟨hpbs, hfield, hrecord⟩ :=
        foldl_copyRecord (h := h) (List.range' idx (h.nRecords - 1 - idx))
        (hnext.trans_le hn)
      rw [hg] at hpbs hfield hrecord
      refine ⟨hpbs, hfield, fun j _ => ?_⟩
      rw [hrecord (by rw [Ne, List.range'_eq_nil_iff]; omega), Function.update_apply]
    · have hnone : h.nRecords - 1 - idx = 0 := by omega
      rw [hnone, List.range'_zero, List.foldl_nil] at hg
      subst hg
      exact ⟨rfl, rfl, fun j hj => (if_neg (by omega)).symm⟩
  rw [hg]
  have hmem : h.nRecords - 1 < maxNLogRecordInSector g.pbs := by
    rw [hpbs]
    omega
  have hkept : (List.range (h.nRecords - 1)).map (g.clearRecord (h.nRecords - 1)).record =
      (h.records.take (h.nRecords - 1)).set idx (h.record (idx + 1)) := by
    rw [← records_take (Nat.sub_le _ _), record_clearRecord hmem]
    apply List.ext_getElem
    · rw [List.length_set, List.length_map, List.length_map]
    · intro j hj hj'
      have hlt : j < h.nRecords - 1 := by rwa [List.length_map, List.length_range] at hj
      rw [List.getElem_set, List.getElem_map, List.getElem_map, List.getElem_range,
        Function.update_of_ne hlt.ne, hrecord j hlt]
      simp only [eq_comm]
  have hfields : (g.clearRecord (h.nRecords - 1)).contents =
      { h.contents with records := (g.clearRecord (h.nRecords - 1)).records } := by
    simp only [contents, sectorType, totalIoSize, logpackLsid, nPadding, clearRecord,
      field_store size_le_recordPos, hfield]
  rw [contents_setNRecords (by simpa using size_le_of_lt hmem) hlast, hkept, hfields]

/-- The records behind a removed one, as `invalidate` leaves them: the first is doubled and the
last is lost. -/
def moved : List WlogRecord → List WlogRecord
  | [] => []
  | r :: rest => r :: (r :: rest).dropLast

theorem records_invalidate_discard {pre rest : List WlogRecord}
    (hn : h.nRecords ≤ maxNLogRecordInSector h.pbs)
    (hrecords : h.records = pre ++ r :: rest) (hd : r.isDiscard = true) :
    (h.invalidate pre.length).2.contents = { h.contents with records := pre ++ moved rest } := by
  have hlen : h.nRecords = pre.length + (rest.length + 1) := by
    rw [← length_records, hrecords, List.length_append, List.length_cons]
  have hat : ∀ j, j < h.nRecords → (pre ++ r :: rest)[j]? = some (h.record j) := fun j hj => by
    rw [← hrecords, records, List.getElem?_map, List.getElem?_range hj]
    rfl
  have hidx : pre.length < h.nRecords := by omega
  have hhere : h.record pre.length = r := by
    have hget := hat _ hidx
    rw [List.getElem?_append_right (Nat.le_refl _), Nat.sub_self, List.getElem?_cons_zero] at hget
    exact (Option.some.inj hget).symm
  rw [contents_invalidate_discard hn hidx (by rwa [hhere])]
  have htake : h.records.take (h.nRecords - 1) = pre ++ (r :: rest).dropLast := by
    rw [← length_records, ← List.dropLast_eq_take, hrecords,
      List.dropLast_append_of_ne_nil (List.cons_ne_nil r rest)]
  rw [htake, List.set_append_right _ _ (Nat.le_refl _), Nat.sub_self]
  cases rest with
  | nil => rfl
  | cons a rest =>
      have hnext : h.record (pre.length + 1) = a := by
        have hget := hat (pre.length + 1) (by rw [hlen, List.length_cons]; omega)
        rw [List.getElem?_append_right (Nat.le_add_right _ 1), Nat.add_sub_cancel_left,
          List.getElem?_cons_succ,
          List.getElem?_cons_zero] at hget
        exact (Option.some.inj hget).symm
      rw [hnext]
      rfl

theorem contents_invalidate_normal {idx : Nat} (hn : h.nRecords ≤ maxNLogRecordInSector h.pbs)
    (hidx : idx < h.nRecords)
    (hd : (h.record idx).isDiscard = false) (hpad : (h.record idx).isPadding = false) :
    (h.invalidate idx).2.contents =
      { h.contents with records := h.records.set idx { (h.record idx).setPadding with
      offset := 0, checksum := 0 } } := by
  have hfits := fits_record (h := h) (k := idx)
  rw [invalidate]
  dsimp only
  rw [if_neg (by rw [hd]; exact Bool.false_ne_true), if_neg (by rw [hpad]; exact Bool.false_ne_true)]
  refine contents_setRecord (hidx.trans_le hn) ⟨Nat.two_pow_pos 32, ?_, Nat.two_pow_pos 64,
    hfits.ioSize, hfits.lsidLocal,
    hfits.lsid⟩
  exact Nat.or_lt_two_pow hfits.flags (by decide)

theorem nRecords_le (hb : BlockSize h.pbs) (hv : h.isValidHeaderAndRecords = true) :
    h.nRecords ≤ maxNLogRecordInSector h.pbs := by
  by_contra hlt
  obtain ⟨m, hm⟩ := hb.dvd
  have hmem : h.record (maxNLogRecordInSector h.pbs) ∈ h.records :=
    List.mem_map_of_mem (List.mem_range.2 (Nat.lt_of_not_le hlt))
  rw [isValidHeaderAndRecords, Bool.and_eq_true, List.all_eq_true] at hv
  have hrec := hv.2 _ hmem
  have hshort : h.block.length ≤ recordPos (maxNLogRecordInSector h.pbs) + 20 := by
    rw [h.length_block]
    simp only [recordPos, maxNLogRecordInSector, size, WlogRecord.size, lbs] at *
    omega
  have hzero : (h.record (maxNLogRecordInSector h.pbs)).lsidLocal = 0 := by
    change ofLE (((((h.block.drop (recordPos _)).drop 4).drop 4).drop 8).drop 4 |>.take 2) = 0
    rw [List.drop_drop, List.drop_drop, List.drop_drop, List.drop_drop,
      List.drop_eq_nil_of_le (by omega), List.take_nil]
    rfl
  rw [Bool.and_eq_true, WlogRecord.isValid, Bool.and_eq_true, Bool.and_eq_true, decide_eq_true_eq,
    hzero] at hrec
  exact Nat.lt_irrefl 0 hrec.1.1.2

end

end LogPackHeader

end WalbTools.LogPack
