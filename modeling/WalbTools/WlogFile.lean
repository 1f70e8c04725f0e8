import WalbTools.LogPackLayout
import WalbTools.SuperBlock
import WalbTools.WlogNet

namespace WalbTools.WlogFile

open ByteMemory Layout Splice LogPack LogPackHeader
open DiffIo (lbs)
open Queue (calcChecksum)
open WdevLog (WALB_LOG_VERSION)

def WALBLOG_HEADER_SIZE : Nat := 4096

def SECTOR_TYPE_WALBLOG_HEADER : Nat := 4

def widths : List Nat := [2, 2, 2, 2, 4, 4, 4, 4, 16, 8, 8]

structure WlogFileHeader where
  data : Bytes
  length_data : data.length = WALBLOG_HEADER_SIZE

def readFile (n : Nat) (file : Bytes) : Except String (Bytes × Bytes) :=
  if file.length < n then .error "EofError" else .ok (file.take n, file.drop n)

namespace WlogFileHeader

def field (h : WlogFileHeader) (i : Nat) : Nat := (fields widths h.data).getD i 0

def sectorType (h : WlogFileHeader) : Nat := h.field 0

def version (h : WlogFileHeader) : Nat := h.field 1

def salt (h : WlogFileHeader) : Nat := h.field 5

def pbs (h : WlogFileHeader) : Nat := h.field 7

def beginLsid (h : WlogFileHeader) : Nat := h.field 9

def endLsid (h : WlogFileHeader) : Nat := h.field 10

def set (h : WlogFileHeader) (i v : Nat) : WlogFileHeader :=
  ⟨setField widths 0 i v h.data, length_setField.trans h.length_data⟩

def updateChecksum (h : WlogFileHeader) : WlogFileHeader :=
  (h.set 4 0).set 4 (calcChecksum (h.set 4 0).data 0)

def isValid (h : WlogFileHeader) (isChecksum : Bool) : Bool :=
  decide (h.sectorType = SECTOR_TYPE_WALBLOG_HEADER) && decide (h.version = WALB_LOG_VERSION) &&
    decide (h.beginLsid < h.endLsid) && (!isChecksum || decide (calcChecksum h.data 0 = 0))

def readFrom (file : Bytes) : Except String (WlogFileHeader × Bytes) :=
  if hlen : (file.take WALBLOG_HEADER_SIZE).length = WALBLOG_HEADER_SIZE then
    if (WlogFileHeader.mk (file.take WALBLOG_HEADER_SIZE) hlen).isValid true then
      .ok (⟨file.take WALBLOG_HEADER_SIZE, hlen⟩, file.drop WALBLOG_HEADER_SIZE)
    else .error "WlogFileHeader:invalid"
  else .error "EofError"

end WlogFileHeader

structure WlogWriter where
  fileW : Bytes
  isWrittenHeader : Bool
  isClosed : Bool
  pbs : Nat
  salt : Nat
  beginLsid : Nat
  lsid : Nat

namespace WlogWriter

def new : WlogWriter := ⟨[], false, false, 0, 0, 2 ^ 64 - 1, 2 ^ 64 - 1⟩

/-- The header is returned too, as its checksum is stored to it. -/
def writeHeader (fileH : WlogFileHeader) (w : WlogWriter) :
    Except String (WlogFileHeader × WlogWriter) :=
  if w.isWrittenHeader then .error "Wlog file header has been written already."
  else if !fileH.isValid false then .error "Wlog file header is invalid."
  else
    let fileH := fileH.updateChecksum
    .ok (fileH, { w with
      fileW := w.fileW ++ fileH.data, isWrittenHeader := true, pbs := fileH.pbs, salt := fileH.salt,
      beginLsid := fileH.beginLsid, lsid := fileH.beginLsid })

def writePackHeader (h : LogPackHeader) (w : WlogWriter) : Except String WlogWriter :=
  if !w.isWrittenHeader then .error "You must call writeHeader() at first."
  else if h.nRecords = 0 then .ok w
  else .ok { w with fileW := w.fileW ++ h.block.take w.pbs, lsid := (w.lsid + 1) % 2 ^ 64 }

def writePackIo (w : WlogWriter) (data : Bytes) : WlogWriter :=
  if data.length = 0 then w
  else { w with fileW := w.fileW ++ data, lsid := (w.lsid + data.length / w.pbs) % 2 ^ 64 }

def checkHeader (h : LogPackHeader) (w : WlogWriter) : Except String Unit :=
  if !h.isValid then .error "Logpack header invalid."
  else if w.pbs ≠ h.pbs then .error "pbs differs"
  else if w.salt ≠ h.salt then .error "salt differs"
  else if w.lsid ≠ h.logpackLsid then .error "logpack lsid differs"
  else .ok ()

def writePack (h : LogPackHeader) (ioQ : List Bytes) (w : WlogWriter) : Except String WlogWriter := do
  w.checkHeader h
  if ioQ.length ≠ h.records.countP WlogRecord.hasData then .error "bad queue size"
  else return ioQ.foldl writePackIo (← w.writePackHeader h)

def writeEof (w : WlogWriter) : Except String WlogWriter :=
  let h := (LogPackHeader.init w.pbs w.salt (2 ^ 64 - 1)).updateChecksum
  if h.isValid then .ok { w with fileW := w.fileW ++ h.block } else .error "write:invalid"

def close (w : WlogWriter) : Except String WlogWriter :=
  if !w.isClosed && w.isWrittenHeader then w.writeEof.map fun w => { w with isClosed := true } else .ok w

/-- The queue of a pack: the data of the records that have data. -/
def ioQueue (p : Pack) : List Bytes :=
  ((p.header.records.zip p.ios).filter fun l => l.1.hasData).map Prod.snd

/-- A pack is written as a whole, or its header and then its blocks. -/
def writeOne (isWhole : Bool) (p : Pack) (w : WlogWriter) : Except String WlogWriter :=
  if isWhole then w.writePack p.header (ioQueue p)
  else (w.writePackHeader p.header).map fun w => (ioQueue p).foldl writePackIo w

def writePacks : List (Bool × Pack) → WlogWriter → Except String WlogWriter
  | [], w => .ok w
  | p :: packs, w => do writePacks packs (← w.writeOne p.1 p.2)

def writeAll (fileH : WlogFileHeader) (packs : List (Bool × Pack)) :
    Except String (WlogFileHeader × WlogWriter) := do
  let (fileH, w) ← new.writeHeader fileH
  let w ← w.writePacks packs
  return (fileH, ← w.close)

end WlogWriter

structure WlogReader where
  fileR : Bytes
  isReadHeader : Bool
  pbs : Nat
  salt : Nat
  isBegun : Bool
  isEnd : Bool
  packH : LogPackHeader
  recIdx : Nat
  endLsid : Nat

def readPackHeader (pbs salt : Nat) (file : Bytes) : Option (LogPackHeader × Bytes) :=
  if hlen : (file.take pbs).length = pbs then
    if (LogPackHeader.mk pbs salt (file.take pbs) hlen).isValid then some (⟨pbs, salt,
      file.take pbs, hlen⟩, file.drop pbs)
    else none
  else none

/-- The buffer keeps its content if the record has no data. -/
def readLogIo (h : LogPackHeader) (idx : Nat) (data file : Bytes) :
    Except String (Bool × Bytes × Bytes) :=
  let lrec := h.record idx
  if !lrec.hasData then .ok (true, data, file)
  else do
    let (data, file) ← readFile (lrec.ioSizePb h.pbs * h.pbs) file
    if !lrec.hasDataForChecksum then return (true, data, file)
    else return (decide (lrec.checksum = calcChecksum (data.take (lrec.ioSize * lbs)) h.salt), data,
      file)

/-- What a caller of `readLog` gets: the header and the index of a record, and its data if it
has any. -/
structure Log where
  packH : LogPackHeader
  recIdx : Nat
  record : WlogRecord
  io : Bytes

namespace WlogReader

def new (file : Bytes) : WlogReader := ⟨file, false, 0, 0, false, false, ⟨0, 0, [], rfl⟩, 0, 0⟩

def readHeader (r : WlogReader) : Except String (WlogFileHeader × WlogReader) :=
  if r.isReadHeader then .error "Wlog file header has been read already."
  else do
    let (fileH, file) ← WlogFileHeader.readFrom r.fileR
    return (fileH, { r with
      fileR := file, isReadHeader := true, pbs := fileH.pbs, salt := fileH.salt, endLsid :=
        fileH.beginLsid,
      packH := ⟨fileH.pbs, fileH.salt, List.replicate fileH.pbs 0, List.length_replicate⟩ })

/-- Whether a record remains. What a read that failed leaves in the header is not kept. -/
def fetchNextPackHeader (r : WlogReader) : Except String (Bool × WlogReader) :=
  if !r.isReadHeader then .error "You have not called readHeader() yet"
  else if r.isEnd then .ok (false, r)
  else if r.isBegun && decide (r.recIdx < r.packH.nRecords) then .ok (true, r)
  else
    match readPackHeader r.packH.pbs r.packH.salt r.fileR with
    | none => .ok (false, { r with isBegun := true, isEnd := true })
    | some (h, file) =>
        if h.isEnd then .ok (false, { r with isBegun := true, isEnd := true, packH := h, fileR := file })
        else .ok (true, { r with
          isBegun := true, packH := h, fileR := file, recIdx := 0, endLsid := h.nextLogpackLsid })

def readLog (data : Bytes) (r : WlogReader) :
    Except String (Option (WlogRecord × Nat × Bytes) × WlogReader) :=
  match r.fetchNextPackHeader with
  | .error e => .error e
  | .ok (false, r) => .ok (none, r)
  | .ok (true, r) =>
      match readLogIo r.packH r.recIdx data r.fileR with
      | .error e => .error e
      | .ok (false, _, _) => .error "invalid log IO"
      | .ok (true, data, file) =>
          .ok (some (r.packH.record r.recIdx, r.recIdx, data),
            { r with fileR := file, recIdx := (r.recIdx + 1) % 2 ^ 16 })

/-- `packHeader` of a release build. -/
def packHeader (r : WlogReader) : LogPackHeader := r.packH

def getEndLsid (r : WlogReader) : Except String Nat :=
  match r.fetchNextPackHeader with
  | .error e => .error e
  | .ok (true, _) => .error "Must be reached to the wlog end."
  | .ok (false, r) => .ok r.endLsid

def readLogs : Nat → Bytes → WlogReader → Except String (List Log × WlogReader)
  | 0, _, _ => .error "out of fuel"
  | fuel + 1, data, r =>
      match r.readLog data with
      | .error e => .error e
      | .ok (none, r) => .ok ([], r)
      | .ok (some (rec, idx, data), r) =>
          match readLogs fuel data r with
          | .error e => .error e
          | .ok (logs, r') =>
              .ok (⟨r.packHeader, idx, rec, if rec.hasData then data else []⟩ :: logs, r')

end WlogReader

section

variable {pbs salt : Nat} {p : Pack}

def packBytes (p : Pack) : Bytes := if p.header.nRecords = 0 then [] else p.header.block ++ p.ios.flatten

/-- A valid pack whose total is what its records take of the log. -/
structure Whole (pbs salt : Nat) (p : Pack) : Prop where
  valid : p.Valid pbs salt
  totalIoSize : p.header.totalIoSize = dataPb pbs p.header.records

def Contiguous : Nat → List Pack → Prop
  | _, [] => True
  | lsid, p :: packs => p.header.logpackLsid = lsid ∧ Contiguous p.header.nextLogpackLsid packs

def endLsidOf (lsid : Nat) (packs : List Pack) : Nat :=
  (packs.getLast?.map fun p => p.header.nextLogpackLsid).getD lsid

theorem endLsidOf_cons (lsid : Nat) (packs : List Pack) :
    endLsidOf lsid (p :: packs) = endLsidOf p.header.nextLogpackLsid packs := by
  cases packs with
  | nil => rfl
  | cons q packs =>
      rw [endLsidOf, endLsidOf, List.getLast?_cons_cons]
      rw [List.getLast?_eq_some_getLast (List.cons_ne_nil q packs)]
      rfl

theorem isValidHeader_of_isValid {h : LogPackHeader} (hv : h.isValid = true) :
    h.isValidHeader = true := by
  rw [LogPackHeader.isValid, isValidHeaderAndRecords, Bool.and_eq_true, Bool.and_eq_true,
    Bool.and_eq_true] at hv
  exact hv.2.1

theorem end_lt {h : LogPackHeader} (hv : h.isValid = true) (hn : h.nRecords ≠ 0) :
    h.logpackLsid + 1 + h.totalIoSize < 2 ^ 64 := by
  have hheader := isValidHeader_of_isValid hv
  have hlsid := logpackLsid_lt (h := h)
  have htotal := totalIoSize_lt (h := h)
  rw [isValidHeader, if_neg hn] at hheader
  simp only [Bool.and_eq_true, decide_eq_true_eq] at hheader
  omega

theorem nextLogpackLsid_eq {h : LogPackHeader} (hv : h.isValid = true) (hn : h.nRecords ≠ 0) :
    h.nextLogpackLsid = h.logpackLsid + 1 + h.totalIoSize := by
  rw [nextLogpackLsid, if_pos (Nat.pos_of_ne_zero hn), Nat.mod_eq_of_lt (end_lt hv hn)]

def queuePb (pbs : Nat) (ioQ : List Bytes) : Nat := (ioQ.map fun io => io.length / pbs).sum

theorem foldl_writePackIo (ioQ : List Bytes) (w : WlogWriter) (h : w.lsid + queuePb w.pbs ioQ < 2 ^ 64) :
    ioQ.foldl WlogWriter.writePackIo w =
      { w with fileW := w.fileW ++ ioQ.flatten, lsid := w.lsid + queuePb w.pbs ioQ } := by
  induction ioQ generalizing w with
  | nil => simp [queuePb]
  | cons io ioQ ih =>
      have hsum : queuePb w.pbs (io :: ioQ) = io.length / w.pbs + queuePb w.pbs ioQ := List.sum_cons
      have hfirst : w.writePackIo io =
          { w with fileW := w.fileW ++ io, lsid := w.lsid + io.length / w.pbs } := by
        rw [WlogWriter.writePackIo]
        split_ifs with hzero
        · rw [List.length_eq_zero_iff.mp hzero, List.append_nil, List.length_nil, Nat.zero_div,
            Nat.add_zero]
        · rw [Nat.mod_eq_of_lt (by omega)]
      rw [List.foldl_cons, hfirst, ih _ (by dsimp only; omega), List.flatten_cons]
      dsimp only
      rw [hsum, List.append_assoc, Nat.add_assoc]

variable {recs : List WlogRecord} {ios : List Bytes}

theorem flatten_queue (h : List.Forall₂ (IoOf pbs salt) recs ios) :
    (((recs.zip ios).filter fun l => l.1.hasData).map Prod.snd).flatten = ios.flatten := by
  induction h with
  | nil => rfl
  | @cons rec io recs ios hio hios ih =>
      rw [List.zip_cons_cons, List.filter_cons]
      cases hd : rec.hasData with
      | true => simp only [if_true, List.map_cons, List.flatten_cons, ih]
      | false =>
          simp only [Bool.false_eq_true, if_false, List.flatten_cons, ih, hio.nil hd, List.nil_append]

theorem queuePb_queue (hb : BlockSize pbs) (h : List.Forall₂ (IoOf pbs salt) recs ios) :
    queuePb pbs (((recs.zip ios).filter fun l => l.1.hasData).map Prod.snd) = dataPb pbs recs := by
  induction h with
  | nil => rfl
  | @cons rec io recs ios hio hios ih =>
      rw [List.zip_cons_cons, List.filter_cons, dataPb_cons, WlogRecord.dataPb, ← ih]
      cases hd : rec.hasData with
      | true =>
          simp only [if_true, List.map_cons, queuePb, List.sum_cons]
          rw [hio.length hd, Nat.mul_div_cancel _ hb.pos]
      | false => simp only [Bool.false_eq_true, if_false, Nat.zero_add]

theorem length_queue (h : List.Forall₂ (IoOf pbs salt) recs ios) :
    (((recs.zip ios).filter fun l => l.1.hasData).map Prod.snd).length =
      recs.countP WlogRecord.hasData := by
  induction h with
  | nil => rfl
  | @cons rec io recs ios hio hios ih =>
      rw [List.length_map] at ih
      rw [List.zip_cons_cons, List.filter_cons, List.countP_cons, ← ih]
      cases hd : rec.hasData <;> simp

theorem writeOne_eq (hb : BlockSize pbs) (hp : Whole pbs salt p) {w : WlogWriter}
    (hw : w.isWrittenHeader = true)
    (hpbs : w.pbs = pbs) (hsalt : w.salt = salt) (hlsid : w.lsid = p.header.logpackLsid)
    (isWhole : Bool) :
    w.writeOne isWhole p = .ok { w with
      fileW := w.fileW ++ packBytes p, lsid := p.header.nextLogpackLsid } := by
  have hv := hp.valid.isValid
  have hios := hp.valid.ios
  have hheader : (w.writePackHeader p.header).map (fun w =>
    (WlogWriter.ioQueue p).foldl WlogWriter.writePackIo w) =
      .ok { w with fileW := w.fileW ++ packBytes p, lsid := p.header.nextLogpackLsid } := by
    rw [WlogWriter.writePackHeader, if_neg (by rw [hw]; decide), packBytes]
    by_cases hn : p.header.nRecords = 0
    · have hrecs : p.header.records = [] := List.eq_nil_of_length_eq_zero (by rw [length_records, hn])
      rw [if_pos hn, if_pos hn, List.append_nil, nextLogpackLsid, if_neg (by omega), ← hlsid]
      simp only [Except.map, WlogWriter.ioQueue, hrecs]
      rfl
    · have hend := end_lt hv hn
      have hqueue : queuePb pbs (WlogWriter.ioQueue p) = p.header.totalIoSize :=
        (queuePb_queue hb hios).trans hp.totalIoSize.symm
      have hone : (w.lsid + 1) % 2 ^ 64 = p.header.logpackLsid + 1 := by
        rw [hlsid, Nat.mod_eq_of_lt (by omega)]
      rw [if_neg hn, if_neg hn, hone]
      simp only [Except.map]
      rw [foldl_writePackIo _ _ (by dsimp only; rw [hpbs, hqueue]; exact hend)]
      dsimp only
      rw [hpbs, hqueue, nextLogpackLsid_eq hv hn, WlogWriter.ioQueue, flatten_queue hios,
        List.take_of_length_le (by rw [p.header.length_block, hp.valid.pbs_eq]), List.append_assoc]
  cases isWhole with
  | false => exact hheader
  | true =>
      have hcheck : w.checkHeader p.header = .ok () := by
        rw [WlogWriter.checkHeader, hv, hpbs, hsalt, hlsid, hp.valid.pbs_eq, hp.valid.salt_eq]
        simp
      have hlen : ¬ (WlogWriter.ioQueue p).length ≠ p.header.records.countP WlogRecord.hasData :=
        not_not.2 (length_queue hios)
      rw [WlogWriter.writeOne, if_pos rfl, WlogWriter.writePack, hcheck]
      rw [← hheader]
      cases w.writePackHeader p.header with
      | error e => simp [bind, Except.bind, Except.map, hlen]
      | ok w' => simp [bind, Except.bind, Except.map, pure, Except.pure, hlen]

def packsBytes (packs : List Pack) : Bytes := packs.flatMap packBytes

theorem writePacks_eq (hb : BlockSize pbs) {packs : List (Bool × Pack)}
    (hp : ∀ p ∈ packs, Whole pbs salt p.2) {w : WlogWriter}
    (hw : w.isWrittenHeader = true) (hpbs : w.pbs = pbs) (hsalt : w.salt = salt)
    (hc : Contiguous w.lsid (packs.map Prod.snd)) :
    w.writePacks packs = .ok { w with
      fileW := w.fileW ++ packsBytes (packs.map Prod.snd), lsid :=
        endLsidOf w.lsid (packs.map Prod.snd) } := by
  induction packs generalizing w with
  | nil => simp [WlogWriter.writePacks, packsBytes, endLsidOf]
  | cons p packs ih =>
      obtain ⟨hhead, htail⟩ := List.forall_mem_cons.1 hp
      obtain ⟨hlsid, hrest⟩ := hc
      rw [WlogWriter.writePacks, writeOne_eq hb hhead hw hpbs hsalt hlsid.symm]
      have hih := ih (w := { w with
        fileW := w.fileW ++ packBytes p.2,
        lsid := p.2.header.nextLogpackLsid }) htail hw hpbs hsalt hrest
      simp only [bind, Except.bind]
      rw [hih, List.map_cons, endLsidOf_cons, packsBytes, packsBytes, List.flatMap_cons,
        List.append_assoc]

def endHeader (pbs salt : Nat) : LogPackHeader :=
  (LogPackHeader.init pbs salt (2 ^ 64 - 1)).updateChecksum

theorem contents_endHeader (hb : BlockSize pbs) :
    (endHeader pbs salt).contents = ⟨SECTOR_TYPE_LOGPACK, 0, 2 ^ 64 - 1, 0, []⟩ := by
  have hp := size_le_pbs hb
  rw [endHeader, contents_updateChecksum hp, contents_init hp, Nat.mod_eq_of_lt (by decide)]

theorem pbs_endHeader : (endHeader pbs salt).pbs = pbs := by
  rw [endHeader, pbs_updateChecksum]
  rfl

theorem nRecords_endHeader (hb : BlockSize pbs) : (endHeader pbs salt).nRecords = 0 :=
  nRecords_of_contents (contents_endHeader hb)

theorem isEnd_endHeader (hb : BlockSize pbs) : (endHeader pbs salt).isEnd = true := by
  have hlsid : (endHeader pbs salt).logpackLsid = 2 ^ 64 - 1 :=
    congrArg Contents.logpackLsid (contents_endHeader hb)
  rw [isEnd, nRecords_endHeader hb, hlsid]
  rfl

theorem isValid_endHeader (hb : BlockSize pbs) : (endHeader pbs salt).isValid = true := by
  have hcontents : (endHeader pbs salt).contents = _ := contents_endHeader hb
  have hpbs : (endHeader pbs salt).pbs ≠ 0 := by
    rw [pbs_endHeader]
    exact hb.pos.ne'
  have hn : (endHeader pbs salt).nRecords = 0 := nRecords_endHeader hb
  have htype : (endHeader pbs salt).sectorType = SECTOR_TYPE_LOGPACK :=
    congrArg Contents.sectorType hcontents
  have htotal : (endHeader pbs salt).totalIoSize = 0 := congrArg Contents.totalIoSize hcontents
  have hpadding : (endHeader pbs salt).nPadding = 0 := congrArg Contents.nPadding hcontents
  have hrecs : (endHeader pbs salt).records = [] := congrArg Contents.records hcontents
  rw [LogPackHeader.isValid, isValidHeaderAndRecords, isValidHeader, hrecs, hn, htype, htotal,
    hpadding, decide_eq_true hpbs]
  rfl

end

section

variable {pbs salt : Nat} {rest : Bytes} {r : WlogReader}

theorem readPackHeader_block {h : LogPackHeader} (hv : h.isValid = true) (rest : Bytes) :
    readPackHeader h.pbs h.salt (h.block ++ rest) = some (h, rest) := by
  obtain ⟨pbs, salt, block, rfl⟩ := h
  simp only [readPackHeader, List.take_left, List.drop_left, dif_pos, hv, if_true]

/-- The reader stands before a pack: all records of the one before it are read. -/
structure Between (pbs salt : Nat) (r : WlogReader) : Prop where
  isReadHeader : r.isReadHeader = true
  isEnd : r.isEnd = false
  used : (r.isBegun && decide (r.recIdx < r.packH.nRecords)) = false
  pbs_eq : r.packH.pbs = pbs
  salt_eq : r.packH.salt = salt

structure Within (pbs salt : Nat) (h : LogPackHeader) (r : WlogReader) : Prop where
  isReadHeader : r.isReadHeader = true
  isEnd : r.isEnd = false
  isBegun : r.isBegun = true
  packH : r.packH = h
  pbs_eq : h.pbs = pbs
  salt_eq : h.salt = salt

theorem Between.fetch {h : LogPackHeader} (hr : Between pbs salt r) (hv : h.isValid = true)
    (hpbs : h.pbs = pbs)
    (hsalt : h.salt = salt) (hfile : r.fileR = h.block ++ rest) : r.fetchNextPackHeader =
      if h.isEnd then .ok (false, { r with isBegun := true, isEnd := true, packH := h, fileR := rest })
      else .ok (true, { r with
        isBegun := true, packH := h, fileR := rest, recIdx := 0,
        endLsid := h.nextLogpackLsid }) := by
  have hread : readPackHeader r.packH.pbs r.packH.salt r.fileR = some (h, rest) := by
    rw [hr.pbs_eq, hr.salt_eq, ← hpbs, ← hsalt, hfile]
    exact readPackHeader_block hv rest
  rw [WlogReader.fetchNextPackHeader, if_neg (by rw [hr.isReadHeader]; decide),
    if_neg (by rw [hr.isEnd]; decide),
    if_neg (by rw [hr.used]; decide), hread]

theorem Within.fetch {h : LogPackHeader} (hr : Within pbs salt h r) (hidx : r.recIdx < h.nRecords) :
    r.fetchNextPackHeader = .ok (true, r) := by
  rw [WlogReader.fetchNextPackHeader, if_neg (by rw [hr.isReadHeader]; decide),
    if_neg (by rw [hr.isEnd]; decide),
    if_pos (by rw [hr.isBegun, hr.packH, decide_eq_true hidx]; rfl)]

theorem readLogIo_eq {h : LogPackHeader} {idx : Nat} {io : Bytes} (hpbs : h.pbs = pbs)
    (hsalt : h.salt = salt)
    (hio : IoOf pbs salt (h.record idx) io) (data rest : Bytes) :
    readLogIo h idx data (io ++ rest) = .ok (true, if (h.record idx).hasData then io
      else data, rest) := by
  rw [readLogIo]
  cases hd : (h.record idx).hasData with
  | false => simp [hio.nil hd]
  | true =>
      have hlen := hio.length hd
      have hread : readFile ((h.record idx).ioSizePb h.pbs * h.pbs) (io ++ rest) = .ok (io, rest) := by
        rw [readFile, hpbs, ← hlen, if_neg (by rw [List.length_append]; omega), List.take_left,
          List.drop_left]
      simp only [Bool.not_true, Bool.false_eq_true, if_false, hread, bind, Except.bind, if_true, hsalt]
      cases hc : (h.record idx).hasDataForChecksum with
      | false => rfl
      | true =>
          rw [hio.checksum hc]
          simp [pure, Except.pure]

theorem Within.readLog {h : LogPackHeader} {io : Bytes} (hr : Within pbs salt h r)
    (hidx : r.recIdx < h.nRecords)
    (hio : IoOf pbs salt (h.record r.recIdx) io) (hfile : r.fileR = io ++ rest) (data : Bytes) :
    r.readLog data = .ok (some (h.record r.recIdx, r.recIdx, if (h.record r.recIdx).hasData then io
      else data),
      { r with fileR := rest, recIdx := r.recIdx + 1 }) := by
  have hlt := nRecords_lt (h := h)
  have hmod : (r.recIdx + 1) % 2 ^ 16 = r.recIdx + 1 := Nat.mod_eq_of_lt (by omega)
  rw [WlogReader.readLog, hr.fetch hidx]
  dsimp only
  rw [hr.packH, hfile, readLogIo_eq hr.pbs_eq hr.salt_eq hio]
  dsimp only
  rw [hmod]

def logsFrom (h : LogPackHeader) : Nat → List (WlogRecord × Bytes) → List Log
  | _, [] => []
  | i, l :: ls => ⟨h, i, l.1, l.2⟩ :: logsFrom h (i + 1) ls

def packLogs (p : Pack) : List Log := logsFrom p.header 0 (p.header.records.zip p.ios)

theorem packLogs_of_nRecords {p : Pack} (hn : p.header.nRecords = 0) : packLogs p = [] := by
  rw [packLogs, List.eq_nil_of_length_eq_zero (by rw [length_records, hn] : p.header.records.length = 0)]
  rfl

theorem Within.readLogs {h : LogPackHeader} {recs : List WlogRecord} {ios : List Bytes}
    (hios : List.Forall₂ (IoOf pbs salt) recs ios) :
    ∀ {r : WlogReader}, Within pbs salt h r → h.records.drop r.recIdx = recs →
      r.fileR = ios.flatten ++ rest →
      ∀ {fuel : Nat} {more : List Log} {r' : WlogReader},
        (∀ data, WlogReader.readLogs fuel data { r with
        fileR := rest, recIdx := r.recIdx + recs.length } = .ok (more, r')) →
        ∀ data, WlogReader.readLogs (fuel + recs.length) data r =
        .ok (logsFrom h r.recIdx (recs.zip ios) ++ more, r') := by
  induction hios with
  | nil =>
      intro r hr _ hfile fuel more r' hmore data
      rw [List.flatten_nil, List.nil_append] at hfile
      have heq : ({ r with
          fileR := rest, recIdx := r.recIdx + ([] : List WlogRecord).length } : WlogReader) = r := by
        rw [← hfile]
        rfl
      rw [← heq]
      exact hmore data
  | @cons rec io recs ios hio hios ih =>
      intro r hr hdrop hfile fuel more r' hmore data
      have hidx : r.recIdx < h.nRecords := by
        have hlen := congrArg List.length hdrop
        rw [List.length_drop, length_records, List.length_cons] at hlen
        omega
      have hcons := List.drop_eq_getElem_cons (by rwa [length_records] : r.recIdx < h.records.length)
      rw [hdrop, getElem_records] at hcons
      obtain ⟨hrec, htail⟩ := List.cons.inj hcons
      rw [List.flatten_cons, List.append_assoc] at hfile
      have hone := hr.readLog hidx (hrec ▸ hio) hfile data
      have hnext : Within pbs salt h { r with fileR := ios.flatten ++ rest, recIdx := r.recIdx + 1 } :=
        ⟨hr.isReadHeader, hr.isEnd, hr.isBegun, hr.packH, hr.pbs_eq, hr.salt_eq⟩
      have hmore' : ∀ data, WlogReader.readLogs fuel data
        { r with fileR := rest, recIdx := r.recIdx + 1 + recs.length } =
          .ok (more, r') := fun data => by
        rw [Nat.add_assoc, Nat.add_comm 1]
        exact hmore data
      have hrest := ih hnext htail.symm rfl hmore'
      have hio' : (if rec.hasData = true then if rec.hasData = true then io else data else []) = io := by
        cases hd : rec.hasData with
        | true => rfl
        | false => exact (hio.nil hd).symm
      rw [List.length_cons, ← Nat.add_assoc, WlogReader.readLogs, hone]
      dsimp only
      rw [hrest, ← hrec, hio']
      dsimp only
      rw [WlogReader.packHeader, hr.packH]
      rfl

theorem readLogs_congr {r r' : WlogReader} (h : r.fetchNextPackHeader = r'.fetchNextPackHeader)
    {fuel : Nat} (data : Bytes) :
    WlogReader.readLogs (fuel + 1) data r = WlogReader.readLogs (fuel + 1) data r' := by
  rw [WlogReader.readLogs, WlogReader.readLogs, WlogReader.readLog, WlogReader.readLog, h]

theorem Between.readPack {p : Pack} (hr : Between pbs salt r) (hp : p.Valid pbs salt)
    (hn : p.header.nRecords ≠ 0)
    (hfile : r.fileR = packBytes p ++ rest) :
    ∃ r₁, Between pbs salt r₁ ∧ r₁.fileR = rest ∧ r₁.endLsid = p.header.nextLogpackLsid ∧
      ∀ {fuel : Nat} {more : List Log} {r' : WlogReader},
      (∀ data, WlogReader.readLogs fuel data r₁ = .ok (more, r')) →
        ∀ data, WlogReader.readLogs (fuel + p.header.nRecords) data r =
        .ok (packLogs p ++ more, r') := by
  rw [packBytes, if_neg hn, List.append_assoc] at hfile
  have hfetch := hr.fetch hp.isValid hp.pbs_eq hp.salt_eq hfile
  rw [if_neg (by rw [hp.notEnd]; decide)] at hfetch
  have hwithin : Within pbs salt p.header { r with
      isBegun := true, packH := p.header, fileR := p.ios.flatten ++ rest, recIdx := 0, endLsid :=
        p.header.nextLogpackLsid } :=
    ⟨hr.isReadHeader, hr.isEnd, rfl, rfl, hp.pbs_eq, hp.salt_eq⟩
  refine ⟨{ r with
    isBegun := true, packH := p.header, fileR := rest, recIdx := 0 + p.header.records.length
    endLsid := p.header.nextLogpackLsid }, ⟨hr.isReadHeader, hr.isEnd,
      by simp, hp.pbs_eq, hp.salt_eq⟩, rfl, rfl, ?_⟩
  intro fuel more r' hmore data
  have hstep := hwithin.readLogs hp.ios rfl rfl hmore data
  obtain ⟨n, hn'⟩ := Nat.exists_eq_succ_of_ne_zero hn
  rw [length_records, hn', Nat.add_succ] at hstep
  rw [hn', Nat.add_succ, readLogs_congr (hfetch.trans (hwithin.fetch (Nat.pos_of_ne_zero hn)).symm) data]
  exact hstep

def recordCount (packs : List Pack) : Nat := (packs.map fun p => p.header.nRecords).sum

/-- All packs are read, up to the end block, where the lsid is that behind the last pack. -/
theorem Between.readPacks (hb : BlockSize pbs) {packs : List Pack} (hp : ∀ p ∈ packs, p.Valid pbs salt) :
    ∀ {r : WlogReader}, Between pbs salt r → r.fileR = packsBytes packs ++ (endHeader pbs salt).block →
      Contiguous r.endLsid packs → ∀ fuel, ∃ r', r'.getEndLsid = .ok (endLsidOf r.endLsid packs) ∧
        ∀ data, WlogReader.readLogs (fuel + 1 + recordCount packs) data r =
        .ok (packs.flatMap packLogs, r') := by
  induction packs with
  | nil =>
      intro r hr hfile _ fuel
      have hfile' : r.fileR = (endHeader pbs salt).block ++ [] := by
        rw [List.append_nil, hfile]
        rfl
      have hfetch := hr.fetch (isValid_endHeader hb) pbs_endHeader rfl hfile'
      rw [if_pos (isEnd_endHeader hb)] at hfetch
      refine ⟨{ r with isBegun := true, isEnd := true, packH := endHeader pbs salt, fileR := [] },
        ?_, fun data => ?_⟩
      · rw [WlogReader.getEndLsid, WlogReader.fetchNextPackHeader,
          if_neg (by rw [hr.isReadHeader]; decide), if_pos rfl]
        rfl
      · rw [recordCount, List.map_nil, List.sum_nil, Nat.add_zero, WlogReader.readLogs,
          WlogReader.readLog, hfetch]
        rfl
  | cons p packs ih =>
      intro r hr hfile hc fuel
      obtain ⟨hhead, htail⟩ := List.forall_mem_cons.1 hp
      obtain ⟨hlsid, hrest⟩ := hc
      have hcount : recordCount (p :: packs) = p.header.nRecords + recordCount packs := List.sum_cons
      rw [packsBytes, List.flatMap_cons, List.append_assoc] at hfile
      rw [endLsidOf_cons, hcount, List.flatMap_cons]
      by_cases hn : p.header.nRecords = 0
      · have hnext : p.header.nextLogpackLsid = r.endLsid := by
          rw [nextLogpackLsid, if_neg (by omega), hlsid]
        rw [packBytes, if_pos hn, List.nil_append] at hfile
        rw [hnext] at hrest ⊢
        rw [hn, Nat.zero_add, packLogs_of_nRecords hn, List.nil_append]
        exact ih htail hr hfile hrest fuel
      · obtain ⟨r₁, hr₁, hfile₁, hlsid₁, hreads⟩ := hr.readPack hhead hn hfile
        rw [← hlsid₁] at hrest ⊢
        obtain ⟨r', hend, hall⟩ := ih htail hr₁ hfile₁ hrest fuel
        refine ⟨r', hend, fun data => ?_⟩
        rw [Nat.add_comm p.header.nRecords, ← Nat.add_assoc]
        exact hreads hall data

end

namespace WlogFileHeader

variable {h : WlogFileHeader} {i v : Nat}

theorem widths_sum_le : 0 + widths.sum ≤ h.data.length := by
  rw [h.length_data]
  decide

theorem field_set (hi : i < widths.length) (j : Nat) :
    (h.set i v).field j = if j = i then v % 256 ^ widths[i] else h.field j :=
  getD_fields_setField hi widths_sum_le j

theorem field_updateChecksum {j : Nat} (hj : j ≠ 4) : h.updateChecksum.field j = h.field j := by
  rw [updateChecksum, field_set (by decide), if_neg hj, field_set (by decide), if_neg hj]

theorem isValid_updateChecksum (hv : h.isValid false = true) : h.updateChecksum.isValid true = true := by
  have hsum : calcChecksum h.updateChecksum.data 0 = 0 :=
    Checksum.calcChecksum_setField (by decide) rfl (by decide) (by rw [h.length_data]; decide)
  rw [isValid, sectorType, version, beginLsid, endLsid, Bool.not_false, Bool.true_or, Bool.and_true]
    at hv
  rw [isValid, sectorType, version, beginLsid, endLsid, field_updateChecksum (by decide),
    field_updateChecksum (by decide),
    field_updateChecksum (by decide), field_updateChecksum (by decide), hv, hsum]
  rfl

theorem readFrom_data (hv : h.isValid true = true) (rest : Bytes) :
    readFrom (h.data ++ rest) = .ok (h, rest) := by
  obtain ⟨data, hlen⟩ := h
  have htake : (data ++ rest).take WALBLOG_HEADER_SIZE = data := List.take_left' hlen
  have hdrop : (data ++ rest).drop WALBLOG_HEADER_SIZE = rest := List.drop_left' hlen
  simp only [readFrom, htake, hdrop, hlen, dif_pos, hv, if_true]

end WlogFileHeader

section

variable {pbs salt : Nat} {fileH : WlogFileHeader} {packs : List (Bool × Pack)}

def started (fileH : WlogFileHeader) (file : Bytes) : WlogReader where
  fileR := file
  isReadHeader := true
  pbs := fileH.pbs
  salt := fileH.salt
  isBegun := false
  isEnd := false
  packH := ⟨fileH.pbs, fileH.salt, List.replicate fileH.pbs 0, List.length_replicate⟩
  recIdx := 0
  endLsid := fileH.beginLsid

theorem readHeader_eq (hv : fileH.isValid true = true) (file : Bytes) :
    (WlogReader.new (fileH.data ++ file)).readHeader = .ok (fileH, started fileH file) := by
  have hread : WlogFileHeader.readFrom (WlogReader.new (fileH.data ++ file)).fileR = .ok (fileH, file) :=
    WlogFileHeader.readFrom_data hv file
  rw [WlogReader.readHeader, if_neg (by exact Bool.false_ne_true), hread]
  rfl

/-- The file holds the header, which is read back, the packs and the end block. -/
theorem writeAll_eq (hb : BlockSize pbs) (hv : fileH.isValid false = true) (hpbs : fileH.pbs = pbs)
    (hsalt : fileH.salt = salt)
    (hp : ∀ p ∈ packs, Whole pbs salt p.2) (hc : Contiguous fileH.beginLsid (packs.map Prod.snd)) :
    ∃ w, WlogWriter.writeAll fileH packs = .ok (fileH.updateChecksum, w) ∧
      (WlogReader.new w.fileW).readHeader = .ok (fileH.updateChecksum,
        started fileH.updateChecksum (packsBytes (packs.map Prod.snd) ++ (endHeader pbs salt).block)) ∧
      w.lsid = endLsidOf fileH.beginLsid (packs.map Prod.snd) := by
  have hpbs' : fileH.updateChecksum.pbs = pbs :=
    (WlogFileHeader.field_updateChecksum (by decide)).trans hpbs
  have hsalt' : fileH.updateChecksum.salt = salt :=
    (WlogFileHeader.field_updateChecksum (by decide)).trans hsalt
  have hlsid' : fileH.updateChecksum.beginLsid = fileH.beginLsid :=
    WlogFileHeader.field_updateChecksum (by decide)
  have hhead : WlogWriter.new.writeHeader fileH = .ok (fileH.updateChecksum,
      ⟨fileH.updateChecksum.data, true, false, pbs, salt, fileH.beginLsid, fileH.beginLsid⟩) := by
    rw [WlogWriter.writeHeader, hv, ← hpbs', ← hsalt', ← hlsid']
    rfl
  have hpacks := writePacks_eq (w := ⟨fileH.updateChecksum.data, true, false, pbs, salt,
    fileH.beginLsid, fileH.beginLsid⟩)
    hb hp rfl rfl rfl hc
  refine ⟨⟨fileH.updateChecksum.data ++ (packsBytes (packs.map Prod.snd) ++
    (endHeader pbs salt).block), true, true, pbs, salt,
    fileH.beginLsid, endLsidOf fileH.beginLsid (packs.map Prod.snd)⟩, ?_,
    readHeader_eq (WlogFileHeader.isValid_updateChecksum hv) _, rfl⟩
  have hend : (LogPackHeader.updateChecksum (LogPackHeader.init pbs salt (2 ^ 64 - 1))).isValid =
    true := isValid_endHeader hb
  rw [WlogWriter.writeAll, hhead]
  simp only [bind, Except.bind, hpacks, WlogWriter.close, WlogWriter.writeEof, hend]
  simp only [Bool.not_false, Bool.and_self, if_true, Except.map, pure, Except.pure, endHeader,
    List.append_assoc]

theorem between_started {file : Bytes} : Between fileH.pbs fileH.salt (started fileH file) :=
  ⟨rfl, rfl, rfl, rfl, rfl⟩

/-- What was written is read back, with the lsid behind the last pack. -/
theorem reads_back (hb : BlockSize pbs) (hpbs : fileH.pbs = pbs) (hsalt : fileH.salt = salt)
    {packs : List Pack} (hp : ∀ p ∈ packs, p.Valid pbs salt) (hc : Contiguous fileH.beginLsid packs)
    (fuel : Nat) :
    ∃ r', r'.getEndLsid = .ok (endLsidOf fileH.beginLsid packs) ∧
      ∀ data, WlogReader.readLogs (fuel + 1 + recordCount packs) data
        (started fileH.updateChecksum (packsBytes packs ++ (endHeader pbs salt).block)) =
          .ok (packs.flatMap packLogs, r') := by
  have hpbs' : fileH.updateChecksum.pbs = pbs :=
    (WlogFileHeader.field_updateChecksum (by decide)).trans hpbs
  have hsalt' : fileH.updateChecksum.salt = salt :=
    (WlogFileHeader.field_updateChecksum (by decide)).trans hsalt
  have hlsid' : fileH.updateChecksum.beginLsid = fileH.beginLsid :=
    WlogFileHeader.field_updateChecksum (by decide)
  have hbetween : Between pbs salt (started fileH.updateChecksum
      (packsBytes packs ++ (endHeader pbs salt).block)) :=
    hpbs' ▸ hsalt' ▸ between_started
  have hlsid : (started fileH.updateChecksum (packsBytes packs ++
    (endHeader pbs salt).block)).endLsid = fileH.beginLsid := hlsid'
  have hreads := hbetween.readPacks hb hp rfl (hlsid ▸ hc) fuel
  rwa [hlsid] at hreads

/-- What is written is read back, up to packs without records, which are not stored. -/
theorem wlog_file_reads_back (hb : BlockSize pbs) (hv : fileH.isValid false = true)
    (hpbs : fileH.pbs = pbs)
    (hsalt : fileH.salt = salt) (hp : ∀ p ∈ packs, Whole pbs salt p.2)
    (hc : Contiguous fileH.beginLsid (packs.map Prod.snd)) :
    ∃ fileH' w r, WlogWriter.writeAll fileH packs = .ok (fileH', w) ∧
      (WlogReader.new w.fileW).readHeader = .ok (fileH', r) ∧
      (∀ j, j ≠ 4 → fileH'.field j = fileH.field j) ∧ w.lsid =
      endLsidOf fileH.beginLsid (packs.map Prod.snd) ∧
      ∀ fuel, recordCount (packs.map Prod.snd) < fuel → ∃ r', r'.getEndLsid = .ok w.lsid ∧
        ∀ data, WlogReader.readLogs fuel data r = .ok ((packs.map Prod.snd).flatMap packLogs, r') := by
  obtain ⟨w, hwrite, hhead, hlsid⟩ := writeAll_eq hb hv hpbs hsalt hp hc
  have hvalid : ∀ p ∈ packs.map Prod.snd, p.Valid pbs salt :=
    List.forall_mem_map.2 fun p hmem => (hp p hmem).valid
  refine ⟨_, w, _, hwrite, hhead, fun j hj => WlogFileHeader.field_updateChecksum hj, hlsid,
    fun fuel hfuel => ?_⟩
  obtain ⟨n, rfl⟩ := Nat.exists_eq_add_of_lt hfuel
  obtain ⟨r', hend, hall⟩ := reads_back hb hpbs hsalt hvalid hc n
  refine ⟨r', hend.trans (congrArg _ hlsid.symm), fun data => ?_⟩
  rw [show recordCount (packs.map Prod.snd) + n + 1 = n + 1 + recordCount (packs.map Prod.snd) by omega]
  exact hall data

end

def smallFields : List (Nat × Nat) :=
  [(2, SECTOR_TYPE_WALBLOG_HEADER), (2, WALB_LOG_VERSION), (2, WALBLOG_HEADER_SIZE), (2, 0), (4, 0),
    (4, 0), (4, lbs), (4, 512),
    (16, 0), (8, 100), (8, 200)]

def smallHeader : WlogFileHeader where
  data := layout smallFields ++ List.replicate 4040 0
  length_data := by
    rw [List.length_append, length_layout, List.length_replicate]
    rfl

theorem field_smallHeader (i : Nat) : smallHeader.field i = (smallFields.map Prod.snd).getD i 0 := by
  have hfit : Fit smallFields := by
    simp only [Fit, smallFields, List.forall_mem_cons]
    exact ⟨by decide, by decide, by decide, by decide, by decide, by decide, by decide, by decide,
      by decide, by decide, by decide,
      fun f hf => absurd hf List.not_mem_nil⟩
  exact congrArg (fun l : List Nat => l.getD i 0) (fields_layout smallFields hfit
    (List.replicate 4040 0))

theorem isValid_smallHeader : smallHeader.isValid false = true := by
  rw [WlogFileHeader.isValid, WlogFileHeader.sectorType, WlogFileHeader.version,
    WlogFileHeader.beginLsid,
    WlogFileHeader.endLsid, field_smallHeader, field_smallHeader, field_smallHeader, field_smallHeader]
  decide

theorem exists_flushPack {pbs : Nat} (hb : BlockSize pbs) (salt lsid : Nat) (hlsid : lsid < 2 ^ 64 - 1) :
    ∃ p, Whole pbs salt p ∧ p.header.logpackLsid = lsid ∧ p.header.nRecords = 0 := by
  have hkept : Kept (LogPackHeader.init pbs salt lsid) := kept_init hb
  have hcontents : (LogPackHeader.init pbs salt lsid).contents =
      ⟨SECTOR_TYPE_LOGPACK, 0, lsid % 2 ^ 64, 0, []⟩ :=
    contents_init (size_le_pbs hb)
  rw [Nat.mod_eq_of_lt (by omega)] at hcontents
  obtain ⟨h, hpbs, hsalt, hkept, hcontents⟩ : ∃ h : LogPackHeader, h.pbs = pbs ∧ h.salt = salt ∧ Kept h ∧
      h.contents = ⟨SECTOR_TYPE_LOGPACK, 0, lsid, 0, []⟩ := ⟨_, rfl, rfl, hkept, hcontents⟩
  have hrecs : h.records = [] := congrArg Contents.records hcontents
  have hn : h.nRecords = 0 := nRecords_of_contents hcontents
  have hmod : h.logpackLsid = lsid := congrArg Contents.logpackLsid hcontents
  have htotal : h.totalIoSize = 0 := congrArg Contents.totalIoSize hcontents
  have hvalid := hkept.isValid
  rw [isValidNoChecksum] at hvalid
  refine ⟨⟨h, []⟩, ⟨⟨hpbs, hsalt, ?_, ?_, ?_⟩, ?_⟩, hmod, hn⟩
  · rw [LogPackHeader.isValid, hn, decide_eq_true rfl, Bool.true_or, Bool.and_true]
    exact hvalid
  · rw [isEnd, hmod, Bool.and_eq_false_iff]
    exact .inr (decide_eq_false (by omega))
  · rw [hrecs]
    exact .nil
  · rw [htotal, hrecs, dataPb_nil]

/-- A pack with a padding, written as a whole, and one without records behind it. -/
theorem wlog_file_reads_back_two : ∃ p : Pack, p.header.nRecords = 0 ∧
    ∃ fileH' w r, WlogWriter.writeAll smallHeader [(true, WlogNet.onePadding), (false, p)] =
    .ok (fileH', w) ∧
      (WlogReader.new w.fileW).readHeader = .ok (fileH', r) ∧
      (∀ j, j ≠ 4 → fileH'.field j = smallHeader.field j) ∧
      w.lsid = endLsidOf smallHeader.beginLsid [WlogNet.onePadding, p] ∧
      ∀ fuel, recordCount [WlogNet.onePadding, p] < fuel → ∃ r', r'.getEndLsid = .ok w.lsid ∧
        ∀ data, WlogReader.readLogs fuel data r = .ok ([WlogNet.onePadding, p].flatMap packLogs,
        r') := by
  obtain ⟨p, hwhole, hlsid, hn⟩ := exists_flushPack WlogNet.blockSize_lbs 0 102 (by omega)
  have hp : ∀ q ∈ [(true, WlogNet.onePadding), (false, p)], Whole 512 0 q.2 := by
    intro q hq
    rcases List.mem_pair.1 hq with rfl | rfl
    · exact ⟨WlogNet.onePadding_valid, by decide +kernel⟩
    · exact hwhole
  have hc : Contiguous smallHeader.beginLsid [WlogNet.onePadding, p] := by
    have hone : WlogNet.onePadding.header.logpackLsid = 100 := by decide +kernel
    have hnext : WlogNet.onePadding.header.nextLogpackLsid = 102 := by decide +kernel
    refine ⟨?_, hlsid.trans hnext.symm, trivial⟩
    rw [WlogFileHeader.beginLsid, field_smallHeader, hone]
    rfl
  exact ⟨p, hn, wlog_file_reads_back WlogNet.blockSize_lbs isValid_smallHeader (field_smallHeader 7)
    (field_smallHeader 5) hp hc⟩

/-- The header of a pack without records is not read back. -/
theorem not_wlog_file_reads_back : ¬ ∀ (pbs salt : Nat) (fileH : WlogFileHeader)
    (packs : List (Bool × Pack)), BlockSize pbs →
    fileH.isValid false = true → fileH.pbs = pbs → fileH.salt = salt →
    (∀ p ∈ packs, Whole pbs salt p.2) →
    Contiguous fileH.beginLsid (packs.map Prod.snd) → ∀ fileH' w r fuel data logs r',
      WlogWriter.writeAll fileH packs = .ok (fileH', w) →
      (WlogReader.new w.fileW).readHeader = .ok (fileH', r) →
      WlogReader.readLogs fuel data r = .ok (logs, r') → ∀ p ∈ packs, ∃ l ∈ logs,
      l.packH = p.2.header := by
  intro h
  obtain ⟨p, hwhole, hlsid, hn⟩ := exists_flushPack WlogNet.blockSize_lbs 0 100 (by omega)
  have hp : ∀ q ∈ [(true, p)], Whole 512 0 q.2 := List.forall_mem_singleton.2 hwhole
  have hc : Contiguous smallHeader.beginLsid [p] := by
    refine ⟨hlsid.trans ?_, trivial⟩
    rw [WlogFileHeader.beginLsid, field_smallHeader]
    rfl
  obtain ⟨w, hwrite, hhead, -⟩ :=
    writeAll_eq WlogNet.blockSize_lbs isValid_smallHeader (field_smallHeader 7)
    (field_smallHeader 5) hp hc
  obtain ⟨r', -, hall⟩ := reads_back WlogNet.blockSize_lbs (field_smallHeader 7) (field_smallHeader 5)
    (List.forall_mem_singleton.2 hwhole.valid) hc 0
  obtain ⟨l, hl, -⟩ :=
    h 512 0 smallHeader [(true, p)] WlogNet.blockSize_lbs isValid_smallHeader (field_smallHeader 7)
    (field_smallHeader 5) hp hc _ _ _ _ [] _ _ hwrite hhead (hall []) _ (List.mem_singleton_self _)
  rw [List.flatMap_singleton, packLogs_of_nRecords hn] at hl
  exact List.not_mem_nil hl

end WalbTools.WlogFile
