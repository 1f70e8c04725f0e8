import WalbTools.SortedReader

namespace WalbTools.SortedFile

open ByteMemory Layout Checksum DiffHeader DiffPack Compression
open DiffIo hiding DiffRecord
open SortedReader (DiffRecord)
open Queue (calcChecksum)

structure DiffPackHeader where
  records : List DiffRecord
  flags : Nat
  totalSize : Nat

namespace DiffPackHeader

def clear : DiffPackHeader := ⟨[], 0, 0⟩

def setEnd (p : DiffPackHeader) : DiffPackHeader :=
  { p with flags := p.flags ||| 2 ^ SortedReader.WALB_DIFF_PACK_END }

def canAdd (p : DiffPackHeader) (dataSize : Nat) : Bool :=
  DiffPack.canAdd p.records.length p.totalSize dataSize

def add (p : DiffPackHeader) (inRec : DiffRecord) : Option DiffPackHeader :=
  if p.canAdd inRec.dataSize then
    some { p with
      records := p.records ++ [{ inRec with dataOffset := p.totalSize }]
      totalSize := (p.totalSize + inRec.dataSize) % 2 ^ 32 }
  else none

def toBytes (p : DiffPackHeader) : Bytes :=
  sealed [] (layout [(2, p.records.length), (1, p.flags), (1, 0), (4, p.totalSize), (4, 0)] ++
    (p.records.flatMap DiffRecord.toBytes ++ List.replicate
    (WALB_DIFF_PACK_SIZE - 16 - DiffRecord.size * p.records.length) 0))

end DiffPackHeader

section

variable (Z : Codecs)

def compressDiffIo (inRec : DiffRecord) (inData : Bytes) (type level : Nat) : DiffRecord × Bytes :=
  let (type, outData) := compressData Z (inData.take (inRec.ioBlocks * lbs % 2 ^ 32)) type level
  ({ inRec with
    compressionType := type, dataSize := outData.length, checksum := calcDiffIoChecksum outData },
    outData)

def uncompressDiffIo (inRec : DiffRecord) (inData : Bytes) (calcChecksum : Bool) :
    Except String (DiffRecord × Bytes) :=
  let size := inRec.ioBlocks * lbs % 2 ^ 32
  match uncompressData Z (inData.take inRec.dataSize) size inRec.compressionType with
  | .error e => .error e
  | .ok outData =>
      .ok ({ inRec with
        dataSize := size, compressionType := WALB_DIFF_CMPR_NONE
        checksum := if calcChecksum then calcDiffIoChecksum outData else 0 }, outData)

end

structure SortedDiffWriter where
  fileW : Bytes
  isWrittenHeader : Bool
  isClosed : Bool
  pack : DiffPackHeader
  ioQ : List Bytes

namespace SortedDiffWriter

def setFile : SortedDiffWriter := ⟨[], false, false, .clear, []⟩

def writeHeader (header : DiffFileHeader) (w : SortedDiffWriter) :
    Except String (DiffFileHeader × SortedDiffWriter) :=
  if w.isWrittenHeader then .error "Do not call writeHeader() more than once."
  else
    let header := { header with type := WALB_DIFF_TYPE_SORTED }
    .ok (header, { w with fileW := w.fileW ++ header.toBytes, isWrittenHeader := true })

def addAndPush (rec : DiffRecord) (buf : Bytes) (w : SortedDiffWriter) : Option SortedDiffWriter :=
  (w.pack.add rec).map fun pack => { w with pack := pack, ioQ := w.ioQ ++ [buf] }

def writePack (w : SortedDiffWriter) : SortedDiffWriter :=
  if w.pack.records = [] then w
  else { w with fileW := w.fileW ++ (w.pack.toBytes ++ w.ioQ.flatten), pack := .clear, ioQ := [] }

def writeDiffBuf (rec : DiffRecord) (buf : Bytes) (w : SortedDiffWriter) :
    Except String SortedDiffWriter :=
  if !w.isWrittenHeader then .error "Call writeHeader() before calling writeDiff()."
  else
    match w.addAndPush rec buf with
    | some w => .ok w
    | none => .ok ((w.writePack.addAndPush rec buf).getD w.writePack)

def writeDiff (rec : DiffRecord) (data : Bytes) (w : SortedDiffWriter) :
    Except String SortedDiffWriter :=
  w.writeDiffBuf rec (if rec.isNormal then data.take rec.dataSize else [])

def compressAndWriteDiff (Z : Codecs) (rec : DiffRecord) (data : Bytes) (type level : Nat)
    (w : SortedDiffWriter) :
    Except String SortedDiffWriter :=
  if rec.isCompressed then w.writeDiff rec data
  else if !rec.isNormal then w.writeDiffBuf rec []
  else
    let (compRec, buf) := compressDiffIo Z rec data type level
    w.writeDiffBuf compRec buf

def writeEof (w : SortedDiffWriter) : SortedDiffWriter :=
  { w with fileW := w.fileW ++ DiffPackHeader.clear.setEnd.toBytes }

def close (w : SortedDiffWriter) : SortedDiffWriter :=
  if w.isClosed then w else { w.writePack.writeEof with isClosed := true }

end SortedDiffWriter

/-- `fileR` holds the bytes from the position of the file on; without a pack the reader is at
its end. -/
structure SortedDiffReader where
  fileR : Bytes
  isReadHeader : Bool
  pack : Option SortedReader.DiffPackHeader
  recIdx : Nat
  totalSize : Nat

/-- The record at a place of a block, unless it goes beyond the block. -/
def recordAt (pack : SortedReader.DiffPackHeader) (i : Nat) : Option DiffRecord :=
  if 16 + DiffRecord.size * (i + 1) ≤ pack.raw.length then some (pack.record i) else none

/-- A header that counts no records is read on without looking at the count, behind its block
at last; no exception stops that. -/
inductive ReadFailure where
  | exception (msg : String)
  | outOfBounds
  deriving DecidableEq

namespace SortedDiffReader

def setFile (file : Bytes) : SortedDiffReader :=
  ⟨file, false, some ⟨List.replicate WALB_DIFF_PACK_SIZE 0⟩, 0, 0⟩

def readPackHeader (r : SortedDiffReader) : Except String (Bool × SortedDiffReader) :=
  if r.fileR.length < WALB_DIFF_PACK_SIZE then .ok (false, { r with fileR := [], pack := none })
  else
    let pack : SortedReader.DiffPackHeader := ⟨r.fileR.take WALB_DIFF_PACK_SIZE⟩
    let fileR := r.fileR.drop WALB_DIFF_PACK_SIZE
    match pack.verify with
    | .error e => .error e
    | .ok () =>
        if pack.isEnd then .ok (false, { r with fileR := fileR, pack := none })
        else .ok (true, { r with fileR := fileR, pack := some pack, recIdx := 0, totalSize := 0 })

/-- A header of another type passes: the exception for it is not thrown. -/
def readHeader (r : SortedDiffReader) : Except String (DiffFileHeader × SortedDiffReader) :=
  if r.isReadHeader then .error "Do not call readHeader() more than once."
  else
    match DiffFileHeader.readFrom r.fileR with
    | .error e => .error e
    | .ok (head, fileR) =>
        match readPackHeader { r with fileR := fileR, isReadHeader := true } with
        | .error e => .error e
        | .ok (_, r) => .ok (head, r)

def prepareRead (r : SortedDiffReader) : Except String (Bool × SortedDiffReader) :=
  match r.pack with
  | none => .ok (false, r)
  | some pack => if r.recIdx = pack.nRecords then r.readPackHeader else .ok (true, r)

def readDiffIo (rec : DiffRecord) (r : SortedDiffReader) : Except String (Bytes × SortedDiffReader) :=
  let r' := { r with
    totalSize := (r.totalSize + rec.dataSize) % 2 ^ 32, recIdx := (r.recIdx + 1) % 2 ^ 16 }
  if rec.dataOffset ≠ r.totalSize then .error "data offset invalid"
  else if rec.isNormal then
    if r.fileR.length < rec.dataSize then .error "EofError"
    else if rec.checksum ≠ calcDiffIoChecksum (r.fileR.take rec.dataSize) then .error "checksum differ"
    else .ok (r.fileR.take rec.dataSize, { r' with fileR := r.fileR.drop rec.dataSize })
  else .ok ([], r')

def readDiff (r : SortedDiffReader) : Except ReadFailure
    (Option (DiffRecord × Bytes) × SortedDiffReader) :=
  match r.prepareRead with
  | .error e => .error (.exception e)
  | .ok (false, r) => .ok (none, r)
  | .ok (true, r) =>
      match r.pack.bind fun pack => recordAt pack r.recIdx with
      | none => .error .outOfBounds
      | some inRec =>
          match inRec.verify with
          | .error e => .error (.exception e)
          | .ok () =>
              match r.readDiffIo inRec with
              | .error e => .error (.exception e)
              | .ok (buf, r) => .ok (some (inRec, buf), r)

section

variable (Z : Codecs) (calcChecksum : Bool)

/-- What `readAndUncompressDiff` makes of a record that was read. -/
def uncompressed (rec : DiffRecord) (buf : Bytes) : Except String (DiffRecord × Bytes) :=
  if !rec.isNormal || !rec.isCompressed then .ok (rec, buf) else uncompressDiffIo Z rec buf calcChecksum

def readAndUncompressDiff (r : SortedDiffReader) :
    Except ReadFailure (Option (DiffRecord × Bytes) × SortedDiffReader) :=
  match r.readDiff with
  | .error e => .error e
  | .ok (none, r) => .ok (none, r)
  | .ok (some (rec, buf), r) =>
      match uncompressed Z calcChecksum rec buf with
      | .error e => .error (.exception e)
      | .ok out => .ok (some out, r)

/-- The calls of a caller: what it gets, and whether the end was reached or something thrown. -/
def readLoop : Nat → SortedDiffReader → List (DiffRecord × Bytes) × Except ReadFailure Unit
  | 0, _ => ([], .error (.exception "out of fuel"))
  | fuel + 1, r =>
      match r.readAndUncompressDiff Z calcChecksum with
      | .error e => ([], .error e)
      | .ok (none, _) => ([], .ok ())
      | .ok (some out, r) => (out :: (readLoop fuel r).1, (readLoop fuel r).2)

def readAll (file : Bytes) : List (DiffRecord × Bytes) × Except ReadFailure Unit :=
  match (setFile file).readHeader with
  | .error e => ([], .error (.exception e))
  | .ok (_, r) => readLoop Z calcChecksum (file.length + 1) r

end

end SortedDiffReader

inductive Call where
  | writeDiff (inRec : DiffRecord) (data : Bytes)
  | compressAndWriteDiff (inRec : DiffRecord) (data : Bytes) (type level : Nat)

namespace Call

variable (Z : Codecs)

def run : Call → SortedDiffWriter → Except String SortedDiffWriter
  | writeDiff inRec data, w => w.writeDiff inRec data
  | compressAndWriteDiff inRec data type level, w => w.compressAndWriteDiff Z inRec data type level

def stored : Call → DiffRecord × Bytes
  | writeDiff inRec data => (inRec, if inRec.isNormal then data.take inRec.dataSize else [])
  | compressAndWriteDiff inRec data type level =>
      if inRec.isNormal && !inRec.isCompressed then compressDiffIo Z inRec data type level
      else (inRec, if inRec.isNormal then data.take inRec.dataSize else [])

def io : Call → Except String (DiffRecord × Bytes)
  | writeDiff inRec data =>
      SortedDiffReader.uncompressed Z true inRec (if inRec.isNormal then data.take inRec.dataSize
        else [])
  | compressAndWriteDiff inRec data _ _ =>
      if inRec.isNormal && !inRec.isCompressed then
        let d := data.take (inRec.ioBlocks * lbs)
        .ok ({ inRec with dataSize := d.length, checksum := calcDiffIoChecksum d }, d)
      else SortedDiffReader.uncompressed Z true inRec (if inRec.isNormal then data.take
        inRec.dataSize else [])

end Call

def writeFile (Z : Codecs) (header : DiffFileHeader) (calls : List Call) : Except String Bytes := do
  let (_, w) ← SortedDiffWriter.setFile.writeHeader header
  let w ← calls.foldlM (fun w c => c.run Z w) w
  return w.close.fileW

theorem record_eq_of_recordAt {pack : SortedReader.DiffPackHeader} {i : Nat} {r : DiffRecord}
    (h : recordAt pack i = some r) :
    pack.record i = r := by
  rw [recordAt] at h
  split_ifs at h
  exact Option.some.inj h

theorem drop_records {rs : List DiffRecord} {i : Nat} (hi : i < rs.length) :
    (rs.flatMap DiffRecord.toBytes).drop (DiffRecord.size * i) = rs[i].toBytes ++
      (rs.drop (i + 1)).flatMap DiffRecord.toBytes := by
  induction rs generalizing i with
  | nil => cases hi
  | cons r rs ih =>
      have hlen := r.length_toBytes
      cases i with
      | zero => rfl
      | succ i =>
          rw [List.flatMap_cons, Nat.mul_succ, Nat.add_comm, ← List.drop_drop, List.drop_left' hlen]
          exact ih (Nat.lt_of_succ_lt_succ hi)

theorem length_records (rs : List DiffRecord) :
    (rs.flatMap DiffRecord.toBytes).length = DiffRecord.size * rs.length := by
  induction rs with
  | nil => rfl
  | cons r rs ih =>
      rw [List.flatMap_cons, List.length_append, r.length_toBytes, ih, List.length_cons,
        Nat.mul_succ, Nat.add_comm]

namespace DiffPackHeader

/-- What a header in memory keeps: there is a place for each record, and the fields have their
widths. -/
structure Fits (p : DiffPackHeader) : Prop where
  records : p.records.length ≤ MAX_N_RECORDS_IN_WALB_DIFF_PACK
  flags : p.flags < 2 ^ 8
  totalSize : p.totalSize < 2 ^ 32
  fits : ∀ r, r ∈ p.records → r.Fits

variable {p : DiffPackHeader}

theorem toBytes_eq (p : DiffPackHeader) : ∃ c, c < 256 ^ 4 ∧
    p.toBytes = layout [(4, c), (2, p.records.length), (1, p.flags), (1, 0), (4, p.totalSize), (4, 0)] ++
      (p.records.flatMap DiffRecord.toBytes ++ List.replicate
      (WALB_DIFF_PACK_SIZE - 16 - DiffRecord.size * p.records.length) 0) := by
  generalize hpad : List.replicate (WALB_DIFF_PACK_SIZE - 16 - DiffRecord.size * p.records.length)
    (0 : UInt8) = pad
  generalize hc : calcChecksum (([] : Bytes) ++ toLE 4 0 ++
    (layout [(2, p.records.length), (1, p.flags), (1, 0), (4, p.totalSize), (4, 0)] ++
    (p.records.flatMap DiffRecord.toBytes ++ pad))) 0 = c
  refine ⟨c, hc ▸ Queue.QueueFile.calcChecksum_lt _ _, ?_⟩
  rw [toBytes, hpad, sealed, hc, layout_cons (4, c), List.nil_append, ← List.append_assoc]

theorem length_toBytes (h : p.Fits) : p.toBytes.length = WALB_DIFF_PACK_SIZE := by
  have hn := h.records
  obtain ⟨c, -, hbytes⟩ := p.toBytes_eq
  rw [hbytes, List.length_append, length_layout, List.length_append, length_records,
    List.length_replicate]
  simp only [List.map_cons, List.map_nil, List.sum_cons, List.sum_nil, WALB_DIFF_PACK_SIZE,
    DiffRecord.size,
    MAX_N_RECORDS_IN_WALB_DIFF_PACK] at hn ⊢
  omega

theorem fields_toBytes (h : p.Fits) : ∃ c, fields [4, 2, 1, 1, 4, 4] p.toBytes =
    [c, p.records.length, p.flags, 0, p.totalSize, 0] := by
  obtain ⟨c, hc, hbytes⟩ := p.toBytes_eq
  have hn := h.records
  have hfit : Fit [(4, c), (2, p.records.length), (1, p.flags), (1, 0), (4, p.totalSize), (4, 0)] := by
    simp only [Fit, List.forall_mem_cons]
    refine ⟨hc, ?_, h.flags, by decide, h.totalSize, by decide, fun _ hf => absurd hf List.not_mem_nil⟩
    simp only [MAX_N_RECORDS_IN_WALB_DIFF_PACK, WALB_DIFF_PACK_SIZE] at hn
    omega
  exact ⟨c, by rw [hbytes]; exact fields_layout _ hfit _⟩

theorem nRecords_toBytes (h : p.Fits) : (SortedReader.DiffPackHeader.mk p.toBytes).nRecords =
    p.records.length := by
  obtain ⟨c, hfields⟩ := fields_toBytes h
  simp only [fields, List.cons.injEq] at hfields
  exact hfields.2.1

theorem flags_toBytes (h : p.Fits) : (SortedReader.DiffPackHeader.mk p.toBytes).flags = p.flags := by
  obtain ⟨c, hfields⟩ := fields_toBytes h
  simp only [fields, List.cons.injEq] at hfields
  exact hfields.2.2.1

theorem recordAt_toBytes (h : p.Fits) {i : Nat} (hi : i < p.records.length) :
    recordAt ⟨p.toBytes⟩ i = some p.records[i] := by
  obtain ⟨c, -, hbytes⟩ := p.toBytes_eq
  have hle : DiffRecord.size * i ≤ (p.records.flatMap DiffRecord.toBytes).length := by
    rw [length_records]
    exact Nat.mul_le_mul_left _ hi.le
  have hhead : (layout [(4, c), (2, p.records.length), (1, p.flags), (1, 0), (4, p.totalSize),
    (4, 0)]).length = 16 := length_layout
  have hdrop : ∃ rest, p.toBytes.drop (16 + DiffRecord.size * i) = p.records[i].toBytes ++ rest := by
    rw [hbytes, ← List.drop_drop, List.drop_left' hhead, List.drop_append_of_le_length hle,
      drop_records hi, List.append_assoc]
    exact ⟨_, rfl⟩
  obtain ⟨rest, hdrop⟩ := hdrop
  have hinside : 16 + DiffRecord.size * (i + 1) ≤ p.toBytes.length := by
    have hcount := h.records
    rw [length_toBytes h]
    simp only [DiffRecord.size, WALB_DIFF_PACK_SIZE, MAX_N_RECORDS_IN_WALB_DIFF_PACK] at hcount ⊢
    omega
  rw [recordAt, if_pos hinside, SortedReader.DiffPackHeader.record, hdrop,
    DiffRecord.ofBytes_toBytes (h.fits _ (List.getElem_mem hi))]

theorem verify_toBytes (h : p.Fits) (hv : ∀ r, r ∈ p.records → r.verify = .ok ()) :
    (SortedReader.DiffPackHeader.mk p.toBytes).verify = .ok () := by
  have hsum : calcChecksum p.toBytes 0 = 0 := calcChecksum_sealed rfl
  rw [SortedReader.DiffPackHeader.verify, if_neg (not_not.2 hsum), nRecords_toBytes h,
    if_neg (not_lt.2 h.records)]
  have hall : ∀ is : List Nat, (∀ i, i ∈ is → i < p.records.length) →
      is.forM (fun i => ((SortedReader.DiffPackHeader.mk p.toBytes).record i).verify) = .ok () := by
    intro is his
    induction is with
    | nil => rfl
    | cons i is ih =>
        have hi := his i List.mem_cons_self
        have hrec : ((SortedReader.DiffPackHeader.mk p.toBytes).record i).verify = .ok () := by
          rw [record_eq_of_recordAt (recordAt_toBytes h hi)]
          exact hv _ (List.getElem_mem hi)
        rw [List.forM_eq_forM, List.forM_cons, hrec]
        exact ih fun j hj => his j (List.mem_cons_of_mem i hj)
  exact hall _ fun i hi => List.mem_range.1 hi

end DiffPackHeader

abbrev Item : Type := DiffRecord × Bytes

/-- The fields have the widths of a block's, and the data is what the record says. -/
structure Ready (r : DiffRecord) (buf : Bytes) : Prop where
  fits : r.Fits
  verify : r.verify = .ok ()
  dataSize : r.dataSize = buf.length
  checksum : r.isNormal = true → r.checksum = calcDiffIoChecksum buf
  empty : r.isNormal = false → buf = []

structure Compressible (r : DiffRecord) (data : Bytes) (type : Nat) : Prop where
  fits : r.Fits
  verify : r.verify = .ok ()
  size : r.ioBlocks * lbs < 2 ^ 32
  data : r.ioBlocks * lbs ≤ data.length
  type : type < WALB_DIFF_CMPR_MAX

/-- What the writer promises nothing without. -/
def Call.Valid : Call → Prop
  | writeDiff inRec data => Ready inRec (if inRec.isNormal then data.take inRec.dataSize else [])
  | compressAndWriteDiff inRec data type _ =>
      if inRec.isNormal && !inRec.isCompressed then Compressible inRec data type
      else Ready inRec (if inRec.isNormal then data.take inRec.dataSize else [])

def forget (x : Item) : Item := ({ x.1 with dataOffset := 0 }, x.2)

def totalOf (off : Nat) (items : List Item) : Nat :=
  items.foldl (fun off x => (off + x.1.dataSize) % 2 ^ 32) off

def place : Nat → List Item → List DiffRecord
  | _, [] => []
  | off, x :: items => { x.1 with dataOffset := off } :: place ((off + x.1.dataSize) % 2 ^ 32) items

def packOf (items : List Item) : DiffPackHeader := ⟨place 0 items, 0, totalOf 0 items⟩

def chunkBytes (items : List Item) : Bytes := (packOf items).toBytes ++ (items.map Prod.snd).flatten

def eofBytes : Bytes := DiffPackHeader.clear.setEnd.toBytes

structure Chunk (items : List Item) : Prop where
  length : items.length ≤ MAX_N_RECORDS_IN_WALB_DIFF_PACK
  ready : ∀ x, x ∈ items → Ready x.1 x.2

structure Wrote (head : Bytes) (items : List Item) (w : SortedDiffWriter) : Prop where
  isWrittenHeader : w.isWrittenHeader = true
  isClosed : w.isClosed = false
  parts : ∃ (chunks : List (List Item)) (buffered : List Item), items = chunks.flatten ++ buffered ∧
    w.fileW = head ++ chunks.flatMap chunkBytes ∧
    w.pack = packOf buffered ∧ w.ioQ = buffered.map Prod.snd ∧ Chunk buffered ∧ ∀ c, c ∈ chunks →
    c ≠ [] ∧ Chunk c

variable {Z : Codecs} {items buffered : List Item} {x : Item} {head : Bytes} {w : SortedDiffWriter}

theorem totalOf_append (off : Nat) (as bs : List Item) :
    totalOf off (as ++ bs) = totalOf (totalOf off as) bs :=
  List.foldl_append

theorem place_append (off : Nat) (as bs : List Item) :
    place off (as ++ bs) = place off as ++ place (totalOf off as) bs := by
  induction as generalizing off with
  | nil => rfl
  | cons a as ih =>
      rw [List.cons_append, place, place, ih, List.cons_append, totalOf, totalOf, List.foldl_cons]

theorem length_place (off : Nat) (items : List Item) : (place off items).length = items.length := by
  induction items generalizing off with
  | nil => rfl
  | cons x items ih => rw [place, List.length_cons, ih, List.length_cons]

theorem totalOf_lt {off : Nat} (hoff : off < 2 ^ 32) (items : List Item) :
    totalOf off items < 2 ^ 32 := by
  induction items generalizing off with
  | nil => exact hoff
  | cons x items ih => exact ih (Nat.mod_lt _ (by decide))

theorem mem_place {off : Nat} (hoff : off < 2 ^ 32) {r : DiffRecord} (hr : r ∈ place off items) :
    ∃ x o, x ∈ items ∧ o < 2 ^ 32 ∧ r = { x.1 with dataOffset := o } := by
  induction items generalizing off with
  | nil => cases hr
  | cons x items ih =>
      rcases List.mem_cons.1 hr with rfl | hr
      · exact ⟨x, off, List.mem_cons_self, hoff, rfl⟩
      · obtain ⟨x', o, hx', ho, rfl⟩ := ih (Nat.mod_lt _ (by decide)) hr
        exact ⟨x', o, List.mem_cons_of_mem x hx', ho, rfl⟩

theorem Chunk.fits (h : Chunk items) : (packOf items).Fits where
  records := by
    rw [packOf, length_place]
    exact h.length
  flags := show 0 < 2 ^ 8 by decide
  totalSize := totalOf_lt (by decide) items
  fits r hr := by
    obtain ⟨x, o, hx, ho, rfl⟩ := mem_place (by decide) hr
    have hfits := (h.ready x hx).fits
    exact ⟨hfits.ioAddress, hfits.ioBlocks, hfits.flags, hfits.compressionType, ho, hfits.dataSize,
      hfits.checksum⟩

theorem Chunk.verify (h : Chunk items) : ∀ r, r ∈ (packOf items).records → r.verify = .ok () := by
  intro r hr
  obtain ⟨x, o, hx, -, rfl⟩ := mem_place (by decide) hr
  exact (h.ready x hx).verify

theorem packOf_add (x : Item) (h : (packOf items).canAdd x.1.dataSize = true) :
    (packOf items).add x.1 = some (packOf (items ++ [x])) := by
  rw [DiffPackHeader.add, if_pos h, packOf, packOf, place_append, totalOf_append]
  rfl

theorem canAdd_length (h : (packOf items).canAdd x.1.dataSize = true) :
    items.length < MAX_N_RECORDS_IN_WALB_DIFF_PACK := by
  rw [DiffPackHeader.canAdd, DiffPack.canAdd] at h
  split_ifs at h with hlen
  rw [packOf, length_place] at hlen
  exact not_le.1 hlen

theorem Wrote.writePack (h : Wrote head items w) :
    ∃ chunks : List (List Item), items = chunks.flatten ∧
      w.writePack.fileW = head ++ chunks.flatMap chunkBytes ∧
    w.writePack.pack = packOf [] ∧ w.writePack.ioQ = [] ∧ w.writePack.isWrittenHeader = true ∧
    w.writePack.isClosed = false ∧
      ∀ c, c ∈ chunks → c ≠ [] ∧ Chunk c := by
  obtain ⟨chunks, buffered, hitems, hfile, hpack, hioQ, hbuf, hchunks⟩ := h.parts
  cases buffered with
  | nil =>
      refine ⟨chunks, by rw [hitems, List.append_nil], ?_⟩
      rw [SortedDiffWriter.writePack, if_pos (by rw [hpack]; rfl)]
      exact ⟨hfile, hpack, hioQ, h.isWrittenHeader, h.isClosed, hchunks⟩
  | cons x buffered =>
      refine ⟨chunks ++ [x :: buffered], by rw [hitems, List.flatten_concat], ?_⟩
      rw [SortedDiffWriter.writePack, if_neg (by rw [hpack]; exact List.cons_ne_nil _ _)]
      refine ⟨?_, rfl, rfl, h.isWrittenHeader, h.isClosed, ?_⟩
      · rw [hfile, hpack, hioQ, List.flatMap_append, List.flatMap_singleton, List.append_assoc]
        rfl
      · intro c hc
        rcases List.mem_append.1 hc with hc | hc
        · exact hchunks c hc
        · rw [List.mem_singleton.1 hc]
          exact ⟨List.cons_ne_nil _ _, hbuf⟩

theorem chunk_concat (h : Chunk items) (hx : Ready x.1 x.2)
    (hlen : items.length < MAX_N_RECORDS_IN_WALB_DIFF_PACK) : Chunk (items ++ [x]) where
  length := by rw [List.length_append, List.length_singleton]; exact hlen
  ready y hy := by
    rcases List.mem_append.1 hy with hy | hy
    · exact h.ready y hy
    · rw [List.mem_singleton.1 hy]
      exact hx

theorem chunk_nil : Chunk [] := ⟨Nat.zero_le _, fun _ hx => absurd hx List.not_mem_nil⟩

/-- A pack that has no place left is written, and the record is the first of the next. -/
theorem Wrote.writeDiffBuf (h : Wrote head items w) (hx : Ready x.1 x.2) :
    ∃ w', w.writeDiffBuf x.1 x.2 = .ok w' ∧ Wrote head (items ++ [x]) w' := by
  obtain ⟨chunks, buffered, hitems, hfile, hpack, hioQ, hbuf, hchunks⟩ := h.parts
  rw [SortedDiffWriter.writeDiffBuf, if_neg (by rw [h.isWrittenHeader]; decide),
    SortedDiffWriter.addAndPush, hpack]
  by_cases hcan : (packOf buffered).canAdd x.1.dataSize = true
  · rw [packOf_add x hcan]
    refine ⟨_, rfl, h.isWrittenHeader, h.isClosed, chunks, buffered ++ [x], ?_, hfile, rfl, ?_, ?_,
      hchunks⟩
    · rw [hitems, List.append_assoc]
    · rw [hioQ, List.map_append]
      rfl
    · exact chunk_concat hbuf hx (canAdd_length hcan)
  · obtain ⟨chunks', hitems', hfile', hpack', hioQ', hheader, hclosed, hchunks'⟩ := h.writePack
    have hadd := @packOf_add [] x rfl
    rw [DiffPackHeader.add, if_neg hcan, SortedDiffWriter.addAndPush, hpack', hadd]
    refine ⟨_, rfl, hheader, hclosed, chunks', [x], ?_, hfile', rfl, ?_,
      chunk_concat chunk_nil hx (by decide), hchunks'⟩
    · rw [← hitems']
    · rw [Option.map_some, Option.getD_some, hioQ']
      rfl

theorem calcDiffIoChecksum_lt (d : Bytes) : calcDiffIoChecksum d < 2 ^ 32 := by
  rw [calcDiffIoChecksum]
  split_ifs
  · decide
  · exact Queue.QueueFile.calcChecksum_lt _ _

theorem run_eq (c : Call) (w : SortedDiffWriter) :
    c.run Z w = w.writeDiffBuf (c.stored Z).1 (c.stored Z).2 := by
  cases c with
  | writeDiff inRec data => rfl
  | compressAndWriteDiff inRec data type level =>
      rw [Call.run, SortedDiffWriter.compressAndWriteDiff, Call.stored]
      cases hc : inRec.isCompressed <;> cases hn : inRec.isNormal <;>
        simp [SortedDiffWriter.writeDiff, hn]

theorem verify_iff {r : DiffRecord} (hn : r.isNormal = true) :
    r.verify = .ok () ↔ r.compressionType < WALB_DIFF_CMPR_MAX ∧ r.ioBlocks ≠ 0 := by
  rw [DiffRecord.verify, hn, if_neg (by decide)]
  split_ifs with ht hb
  · exact iff_of_false (by simp) fun h => absurd h.1 (not_lt.2 ht)
  · exact iff_of_false (by simp) fun h => h.2 hb
  · exact iff_of_true rfl ⟨not_le.1 ht, hb⟩

/-- What `compressDiffIo` makes of a record with its data is ready for a pack, and the reader
gets the data from it. -/
theorem compressDiffIo_spec (hZ : Z.Lawful) {r : DiffRecord} {data : Bytes} {type : Nat}
    (level : Nat) (h : Compressible r data type)
    (hn : r.isNormal = true) (hc : r.isCompressed = false) :
    Ready (compressDiffIo Z r data type level).1 (compressDiffIo Z r data type level).2 ∧
      SortedDiffReader.uncompressed Z true (compressDiffIo Z r data type level).1
      (compressDiffIo Z r data type level).2 =
        .ok ({ r with
          dataSize := (data.take (r.ioBlocks * lbs)).length,
          checksum := calcDiffIoChecksum (data.take (r.ioBlocks * lbs)) },
          data.take (r.ioBlocks * lbs)) := by
  have hmod : r.ioBlocks * lbs % 2 ^ 32 = r.ioBlocks * lbs := Nat.mod_eq_of_lt h.size
  have hlen : (data.take (r.ioBlocks * lbs)).length = r.ioBlocks * lbs := List.length_take_of_le h.data
  have hspec := compressData_spec hZ (data.take (r.ioBlocks * lbs)) type level
  rw [compressDiffIo, hmod]
  generalize data.take (r.ioBlocks * lbs) = d at hlen hspec
  generalize compressData Z d type level = out at hspec
  obtain ⟨t, out⟩ := out
  obtain ⟨htype, hle, hpos, huncompress⟩ := hspec
  dsimp only at htype hle hpos huncompress ⊢
  have hnone : r.compressionType = WALB_DIFF_CMPR_NONE := by simpa [DiffRecord.isCompressed] using hc
  have htlt : t < WALB_DIFF_CMPR_MAX := by
    rcases htype with rfl | rfl
    · exact h.type
    · decide
  have hblocks : r.ioBlocks ≠ 0 := ((verify_iff hn).1 h.verify).2
  refine ⟨⟨⟨h.fits.ioAddress, h.fits.ioBlocks, h.fits.flags, lt_trans htlt (by decide),
    h.fits.dataOffset, ?_, calcDiffIoChecksum_lt out⟩,
    ?_, rfl, fun _ => rfl, fun hn' => absurd (hn'.symm.trans hn) (by decide)⟩, ?_⟩
  · exact lt_of_le_of_lt (hle.trans hlen.le) h.size
  · refine (verify_iff ?_).2 ⟨htlt, hblocks⟩
    exact hn
  · have hnormal : DiffRecord.isNormal ⟨r.ioAddress, r.ioBlocks, r.flags, t, r.dataOffset,
      out.length, calcDiffIoChecksum out⟩ = true := hn
    rw [SortedDiffReader.uncompressed, hnormal, hnone]
    by_cases ht : t = WALB_DIFF_CMPR_NONE
    · rw [uncompressData, if_pos ht] at huncompress
      split_ifs at huncompress
      cases huncompress
      simp [DiffRecord.isCompressed, ht]
    · have hcompressed : DiffRecord.isCompressed ⟨r.ioAddress, r.ioBlocks, r.flags, t, r.dataOffset,
          out.length, calcDiffIoChecksum out⟩ = true :=
        decide_eq_true ht
      rw [hcompressed]
      dsimp only [Bool.not_true, Bool.or_false, uncompressDiffIo]
      rw [if_neg (by decide), hmod, List.take_length, ← hlen, huncompress]
      rfl

theorem Call.Valid.stored (hZ : Z.Lawful) {c : Call} (h : c.Valid) :
    Ready (c.stored Z).1 (c.stored Z).2 ∧ SortedDiffReader.uncompressed Z true (c.stored Z).1
      (c.stored Z).2 = c.io Z := by
  cases c with
  | writeDiff inRec data => exact ⟨h, rfl⟩
  | compressAndWriteDiff inRec data type level =>
      rw [Call.Valid] at h
      rw [Call.stored, Call.io]
      by_cases hcond : (inRec.isNormal && !inRec.isCompressed) = true
      · rw [if_pos hcond] at h
        obtain ⟨hn, hc⟩ := Bool.and_eq_true_iff.1 hcond
        rw [if_pos hcond, if_pos hcond]
        exact compressDiffIo_spec hZ level h hn (by simpa using hc)
      · rw [if_neg hcond] at h
        rw [if_neg hcond, if_neg hcond]
        exact ⟨h, rfl⟩

theorem Wrote.calls (hZ : Z.Lawful) {calls : List Call} (hcalls : ∀ c, c ∈ calls → c.Valid)
    (h : Wrote head items w) :
    ∃ w', calls.foldlM (fun w c => c.run Z w) w = .ok w' ∧
      Wrote head (items ++ calls.map (Call.stored Z)) w' := by
  induction calls generalizing w items with
  | nil => exact ⟨w, rfl, by rwa [List.map_nil, List.append_nil]⟩
  | cons c calls ih =>
      obtain ⟨hc, hcalls⟩ := List.forall_mem_cons.1 hcalls
      obtain ⟨w₁, hrun, h₁⟩ := h.writeDiffBuf (hc.stored hZ).1
      obtain ⟨w₂, hruns, h₂⟩ := ih hcalls h₁
      refine ⟨w₂, ?_, by rwa [List.append_assoc] at h₂⟩
      rw [List.foldlM_cons, run_eq, hrun]
      exact hruns

theorem Wrote.close (h : Wrote head items w) : ∃ chunks : List (List Item), items = chunks.flatten ∧
    w.close.fileW = head ++ chunks.flatMap chunkBytes ++ eofBytes ∧ ∀ c, c ∈ chunks → c ≠ [] ∧
    Chunk c := by
  obtain ⟨chunks, hitems, hfile, -, -, -, -, hchunks⟩ := h.writePack
  refine ⟨chunks, hitems, ?_, hchunks⟩
  rw [SortedDiffWriter.close, if_neg (by rw [h.isClosed]; decide), ← hfile]
  rfl

/-- The file is a header, packs of the items in their order, and the pack of the end. -/
theorem writeFile_spec (hZ : Z.Lawful) (header : DiffFileHeader) {calls : List Call}
    (hcalls : ∀ c, c ∈ calls → c.Valid) :
    ∃ chunks : List (List Item), calls.map (Call.stored Z) = chunks.flatten ∧
      (∀ c, c ∈ chunks → c ≠ [] ∧ Chunk c) ∧
      writeFile Z header calls =
        .ok (DiffFileHeader.toBytes { header with type := WALB_DIFF_TYPE_SORTED } ++
        chunks.flatMap chunkBytes ++ eofBytes) := by
  have hstart : Wrote (DiffFileHeader.toBytes { header with type := WALB_DIFF_TYPE_SORTED }) []
      ⟨DiffFileHeader.toBytes { header with type := WALB_DIFF_TYPE_SORTED }, true, false, .clear, []⟩ :=
    ⟨rfl, rfl, [], [], rfl, (List.append_nil _).symm, rfl, rfl, chunk_nil,
      fun _ hc => absurd hc List.not_mem_nil⟩
  obtain ⟨w, hrun, h⟩ := hstart.calls hZ hcalls
  obtain ⟨chunks, hitems, hfile, hchunks⟩ := h.close
  refine ⟨chunks, hitems, hchunks, ?_⟩
  change calls.foldlM (fun w c => c.run Z w) ⟨DiffFileHeader.toBytes
    { header with type := WALB_DIFF_TYPE_SORTED }, true, false, .clear, []⟩ >>=
    _ = _
  rw [hrun]
  exact congrArg Except.ok hfile

/-- The reader is within a pack: `done` was read of it and `todo` was not. -/
structure At (done todo : List Item) (rest : Bytes) (r : SortedDiffReader) : Prop where
  chunk : Chunk (done ++ todo)
  pack : r.pack = some ⟨(packOf (done ++ todo)).toBytes⟩
  recIdx : r.recIdx = done.length
  totalSize : r.totalSize = totalOf 0 done
  fileR : r.fileR = (todo.map Prod.snd).flatten ++ rest

def Ahead (items : List Item) (r : SortedDiffReader) : Prop :=
  (items = [] ∧ r.pack = none) ∨ ∃ (done todo : List Item) (chunks : List (List Item))
    (junk : Bytes), items = todo ++ chunks.flatten ∧
    At done todo (chunks.flatMap chunkBytes ++ (eofBytes ++ junk)) r ∧ ∀ c, c ∈ chunks → c ≠ [] ∧ Chunk c

variable {r : SortedDiffReader} {rest : Bytes} {done todo : List Item}

theorem readPackHeader_chunk (hc : Chunk items) (hfile : r.fileR = chunkBytes items ++ rest) :
    ∃ r', r.readPackHeader = .ok (true, r') ∧ At [] items rest r' := by
  have hlen := DiffPackHeader.length_toBytes hc.fits
  have hend : (SortedReader.DiffPackHeader.mk (packOf items).toBytes).isEnd = false := by
    rw [SortedReader.DiffPackHeader.isEnd, DiffPackHeader.flags_toBytes hc.fits]
    exact Nat.zero_testBit _
  rw [SortedDiffReader.readPackHeader, hfile, chunkBytes, List.append_assoc,
    if_neg (by rw [List.length_append]; omega),
    List.take_left' hlen, List.drop_left' hlen]
  dsimp only
  rw [DiffPackHeader.verify_toBytes hc.fits hc.verify]
  dsimp only
  rw [hend, if_neg (by decide)]
  exact ⟨_, rfl, hc, rfl, rfl, rfl, rfl⟩

theorem readPackHeader_eof (hfile : r.fileR = eofBytes ++ rest) :
    ∃ r', r.readPackHeader = .ok (false, r') ∧ r'.pack = none := by
  have hfits : DiffPackHeader.clear.setEnd.Fits :=
    ⟨Nat.zero_le _, by decide, by decide, fun _ h => absurd h List.not_mem_nil⟩
  have hlen := DiffPackHeader.length_toBytes hfits
  have hend : (SortedReader.DiffPackHeader.mk DiffPackHeader.clear.setEnd.toBytes).isEnd = true := by
    rw [SortedReader.DiffPackHeader.isEnd, DiffPackHeader.flags_toBytes hfits]
    decide
  have hverify := DiffPackHeader.verify_toBytes hfits fun _ h => absurd h List.not_mem_nil
  rw [SortedDiffReader.readPackHeader, hfile, eofBytes, if_neg (by rw [List.length_append]; omega),
    List.take_left' hlen, List.drop_left' hlen]
  dsimp only
  rw [hverify]
  dsimp only
  rw [hend, if_pos rfl]
  exact ⟨_, rfl, rfl⟩

theorem place_getElem (done : List Item) (x : Item) (todo : List Item) {i : Nat} (hi : i = done.length) :
    ∃ h : i < (place 0 (done ++ x :: todo)).length, (place 0 (done ++ x :: todo))[i] =
      { x.1 with dataOffset := totalOf 0 done } := by
  subst hi
  have hlen := length_place 0 done
  have hlt : done.length < (place 0 (done ++ x :: todo)).length := by
    rw [length_place, List.length_append, List.length_cons]
    omega
  refine ⟨hlt, ?_⟩
  simp only [place_append]
  rw [List.getElem_append_right hlen.le]
  simp only [hlen, Nat.sub_self, place, List.getElem_cons_zero]

theorem At.readDiffIo (h : At done (x :: todo) rest r) :
    ∃ r', r.readDiffIo { x.1 with dataOffset := totalOf 0 done } = .ok (x.2, r') ∧
      At (done ++ [x]) todo rest r' := by
  obtain ⟨hchunk, hpack, hidx, htotal, hfile⟩ := h
  obtain ⟨-, -, hsize, hsum, hempty⟩ := hchunk.ready x (List.mem_append_right _ List.mem_cons_self)
  have hle := hchunk.length
  rw [List.length_append, List.length_cons] at hle
  have hmod : (r.recIdx + 1) % 2 ^ 16 = r.recIdx + 1 := by
    rw [hidx]
    simp only [MAX_N_RECORDS_IN_WALB_DIFF_PACK, WALB_DIFF_PACK_SIZE] at hle
    omega
  rw [List.map_cons, List.flatten_cons, List.append_assoc] at hfile
  have happ : done ++ x :: todo = done ++ [x] ++ todo := List.append_cons done x todo
  have hnext : ∀ fileR : Bytes, fileR = (todo.map Prod.snd).flatten ++ rest →
      At (done ++ [x]) todo rest ⟨fileR, r.isReadHeader, r.pack, (r.recIdx + 1) % 2 ^ 16,
      (r.totalSize + x.1.dataSize) % 2 ^ 32⟩ := by
    intro fileR hf
    refine ⟨happ ▸ hchunk, happ ▸ hpack, ?_, ?_, hf⟩
    · rw [hmod, hidx, List.length_append, List.length_singleton]
    · rw [totalOf_append, ← htotal]
      rfl
  have hdrop : (x.2 ++ ((todo.map Prod.snd).flatten ++ rest)).drop x.1.dataSize =
      (todo.map Prod.snd).flatten ++ rest :=
    List.drop_left' hsize.symm
  have htake : (x.2 ++ ((todo.map Prod.snd).flatten ++ rest)).take x.1.dataSize = x.2 :=
    List.take_left' hsize.symm
  rw [SortedDiffReader.readDiffIo, if_neg (not_not.2 htotal.symm)]
  have hnormal : DiffRecord.isNormal { x.1 with dataOffset := totalOf 0 done } = x.1.isNormal := rfl
  rw [hnormal]
  by_cases hn : x.1.isNormal = true
  · rw [if_pos hn, hfile]
    dsimp only
    rw [if_neg (by rw [List.length_append]; omega), htake, if_neg (not_not.2 (hsum hn)), hdrop]
    exact ⟨_, rfl, hnext _ rfl⟩
  · have hnil := hempty (eq_false_of_ne_true hn)
    rw [if_neg hn]
    rw [hnil] at hfile
    exact ⟨_, by rw [hnil], hnext _ hfile⟩

theorem Ahead.prepareRead (h : Ahead items r) :
    (items = [] ∧ ∃ r', r.prepareRead = .ok (false, r')) ∨
      ∃ (done todo : List Item) (x : Item) (chunks : List (List Item)) (junk : Bytes)
      (r' : SortedDiffReader),
        items = x :: todo ++ chunks.flatten ∧ r.prepareRead = .ok (true, r') ∧
          At done (x :: todo) (chunks.flatMap chunkBytes ++ (eofBytes ++ junk)) r' ∧ ∀ c,
          c ∈ chunks → c ≠ [] ∧ Chunk c := by
  rcases h with ⟨hitems, hpack⟩ | ⟨done, todo, chunks, junk, hitems, hat, hchunks⟩
  · exact .inl ⟨hitems, r, by rw [SortedDiffReader.prepareRead, hpack]⟩
  · have hn : (SortedReader.DiffPackHeader.mk (packOf (done ++ todo)).toBytes).nRecords =
        (done ++ todo).length := by
      rw [DiffPackHeader.nRecords_toBytes hat.chunk.fits, packOf, length_place]
    rw [SortedDiffReader.prepareRead, hat.pack]
    dsimp only
    rw [hn, hat.recIdx]
    cases todo with
    | cons x todo =>
        rw [if_neg (by rw [List.length_append, List.length_cons]; omega)]
        exact .inr ⟨done, todo, x, chunks, junk, r, hitems, rfl, hat, hchunks⟩
    | nil =>
        rw [List.append_nil, if_pos rfl]
        have hfile := hat.fileR
        cases chunks with
        | nil =>
            obtain ⟨r', hread, -⟩ := readPackHeader_eof hfile
            exact .inl ⟨hitems, r', hread⟩
        | cons c chunks =>
            obtain ⟨⟨hne, hc⟩, htail⟩ := List.forall_mem_cons.1 hchunks
            rw [List.flatMap_cons, List.append_assoc] at hfile
            obtain ⟨r', hread, hat'⟩ := readPackHeader_chunk hc hfile
            obtain ⟨x, todo, rfl⟩ := List.exists_cons_of_ne_nil hne
            exact .inr ⟨[], todo, x, chunks, junk, r', hitems, hread, hat', htail⟩

theorem Ahead.readDiff_nil (h : Ahead [] r) : ∃ r', r.readDiff = .ok (none, r') := by
  rcases h.prepareRead with ⟨-, r', hprepare⟩ | ⟨done, todo, x, chunks, junk, r', hitems, -⟩
  · exact ⟨r', by rw [SortedDiffReader.readDiff, hprepare]⟩
  · cases hitems

/-- The first of the items is read, with the offset that it has in its pack. -/
theorem Ahead.readDiff_cons (h : Ahead (x :: items) r) :
    ∃ o r', r.readDiff = .ok (some ({ x.1 with dataOffset := o }, x.2), r') ∧ Ahead items r' := by
  rcases h.prepareRead with ⟨hnil, -⟩ | ⟨done, todo, x', chunks, junk, r', hitems, hprepare, hat,
    hchunks⟩
  · cases hnil
  · obtain ⟨rfl, rfl⟩ := List.cons.inj hitems
    obtain ⟨hlt, hget⟩ := place_getElem done x todo hat.recIdx
    have hrec : recordAt ⟨(packOf (done ++ x :: todo)).toBytes⟩ r'.recIdx =
        some { x.1 with dataOffset := totalOf 0 done } := by
      rw [DiffPackHeader.recordAt_toBytes hat.chunk.fits hlt]
      exact congrArg some hget
    have hverify : DiffRecord.verify { x.1 with dataOffset := totalOf 0 done } = .ok () :=
      (hat.chunk.ready x (List.mem_append_right _ List.mem_cons_self)).verify
    obtain ⟨r'', hread, hat'⟩ := hat.readDiffIo
    refine ⟨totalOf 0 done, r'', ?_, .inr ⟨done ++ [x], todo, chunks, junk, rfl, hat', hchunks⟩⟩
    rw [SortedDiffReader.readDiff, hprepare]
    dsimp only
    rw [hat.pack, Option.bind_some, hrec]
    dsimp only
    rw [hverify]
    dsimp only
    rw [hread]

theorem uncompressed_place (b : Bool) (inRec : DiffRecord) (buf : Bytes) (o : Nat) :
    SortedDiffReader.uncompressed Z b { inRec with dataOffset := o } buf =
      (SortedDiffReader.uncompressed Z b inRec buf).map fun out =>
      ({ out.1 with dataOffset := o }, out.2) := by
  have hn : DiffRecord.isNormal { inRec with dataOffset := o } = inRec.isNormal := rfl
  have hc : DiffRecord.isCompressed { inRec with dataOffset := o } = inRec.isCompressed := rfl
  rw [SortedDiffReader.uncompressed, SortedDiffReader.uncompressed, hn, hc]
  split_ifs
  · rfl
  · dsimp only [uncompressDiffIo]
    cases uncompressData Z (buf.take inRec.dataSize) (inRec.ioBlocks * lbs % 2 ^ 32)
      inRec.compressionType <;> rfl

theorem Ahead.readLoop {b : Bool} {outs : List Item} (h : Ahead items r)
    (houts : items.mapM (fun x => SortedDiffReader.uncompressed Z b x.1 x.2) = .ok outs)
    {fuel : Nat} (hfuel : items.length < fuel) :
    (SortedDiffReader.readLoop Z b fuel r).1.map forget = outs.map forget ∧
      (SortedDiffReader.readLoop Z b fuel r).2 = .ok () := by
  induction items generalizing r outs fuel with
  | nil =>
      obtain ⟨fuel, rfl⟩ := Nat.exists_eq_succ_of_ne_zero (Nat.ne_zero_of_lt hfuel)
      obtain ⟨r', hread⟩ := h.readDiff_nil
      cases houts
      rw [SortedDiffReader.readLoop, SortedDiffReader.readAndUncompressDiff, hread]
      exact ⟨rfl, rfl⟩
  | cons x items ih =>
      obtain ⟨fuel, rfl⟩ := Nat.exists_eq_succ_of_ne_zero (Nat.ne_zero_of_lt hfuel)
      obtain ⟨o, r', hread, hahead⟩ := h.readDiff_cons
      rw [List.mapM_cons] at houts
      cases hout : SortedDiffReader.uncompressed Z b x.1 x.2 with
      | error e =>
          rw [hout] at houts
          cases houts
      | ok out =>
          rw [hout] at houts
          cases hrest : items.mapM (fun x => SortedDiffReader.uncompressed Z b x.1 x.2) with
          | error e =>
              rw [hrest] at houts
              cases houts
          | ok outs' =>
              rw [hrest] at houts
              cases houts
              obtain ⟨ih₁, ih₂⟩ := ih hahead hrest (Nat.lt_of_succ_lt_succ hfuel)
              rw [SortedDiffReader.readLoop, SortedDiffReader.readAndUncompressDiff, hread]
              dsimp only
              rw [uncompressed_place, hout]
              exact ⟨congrArg (List.cons (forget out)) ih₁, ih₂⟩

theorem length_chunks (chunks : List (List Item)) (hchunks : ∀ c, c ∈ chunks → c ≠ [] ∧ Chunk c) :
    chunks.flatten.length ≤ (chunks.flatMap chunkBytes).length := by
  induction chunks with
  | nil => exact Nat.zero_le _
  | cons c chunks ih =>
      obtain ⟨⟨-, hc⟩, htail⟩ := List.forall_mem_cons.1 hchunks
      have hlen := DiffPackHeader.length_toBytes hc.fits
      have hcount := hc.length
      have hle := ih htail
      rw [List.flatten_cons, List.flatMap_cons, List.length_append, List.length_append, chunkBytes,
        List.length_append, hlen]
      simp only [MAX_N_RECORDS_IN_WALB_DIFF_PACK, WALB_DIFF_PACK_SIZE] at hcount ⊢
      omega

theorem readHeader_chunks {header : DiffFileHeader} (hheader : header.Fits) {chunks : List (List Item)}
    (hchunks : ∀ c, c ∈ chunks → c ≠ [] ∧ Chunk c) (junk : Bytes) :
    ∃ r, (SortedDiffReader.setFile (header.toBytes ++ chunks.flatMap chunkBytes ++
      (eofBytes ++ junk))).readHeader = .ok (header, r) ∧
      Ahead chunks.flatten r := by
  rw [SortedDiffReader.readHeader, if_neg (by simp [SortedDiffReader.setFile]),
    SortedDiffReader.setFile, List.append_assoc,
    DiffFileHeader.readFrom_toBytes hheader]
  dsimp only
  cases chunks with
  | nil =>
      obtain ⟨r', hread, hpack⟩ := readPackHeader_eof
        (r := ⟨eofBytes ++ junk, true, some ⟨List.replicate WALB_DIFF_PACK_SIZE 0⟩, 0, 0⟩) rfl
      rw [List.flatMap_nil, List.nil_append, hread]
      exact ⟨r', rfl, .inl ⟨rfl, hpack⟩⟩
  | cons c chunks =>
      obtain ⟨⟨-, hc⟩, htail⟩ := List.forall_mem_cons.1 hchunks
      obtain ⟨r', hread, hat⟩ := readPackHeader_chunk
        (r := ⟨chunkBytes c ++ (chunks.flatMap chunkBytes ++ (eofBytes ++ junk)), true,
          some ⟨List.replicate WALB_DIFF_PACK_SIZE 0⟩, 0, 0⟩)
        hc rfl
      rw [List.flatMap_cons, List.append_assoc, hread]
      exact ⟨r', rfl, .inr ⟨[], c, chunks, junk, rfl, hat, htail⟩⟩

def oneBlock : DiffRecord := { DiffRecord.init with ioAddress := 40, ioBlocks := 1, flags := 1 }

/-- The calls of a caller until the end or an exception, as many as there are. -/
inductive Reads (Z : Codecs) (calcChecksum : Bool) :
    SortedDiffReader → List Item → Except ReadFailure Unit → Prop
  | error {r e} (h : r.readAndUncompressDiff Z calcChecksum = .error e) : Reads Z calcChecksum r []
      (.error e)
  | stop {r r'} (h : r.readAndUncompressDiff Z calcChecksum = .ok (none, r')) : Reads Z calcChecksum
      r [] (.ok ())
  | next {r r' out outs res} (h : r.readAndUncompressDiff Z calcChecksum = .ok (some out, r'))
      (hrest : Reads Z calcChecksum r' outs res) :
      Reads Z calcChecksum r (out :: outs) res

def ReadsFile (Z : Codecs) (calcChecksum : Bool) (file : Bytes) (outs : List Item)
    (res : Except ReadFailure Unit) : Prop :=
  match (SortedDiffReader.setFile file).readHeader with
  | .error e => outs = [] ∧ res = .error (.exception e)
  | .ok (_, r) => Reads Z calcChecksum r outs res

/-- The readers are at the same place, and the file of the first stops earlier. -/
def Cut (r' r : SortedDiffReader) : Prop := ∃ m, r' = { r with fileR := r.fileR.take m }

def InBlock (r : SortedDiffReader) : Prop :=
  ∀ pack, r.pack = some pack → pack.raw.length ≤ WALB_DIFF_PACK_SIZE

/-- Records are read in a block and then a whole block from the file. -/
def left (r : SortedDiffReader) : Nat := r.fileR.length + (MAX_N_RECORDS_IN_WALB_DIFF_PACK - r.recIdx)

variable {r' s s' : SortedDiffReader}

theorem Cut.readPackHeader (h : Cut r' r) (hok : r'.readPackHeader = .ok (true, s')) :
    ∃ s, r.readPackHeader = .ok (true, s) ∧ Cut s' s := by
  obtain ⟨m, rfl⟩ := h
  rw [SortedDiffReader.readPackHeader] at hok
  dsimp only at hok
  by_cases hlen : (r.fileR.take m).length < WALB_DIFF_PACK_SIZE
  · rw [if_pos hlen] at hok
    cases hok
  · rw [if_neg hlen] at hok
    rw [List.length_take] at hlen
    have hm : WALB_DIFF_PACK_SIZE ≤ m := by omega
    have hle : ¬r.fileR.length < WALB_DIFF_PACK_SIZE := by omega
    rw [List.take_take, min_eq_left hm] at hok
    rw [SortedDiffReader.readPackHeader, if_neg hle]
    dsimp only
    cases hv : (SortedReader.DiffPackHeader.mk (r.fileR.take WALB_DIFF_PACK_SIZE)).verify with
    | error e =>
        rw [hv] at hok
        cases hok
    | ok u =>
        rw [hv] at hok
        dsimp only at hok ⊢
        by_cases hend : (SortedReader.DiffPackHeader.mk (r.fileR.take WALB_DIFF_PACK_SIZE)).isEnd = true
        · rw [if_pos hend] at hok
          cases hok
        · rw [if_neg hend] at hok ⊢
          cases hok
          refine ⟨_, rfl, m - WALB_DIFF_PACK_SIZE, ?_⟩
          rw [List.drop_take]

theorem Cut.prepareRead (h : Cut r' r) (hok : r'.prepareRead = .ok (true, s')) :
    ∃ s, r.prepareRead = .ok (true, s) ∧ Cut s' s := by
  have hcut := h
  obtain ⟨m, rfl⟩ := h
  rw [SortedDiffReader.prepareRead] at hok ⊢
  dsimp only at hok
  cases hpack : r.pack with
  | none =>
      rw [hpack] at hok
      cases hok
  | some pack =>
      rw [hpack] at hok
      dsimp only at hok ⊢
      by_cases hidx : r.recIdx = pack.nRecords
      · rw [if_pos hidx] at hok ⊢
        exact hcut.readPackHeader hok
      · rw [if_neg hidx] at hok ⊢
        cases hok
        refine ⟨r, rfl, m, ?_⟩
        rw [hpack]

theorem Cut.readDiffIo (h : Cut r' r) {inRec : DiffRecord} {buf : Bytes}
    (hok : r'.readDiffIo inRec = .ok (buf, s')) :
    ∃ s, r.readDiffIo inRec = .ok (buf, s) ∧ Cut s' s := by
  obtain ⟨m, rfl⟩ := h
  rw [SortedDiffReader.readDiffIo] at hok ⊢
  dsimp only at hok ⊢
  by_cases hoff : inRec.dataOffset ≠ r.totalSize
  · rw [if_pos hoff] at hok
    cases hok
  · rw [if_neg hoff] at hok ⊢
    by_cases hn : inRec.isNormal = true
    · rw [if_pos hn] at hok ⊢
      by_cases hlen : (r.fileR.take m).length < inRec.dataSize
      · rw [if_pos hlen] at hok
        cases hok
      · rw [if_neg hlen] at hok
        rw [List.length_take] at hlen
        have hm : inRec.dataSize ≤ m := by omega
        have hle : ¬r.fileR.length < inRec.dataSize := by omega
        rw [List.take_take, min_eq_left hm] at hok
        rw [if_neg hle]
        by_cases hsum : inRec.checksum ≠ calcDiffIoChecksum (r.fileR.take inRec.dataSize)
        · rw [if_pos hsum] at hok
          cases hok
        · rw [if_neg hsum] at hok ⊢
          cases hok
          refine ⟨_, rfl, m - inRec.dataSize, ?_⟩
          rw [List.drop_take]
    · rw [if_neg hn] at hok ⊢
      cases hok
      exact ⟨_, rfl, m, rfl⟩

theorem Cut.pack (h : Cut r' r) : r'.pack = r.pack ∧ r'.recIdx = r.recIdx := by
  obtain ⟨m, rfl⟩ := h
  exact ⟨rfl, rfl⟩

theorem readDiff_eq_ok (hok : r.readDiff = .ok (some x, s)) :
    ∃ r₁, r.prepareRead = .ok (true, r₁) ∧ (r₁.pack.bind fun pack => recordAt pack r₁.recIdx) =
      some x.1 ∧
      x.1.verify = .ok () ∧ r₁.readDiffIo x.1 = .ok (x.2, s) := by
  rw [SortedDiffReader.readDiff] at hok
  rcases hprepare : r.prepareRead with e | ⟨b, r₁⟩
  · rw [hprepare] at hok
    cases hok
  · rw [hprepare] at hok
    cases b with
    | false => cases hok
    | true =>
        dsimp only at hok
        cases hrec : r₁.pack.bind fun pack => recordAt pack r₁.recIdx with
        | none =>
            rw [hrec] at hok
            cases hok
        | some inRec =>
            rw [hrec] at hok
            dsimp only at hok
            cases hv : inRec.verify with
            | error e =>
                rw [hv] at hok
                cases hok
            | ok u =>
                rw [hv] at hok
                dsimp only at hok
                rcases hread : r₁.readDiffIo inRec with e | ⟨buf, r₂⟩
                · rw [hread] at hok
                  cases hok
                · rw [hread] at hok
                  cases hok
                  exact ⟨r₁, rfl, hrec, hv, hread⟩

theorem Cut.readDiff (h : Cut r' r) (hok : r'.readDiff = .ok (some x, s')) :
    ∃ s, r.readDiff = .ok (some x, s) ∧ Cut s' s := by
  obtain ⟨r₁', hprepare', hrec, hverify, hread'⟩ := readDiff_eq_ok hok
  obtain ⟨r₁, hprepare, h₁⟩ := h.prepareRead hprepare'
  obtain ⟨s, hread, h₂⟩ := h₁.readDiffIo hread'
  refine ⟨s, ?_, h₂⟩
  rw [h₁.pack.1, h₁.pack.2] at hrec
  rw [SortedDiffReader.readDiff, hprepare]
  dsimp only
  rw [hrec]
  dsimp only
  rw [hverify]
  dsimp only
  rw [hread]

theorem readAndUncompressDiff_eq_ok {b : Bool} (hok : r.readAndUncompressDiff Z b = .ok (some x, s)) :
    ∃ y, r.readDiff = .ok (some y, s) ∧ SortedDiffReader.uncompressed Z b y.1 y.2 = .ok x := by
  rw [SortedDiffReader.readAndUncompressDiff] at hok
  rcases hread : r.readDiff with e | ⟨_ | ⟨inRec, buf⟩, r₁⟩
  · rw [hread] at hok
    cases hok
  · rw [hread] at hok
    cases hok
  · rw [hread] at hok
    dsimp only at hok
    cases hout : SortedDiffReader.uncompressed Z b inRec buf with
    | error e =>
        rw [hout] at hok
        cases hok
    | ok out =>
        rw [hout] at hok
        cases hok
        exact ⟨(inRec, buf), rfl, hout⟩

theorem Cut.readAndUncompressDiff {b : Bool} (h : Cut r' r)
    (hok : r'.readAndUncompressDiff Z b = .ok (some x, s')) :
    ∃ s, r.readAndUncompressDiff Z b = .ok (some x, s) ∧ Cut s' s := by
  obtain ⟨y, hread', hout⟩ := readAndUncompressDiff_eq_ok hok
  obtain ⟨s, hread, h₁⟩ := h.readDiff hread'
  refine ⟨s, ?_, h₁⟩
  rw [SortedDiffReader.readAndUncompressDiff, hread]
  dsimp only
  rw [hout]

theorem Cut.readLoop {b : Bool} {fuel fuel' : Nat} (h : Cut r' r) (hfuel : fuel ≤ fuel') :
    (SortedDiffReader.readLoop Z b fuel r').1 <+: (SortedDiffReader.readLoop Z b fuel' r).1 := by
  induction fuel generalizing r r' fuel' with
  | zero => exact List.nil_prefix
  | succ fuel ih =>
      obtain ⟨fuel', rfl⟩ := Nat.exists_eq_succ_of_ne_zero (Nat.ne_zero_of_lt hfuel)
      rw [SortedDiffReader.readLoop]
      rcases hread' : r'.readAndUncompressDiff Z b with e | ⟨_ | out, s'⟩
      · exact List.nil_prefix
      · exact List.nil_prefix
      · obtain ⟨s, hread, hcut⟩ := h.readAndUncompressDiff hread'
        rw [SortedDiffReader.readLoop, hread]
        exact List.cons_prefix_cons.2 ⟨rfl, ih hcut (Nat.le_of_succ_le_succ hfuel)⟩

theorem lt_of_recordAt {pack : SortedReader.DiffPackHeader}
    (hraw : pack.raw.length ≤ WALB_DIFF_PACK_SIZE) {i : Nat}
    {inRec : DiffRecord} (h : recordAt pack i = some inRec) : i < MAX_N_RECORDS_IN_WALB_DIFF_PACK := by
  rw [recordAt] at h
  split_ifs at h with hinside
  simp only [DiffRecord.size, WALB_DIFF_PACK_SIZE, MAX_N_RECORDS_IN_WALB_DIFF_PACK] at hraw hinside ⊢
  omega

theorem readPackHeader_left (hok : r.readPackHeader = .ok (true, s)) :
    InBlock s ∧ s.recIdx = 0 ∧ s.fileR.length + WALB_DIFF_PACK_SIZE = r.fileR.length := by
  rw [SortedDiffReader.readPackHeader] at hok
  by_cases hlen : r.fileR.length < WALB_DIFF_PACK_SIZE
  · rw [if_pos hlen] at hok
    cases hok
  · rw [if_neg hlen] at hok
    dsimp only at hok
    cases hv : (SortedReader.DiffPackHeader.mk (r.fileR.take WALB_DIFF_PACK_SIZE)).verify with
    | error e =>
        rw [hv] at hok
        cases hok
    | ok u =>
        rw [hv] at hok
        dsimp only at hok
        by_cases hend : (SortedReader.DiffPackHeader.mk (r.fileR.take WALB_DIFF_PACK_SIZE)).isEnd = true
        · rw [if_pos hend] at hok
          cases hok
        · rw [if_neg hend] at hok
          cases hok
          refine ⟨?_, rfl, ?_⟩
          · rintro pack ⟨⟩
            exact (List.length_take_le _ _)
          · rw [List.length_drop]
            omega

theorem prepareRead_left (h : InBlock r) (hok : r.prepareRead = .ok (true, s)) :
    InBlock s ∧ left s ≤ left r := by
  rw [SortedDiffReader.prepareRead] at hok
  cases hpack : r.pack with
  | none =>
      rw [hpack] at hok
      cases hok
  | some pack =>
      rw [hpack] at hok
      dsimp only at hok
      by_cases hidx : r.recIdx = pack.nRecords
      · rw [if_pos hidx] at hok
        obtain ⟨hblock, hzero, hlen⟩ := readPackHeader_left hok
        refine ⟨hblock, ?_⟩
        rw [left, left, hzero]
        simp only [WALB_DIFF_PACK_SIZE, MAX_N_RECORDS_IN_WALB_DIFF_PACK] at hlen ⊢
        omega
      · rw [if_neg hidx] at hok
        cases hok
        exact ⟨h, le_rfl⟩

theorem readDiffIo_left {inRec : DiffRecord} {buf : Bytes} (hok : r.readDiffIo inRec = .ok (buf, s)) :
    s.pack = r.pack ∧ s.recIdx = (r.recIdx + 1) % 2 ^ 16 ∧ s.fileR.length ≤ r.fileR.length := by
  rw [SortedDiffReader.readDiffIo] at hok
  dsimp only at hok
  split_ifs at hok
  · cases hok
    exact ⟨rfl, rfl, by rw [List.length_drop]; exact Nat.sub_le _ _⟩
  · cases hok
    exact ⟨rfl, rfl, le_rfl⟩

theorem readDiff_left (h : InBlock r) (hok : r.readDiff = .ok (some x, s)) :
    InBlock s ∧ left s < left r := by
  obtain ⟨r₁, hprepare, hrec, -, hread⟩ := readDiff_eq_ok hok
  obtain ⟨hblock, hle⟩ := prepareRead_left h hprepare
  obtain ⟨hpack, hidx, hlen⟩ := readDiffIo_left hread
  have hlt : r₁.recIdx < MAX_N_RECORDS_IN_WALB_DIFF_PACK := by
    obtain ⟨pack, hp, hrec⟩ := Option.bind_eq_some_iff.1 hrec
    exact lt_of_recordAt (hblock pack hp) hrec
  refine ⟨by rwa [InBlock, hpack], lt_of_lt_of_le ?_ hle⟩
  simp only [MAX_N_RECORDS_IN_WALB_DIFF_PACK, WALB_DIFF_PACK_SIZE] at hlt
  rw [left, left, hidx, Nat.mod_eq_of_lt (by omega)]
  simp only [MAX_N_RECORDS_IN_WALB_DIFF_PACK, WALB_DIFF_PACK_SIZE]
  omega

theorem readLoop_reads {b : Bool} {fuel : Nat} (h : InBlock r) (hfuel : left r < fuel) :
    Reads Z b r (SortedDiffReader.readLoop Z b fuel r).1 (SortedDiffReader.readLoop Z b fuel r).2 := by
  induction fuel generalizing r with
  | zero => exact absurd hfuel (Nat.not_lt_zero _)
  | succ fuel ih =>
      rw [SortedDiffReader.readLoop]
      rcases hread : r.readAndUncompressDiff Z b with e | ⟨_ | out, s⟩
      · exact .error hread
      · exact .stop hread
      · obtain ⟨y, hdiff, -⟩ := readAndUncompressDiff_eq_ok hread
        obtain ⟨hblock, hlt⟩ := readDiff_left h hdiff
        exact .next hread (ih hblock (by omega))

theorem readFrom_left {file rest : Bytes} {header : DiffFileHeader}
    (h : DiffFileHeader.readFrom file = .ok (header, rest)) :
    rest = file.drop DiffFileHeader.size ∧ DiffFileHeader.size ≤ file.length := by
  rw [DiffFileHeader.readFrom] at h
  by_cases hlen : file.length < DiffFileHeader.size
  · rw [if_pos hlen] at h
    cases h
  · rw [if_neg hlen] at h
    cases hv : DiffFileHeader.verify (file.take DiffFileHeader.size)
      (.ofBytes (file.take DiffFileHeader.size)) with
    | error e =>
        rw [hv] at h
        cases h
    | ok u =>
        rw [hv] at h
        cases h
        exact ⟨rfl, not_lt.1 hlen⟩

theorem readPackHeader_false (hok : r.readPackHeader = .ok (false, s)) : s.pack = none := by
  rw [SortedDiffReader.readPackHeader] at hok
  dsimp only at hok
  by_cases hlen : r.fileR.length < WALB_DIFF_PACK_SIZE
  · rw [if_pos hlen] at hok
    cases hok
    rfl
  · rw [if_neg hlen] at hok
    cases hv : (SortedReader.DiffPackHeader.mk (r.fileR.take WALB_DIFF_PACK_SIZE)).verify with
    | error e =>
        rw [hv] at hok
        cases hok
    | ok u =>
        rw [hv] at hok
        dsimp only at hok
        by_cases hend : (SortedReader.DiffPackHeader.mk (r.fileR.take WALB_DIFF_PACK_SIZE)).isEnd = true
        · rw [if_pos hend] at hok
          cases hok
          rfl
        · rw [if_neg hend] at hok
          cases hok

theorem readHeader_eq_ok {file : Bytes} {header : DiffFileHeader}
    (hok : (SortedDiffReader.setFile file).readHeader = .ok (header, s)) :
    ∃ rest b, DiffFileHeader.readFrom file = .ok (header, rest) ∧
      ({ SortedDiffReader.setFile file with
      fileR := rest, isReadHeader := true } : SortedDiffReader).readPackHeader = .ok (b, s) := by
  rw [SortedDiffReader.readHeader, if_neg (by simp [SortedDiffReader.setFile])] at hok
  rw [show (SortedDiffReader.setFile file).fileR = file from rfl] at hok
  rcases hfrom : DiffFileHeader.readFrom file with e | ⟨head, rest⟩
  · rw [hfrom] at hok
    cases hok
  · rw [hfrom] at hok
    dsimp only at hok
    rcases hpack : ({ SortedDiffReader.setFile file with
      fileR := rest, isReadHeader := true } : SortedDiffReader).readPackHeader with
      e | ⟨b, r⟩
    · rw [hpack] at hok
      cases hok
    · rw [hpack] at hok
      cases hok
      exact ⟨rest, b, rfl, hpack⟩

theorem readFrom_take {file rest : Bytes} {header : DiffFileHeader} {n : Nat}
    (h : DiffFileHeader.readFrom (file.take n) = .ok (header, rest)) :
    DiffFileHeader.readFrom file = .ok (header, file.drop DiffFileHeader.size) := by
  have hsize := (readFrom_left h).2
  rw [List.length_take] at hsize
  rw [DiffFileHeader.readFrom, List.length_take, if_neg (by omega), List.take_take,
    min_eq_left (by omega)] at h
  rw [DiffFileHeader.readFrom, if_neg (by omega)]
  cases hv : DiffFileHeader.verify (file.take DiffFileHeader.size)
    (.ofBytes (file.take DiffFileHeader.size)) with
  | error e =>
      rw [hv] at h
      cases h
  | ok u =>
      rw [hv] at h
      cases h
      rfl

theorem readAll_reads (Z : Codecs) (b : Bool) (file : Bytes) :
    ReadsFile Z b file (SortedDiffReader.readAll Z b file).1 (SortedDiffReader.readAll Z b file).2 := by
  rw [ReadsFile, SortedDiffReader.readAll]
  rcases hheader : (SortedDiffReader.setFile file).readHeader with e | ⟨header, r⟩
  · exact ⟨rfl, rfl⟩
  · obtain ⟨rest, b', hfrom, hpack⟩ := readHeader_eq_ok hheader
    obtain ⟨hrest, hsize⟩ := readFrom_left hfrom
    cases b' with
    | false =>
        have hstop : r.readAndUncompressDiff Z b = .ok (none, r) := by
          rw [SortedDiffReader.readAndUncompressDiff, SortedDiffReader.readDiff,
            SortedDiffReader.prepareRead, readPackHeader_false hpack]
        dsimp only
        rw [SortedDiffReader.readLoop, hstop]
        exact .stop hstop
    | true =>
        obtain ⟨hblock, hzero, hlen⟩ := readPackHeader_left hpack
        apply readLoop_reads hblock
        dsimp only at hlen
        rw [hrest, List.length_drop] at hlen
        rw [left, hzero]
        simp only [WALB_DIFF_PACK_SIZE, DiffFileHeader.size, MAX_N_RECORDS_IN_WALB_DIFF_PACK]
          at hlen hsize ⊢
        omega

/-- Reading a file that stops anywhere comes to an end, and gives a part of what the whole file
gives, from its begin on. -/
theorem truncated_file_reads_prefix (Z : Codecs) (b : Bool) (file : Bytes) (n : Nat) :
    ReadsFile Z b (file.take n) (SortedDiffReader.readAll Z b (file.take n)).1
      (SortedDiffReader.readAll Z b (file.take n)).2 ∧
      (SortedDiffReader.readAll Z b (file.take n)).1 <+: (SortedDiffReader.readAll Z b file).1 := by
  refine ⟨readAll_reads Z b (file.take n), ?_⟩
  rw [SortedDiffReader.readAll, SortedDiffReader.readAll]
  rcases hheader' : (SortedDiffReader.setFile (file.take n)).readHeader with e | ⟨header, r'⟩
  · exact List.nil_prefix
  · obtain ⟨rest', b', hfrom', hpack'⟩ := readHeader_eq_ok hheader'
    obtain ⟨hrest', hsize'⟩ := readFrom_left hfrom'
    cases b' with
    | false =>
        dsimp only
        rw [SortedDiffReader.readLoop, SortedDiffReader.readAndUncompressDiff,
          SortedDiffReader.readDiff, SortedDiffReader.prepareRead,
          readPackHeader_false hpack']
        exact List.nil_prefix
    | true =>
        have hfrom := readFrom_take hfrom'
        have hcut : Cut { SortedDiffReader.setFile (file.take n) with
            fileR := rest', isReadHeader := true }
              { SortedDiffReader.setFile file with
                fileR := file.drop DiffFileHeader.size, isReadHeader := true } :=
          ⟨n - DiffFileHeader.size, by rw [hrest', List.drop_take]; rfl⟩
        obtain ⟨r, hpack, hcut⟩ := hcut.readPackHeader hpack'
        have hheader : (SortedDiffReader.setFile file).readHeader = .ok (header, r) := by
          rw [SortedDiffReader.readHeader, if_neg (by simp [SortedDiffReader.setFile])]
          rw [show (SortedDiffReader.setFile file).fileR = file from rfl, hfrom]
          dsimp only
          rw [hpack]
        rw [hheader]
        exact hcut.readLoop (Nat.succ_le_succ (List.length_take_le' _ _))

end WalbTools.SortedFile
