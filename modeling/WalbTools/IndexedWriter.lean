import WalbTools.IndexedContent

namespace WalbTools.IndexedWriter

open Overlay ByteMemory DiffIo DiffMem DiffPack Compression Layout Checksum DiffHeader IndexedRecord
open IndexedDiffRecord (updateRecChecksum)
open Queue (calcChecksum)

structure DiffIndexSuper where
  indexOffset : Nat
  nRecords : Nat
  nData : Nat
  deriving DecidableEq

namespace DiffIndexSuper

def size : Nat := 24

def toBytes (s : DiffIndexSuper) : Bytes :=
  sealed (layout [(8, s.indexOffset), (4, s.nRecords), (4, s.nData), (4, 0)]) []

def ofBytes (raw : Bytes) : DiffIndexSuper :=
  match fields [8, 4, 4] raw with
  | [indexOffset, nRecords, nData] => ⟨indexOffset, nRecords, nData⟩
  | _ => ⟨0, 0, 0⟩

def verify (raw : Bytes) : Except String Unit :=
  if calcChecksum raw 0 ≠ 0 then .error "invalid checksum" else .ok ()

end DiffIndexSuper

structure IndexedDiffWriter where
  fileW : Bytes
  isWrittenHeader : Bool
  isClosed : Bool
  offset : Nat
  nData : Nat
  index : List IndexedDiffRecord
  maxIoBlocks : Nat

namespace IndexedDiffWriter

def setFile (maxIoBlocks : Nat) : IndexedDiffWriter := ⟨[], false, false, 0, 0, [], maxIoBlocks⟩

def writeHeader (w : IndexedDiffWriter) (header : DiffFileHeader) : Except String IndexedDiffWriter :=
  if w.isWrittenHeader then .error "do not call writeHeader() more than once."
  else
    let header := { header with type := WALB_DIFF_TYPE_INDEXED }
    .ok { w with
      fileW := w.fileW ++ header.toBytes, offset := w.offset + DiffFileHeader.size,
      isWrittenHeader := true }

def writeDiff (w : IndexedDiffWriter) (rec : IndexedDiffRecord) (data : Bytes) :
    Except String IndexedDiffWriter :=
  if w.isWrittenHeader = false then .error "checkWrittenHeader: call writeHeader() before writeDiff()."
  else
    let r := { rec with dataOffset := w.offset }
    let isNormal := rec.isNormal
    let added := if isNormal then data.take rec.dataSize else []
    match DiffIndexMem.add w.maxIoBlocks (if isNormal then updateRecChecksum r else r) w.index with
    | .error e => .error e
    | .ok index =>
        .ok { w with
          fileW := w.fileW ++ added
          offset := if isNormal then w.offset + rec.dataSize else w.offset
          index := index
          nData := w.nData + 1 }

def compressAndWriteDiff (Z : Codecs) (w : IndexedDiffWriter) (rec : IndexedDiffRecord)
    (data : Bytes) (type level : Nat) :
    Except String IndexedDiffWriter :=
  if rec.isNormal = false then w.writeDiff rec []
  else if rec.isCompressed then w.writeDiff rec data
  else
    let (type, buf) := compressData Z (data.take (rec.ioBlocks * lbs % 2 ^ 32)) type level
    w.writeDiff { rec with
      compressionType := type, dataSize := buf.length, ioChecksum := calcDiffIoChecksum buf } buf

def padding (offset : Nat) : Nat := if 0 < offset % 8 then 8 - offset % 8 else 0

def finalize (w : IndexedDiffWriter) : IndexedDiffWriter :=
  if w.isClosed then w
  else
    let offset := w.offset + padding w.offset
    let super : DiffIndexSuper := ⟨offset, w.index.length, w.nData⟩
    { w with
      fileW := w.fileW ++ List.replicate (padding w.offset) 0 ++
        w.index.flatMap IndexedDiffRecord.toBytes ++ super.toBytes
      offset := offset
      isClosed := true }

end IndexedDiffWriter

open IndexedDiffWriter

inductive Call where
  | writeDiff (rec : IndexedDiffRecord) (data : Bytes)
  | compressAndWriteDiff (rec : IndexedDiffRecord) (data : Bytes) (type level : Nat)

namespace Call

def run (Z : Codecs) (w : IndexedDiffWriter) : Call → Except String IndexedDiffWriter
  | writeDiff rec data => w.writeDiff rec data
  | compressAndWriteDiff rec data type level => w.compressAndWriteDiff Z rec data type level

end Call

def runAll (Z : Codecs) (w : IndexedDiffWriter) : List Call → Except String IndexedDiffWriter
  | [] => .ok w
  | c :: calls =>
      match c.run Z w with
      | .error e => .error e
      | .ok w => runAll Z w calls

def write (Z : Codecs) (maxIoBlocks : Nat) (header : DiffFileHeader) (calls : List Call) :
    Except String IndexedDiffWriter :=
  match (setFile maxIoBlocks).writeHeader header with
  | .error e => .error e
  | .ok w => runAll Z w calls

structure Storable (Z : Codecs) (rec : IndexedDiffRecord) (data : Bytes) : Prop where
  fits : Fits rec
  good : Good Z data { rec with dataOffset := 0 }

/-- The uncompressed data of a record that stands for all of them. -/
structure Plain (rec : IndexedDiffRecord) (data : Bytes) (type : Nat) : Prop where
  fits : Fits rec
  type_lt : type < WALB_DIFF_CMPR_MAX
  pos : 0 < rec.ioBlocks
  width : rec.ioBlocks * lbs < 2 ^ 32
  length : rec.ioBlocks * lbs ≤ data.length
  origBlocks : rec.origBlocks = rec.ioBlocks
  ioOffset : rec.ioOffset = 0

namespace Call

/-- `compressAndWriteDiff` compresses only these. -/
def isPlain (rec : IndexedDiffRecord) : Bool := rec.isNormal && !rec.isCompressed

def Valid (Z : Codecs) : Call → Prop
  | writeDiff rec data => Storable Z rec data
  | compressAndWriteDiff rec data type _ =>
      if isPlain rec then Plain rec data type else Storable Z rec data

def io (Z : Codecs) : Call → DiffRecIo LogicalBlock
  | writeDiff rec data => ioOf Z data { rec with dataOffset := 0 }
  | compressAndWriteDiff rec data _ _ =>
      if isPlain rec then recIo rec (data.take (rec.ioBlocks * lbs))
        else ioOf Z data { rec with dataOffset := 0 }

def stored (Z : Codecs) : Call → IndexedDiffRecord × Bytes
  | writeDiff rec data => (rec, data)
  | compressAndWriteDiff rec data type level =>
      if rec.isNormal = false then (rec, [])
      else if rec.isCompressed then (rec, data)
      else
        let (type, buf) := compressData Z (data.take (rec.ioBlocks * lbs % 2 ^ 32)) type level
        ({ rec with
          compressionType := type, dataSize := buf.length, ioChecksum := calcDiffIoChecksum buf },
          buf)

def addedBytes (rec : IndexedDiffRecord) (data : Bytes) : Bytes :=
  if rec.isNormal then data.take rec.dataSize else []

def added (Z : Codecs) (c : Call) : Bytes := addedBytes (c.stored Z).1 (c.stored Z).2

end Call

variable {Z : Codecs} {c : Call} {calls : List Call} {rec r p : IndexedDiffRecord}
  {data file : Bytes} {index : List IndexedDiffRecord}

theorem Call.run_eq (w : IndexedDiffWriter) : c.run Z w = w.writeDiff (c.stored Z).1 (c.stored Z).2 := by
  cases c with
  | writeDiff rec data => rfl
  | compressAndWriteDiff rec data type level =>
      rw [run, IndexedDiffWriter.compressAndWriteDiff, stored]
      split_ifs
      · rfl
      · rfl
      · rfl

theorem calcDiffIoChecksum_eq {io : Bytes} (h : io ≠ []) :
    calcDiffIoChecksum io = calcChecksum io 0 := if_neg h

theorem storable_of_not_normal (hf : Fits rec) (hx : (rec.isAllZero && rec.isDiscard) = false)
    (hn : rec.isNormal = false)
    (data : Bytes) : Storable Z rec data := by
  have hnot : ∀ {P : Prop}, rec.isNormal = true → P := fun h => absurd (h.symm.trans hn) Bool.noConfusion
  exact ⟨hf, hx, fun h => hnot h, fun h => hnot h, fun h => hnot h, fun h => hnot h,
    fun h => hnot h, fun h => hnot h, fun h => hnot h⟩

theorem Plain.storable (hZ : Z.Lawful) {type : Nat} (level : Nat) (h : Plain rec data type)
    (hn : rec.isNormal = true) {t : Nat}
    {buf : Bytes} (hc : compressData Z (data.take (rec.ioBlocks * lbs)) type level = (t, buf)) :
    Storable Z { rec with
      compressionType := t, dataSize := buf.length, ioChecksum := calcDiffIoChecksum buf } buf ∧
      imageOf Z buf { rec with
      compressionType := t, dataOffset := 0, dataSize := buf.length,
      ioChecksum := calcDiffIoChecksum buf } =
        .ok (data.take (rec.ioBlocks * lbs)) := by
  have hspec := compressData_spec hZ (data.take (rec.ioBlocks * lbs)) type level
  rw [hc] at hspec
  have hlen : (data.take (rec.ioBlocks * lbs)).length = rec.ioBlocks * lbs :=
    List.length_take_of_le h.length
  have hpos : 0 < rec.ioBlocks * lbs := Nat.mul_pos h.pos (by decide)
  have hbuf : buf ≠ [] := by
    apply hspec.pos
    apply List.ne_nil_of_length_pos
    rwa [hlen]
  have hle : buf.length ≤ rec.ioBlocks * lbs := hspec.length_le.trans hlen.le
  have ht : t < WALB_DIFF_CMPR_MAX := by
    rcases hspec.type_eq with ht | ht
    · exact ht.trans_lt h.type_lt
    · rw [show t = WALB_DIFF_CMPR_NONE from ht]
      decide
  have himage : imageOf Z buf
      { rec with
        compressionType := t, dataOffset := 0, dataSize := buf.length,
        ioChecksum := calcDiffIoChecksum buf } =
        .ok (data.take (rec.ioBlocks * lbs)) := by
    have hu := hspec.uncompress
    rw [hlen] at hu
    change uncompressData Z ((buf.drop 0).take buf.length) (rec.origBlocks * lbs % 2 ^ 32) t = _
    rw [List.drop_zero, List.take_length, h.origBlocks, Nat.mod_eq_of_lt h.width]
    exact hu
  have hf := h.fits
  refine ⟨⟨⟨hf.address, hf.blocks, hf.flags, ht.trans (by decide), hle.trans_lt h.width, hf.offset,
    hf.origBlocks, ?_⟩, ?_⟩, himage⟩
  · change calcDiffIoChecksum buf < 2 ^ 32
    rw [calcDiffIoChecksum_eq hbuf]
    exact Queue.QueueFile.calcChecksum_lt _ _
  · refine {
      exclusive := ?_
      cmpr := fun _ => ht
      pos := fun _ => List.length_pos_of_ne_nil hbuf
      inside := fun _ => (Nat.zero_add _).le
      checksum := fun _ => ?_
      range := fun _ => ?_
      width := fun _ => ?_
      image := fun _ => ⟨_, himage⟩ }
    · change (rec.isAllZero && rec.isDiscard) = false
      rw [IndexedDiffRecord.isNormal, Bool.and_eq_true, Bool.not_eq_true'] at hn
      rw [hn.1, Bool.false_and]
    · change calcChecksum ((buf.drop 0).take buf.length) 0 = calcDiffIoChecksum buf
      rw [List.drop_zero, List.take_length, calcDiffIoChecksum_eq hbuf]
    · change rec.ioOffset + rec.ioBlocks ≤ rec.origBlocks
      rw [h.ioOffset, h.origBlocks, Nat.zero_add]
    · change rec.origBlocks * lbs < 2 ^ 32
      rw [h.origBlocks]
      exact h.width

theorem isPlain_iff : Call.isPlain rec = true ↔ rec.isNormal = true ∧ rec.isCompressed = false := by
  rw [Call.isPlain, Bool.and_eq_true, Bool.not_eq_true']

theorem Call.Valid.stored_spec (hZ : Z.Lawful) (h : c.Valid Z) :
    Storable Z (c.stored Z).1 (c.stored Z).2 ∧
      (ioOf Z (c.stored Z).2 { (c.stored Z).1 with dataOffset := 0 }).cell = (c.io Z).cell := by
  cases c with
  | writeDiff rec data => exact ⟨h, rfl⟩
  | compressAndWriteDiff rec data type level =>
      rw [Call.Valid] at h
      rw [stored, io]
      by_cases hp : isPlain rec = true
      · rw [if_pos hp] at h ⊢
        obtain ⟨hn, hcomp⟩ := isPlain_iff.1 hp
        rw [if_neg (by rw [hn]; decide), if_neg (by rw [hcomp]; decide), Nat.mod_eq_of_lt h.width]
        cases hc : compressData Z (data.take (rec.ioBlocks * lbs)) type level with
        | mk t buf =>
            obtain ⟨hstore, himage⟩ := h.storable hZ level hn hc
            refine ⟨hstore, ?_⟩
            have hio : ioOf Z buf
                { rec with
                  compressionType := t, dataOffset := 0, dataSize := buf.length,
                  ioChecksum := calcDiffIoChecksum buf } =
                  recIo rec (data.take (rec.ioBlocks * lbs)) := by
              rw [ioOf, himage]
              change recIo rec (((data.take (rec.ioBlocks * lbs)).drop
                (rec.ioOffset * lbs % 2 ^ 32)).take (rec.ioBlocks * lbs % 2 ^ 32)) = _
              rw [h.ioOffset, Nat.zero_mul, Nat.zero_mod, List.drop_zero, Nat.mod_eq_of_lt h.width,
                List.take_take, min_self]
            exact congrArg _ hio
      · rw [if_neg hp] at h ⊢
        cases hn : rec.isNormal with
        | false =>
            rw [if_pos rfl]
            refine ⟨storable_of_not_normal h.fits h.good.exclusive hn [], ?_⟩
            rw [ioOf, ioOf, recIo, recIo, DiffMem.ofBuf, DiffMem.ofBuf, isNormal_toRecord]
            change (DiffRecIo.mk _ (if rec.isNormal = true then _ else [])).cell =
              (DiffRecIo.mk _ (if rec.isNormal = true then _ else [])).cell
            rw [hn]
            rfl
        | true =>
            have hcomp : rec.isCompressed = true := by
              by_contra hcomp
              exact hp (isPlain_iff.2 ⟨hn, Bool.eq_false_iff.2 hcomp⟩)
            rw [if_neg Bool.true_eq_false_eq_False, if_pos hcomp]
            exact ⟨h, rfl⟩

def placed (file : Bytes) (rec : IndexedDiffRecord) (recChecksum : Nat) : IndexedDiffRecord :=
  { rec with dataOffset := file.length, recChecksum := recChecksum }

variable {k : Nat}

theorem region_placed (hg : Good Z data { rec with dataOffset := 0 }) (hn : rec.isNormal = true) :
    region (file ++ Call.addedBytes rec data) (placed file rec k) = region data
      { rec with dataOffset := 0 } := by
  have hin : 0 + rec.dataSize ≤ data.length := hg.inside hn
  rw [Nat.zero_add] at hin
  rw [Call.addedBytes, if_pos hn]
  change ((file ++ data.take rec.dataSize).drop file.length).take rec.dataSize =
    (data.drop 0).take rec.dataSize
  rw [List.drop_left, List.take_take, min_self, List.drop_zero]

theorem imageOf_placed (hg : Good Z data { rec with dataOffset := 0 }) (hn : rec.isNormal = true) :
    imageOf Z (file ++ Call.addedBytes rec data) (placed file rec k) = imageOf Z data
      { rec with dataOffset := 0 } := by
  rw [imageOf, region_placed hg hn]
  rfl

theorem good_placed (hg : Good Z data { rec with dataOffset := 0 }) :
    Good Z (file ++ Call.addedBytes rec data) (placed file rec k) where
  exclusive := hg.exclusive
  cmpr := hg.cmpr
  pos := hg.pos
  inside hn := by
    have hin : 0 + rec.dataSize ≤ data.length := hg.inside hn
    rw [Nat.zero_add] at hin
    rw [List.length_append, Call.addedBytes, if_pos (show rec.isNormal = true from hn),
      List.length_take_of_le hin]
    exact le_rfl
  checksum hn := by
    rw [region_placed hg hn]
    exact hg.checksum hn
  range := hg.range
  width := hg.width
  image hn := by
    rw [imageOf_placed hg hn]
    exact hg.image hn

theorem ioOf_placed (hg : Good Z data { rec with dataOffset := 0 }) :
    ioOf Z (file ++ Call.addedBytes rec data) (placed file rec k) = ioOf Z data
      { rec with dataOffset := 0 } := by
  cases hn : rec.isNormal with
  | true =>
      rw [ioOf, imageOf_placed hg hn]
      rfl
  | false =>
      rw [ioOf, ioOf, recIo, recIo, DiffMem.ofBuf, DiffMem.ofBuf, isNormal_toRecord, isNormal_toRecord]
      change DiffRecIo.mk _ (if rec.isNormal = true then _ else []) =
        DiffRecIo.mk _ (if rec.isNormal = true then _ else [])
      rw [hn]
      rfl

structure Stored (Z : Codecs) (file : Bytes) (index : List IndexedDiffRecord) : Prop where
  wf : Index index
  good : ∀ r, r ∈ index → Good Z file r
  fits : ∀ r, r ∈ index → Fits r
  sound : ∀ r, r ∈ index → updateRecChecksum r = r
  place : ∀ r, r ∈ index → r.dataOffset ≤ file.length
  same : ∀ r, r ∈ index → ∀ p, p ∈ index → r.isNormal = true → p.isNormal = true →
    r.dataOffset = p.dataOffset →
    imageOf Z file r = imageOf Z file p

theorem stored_nil (file : Bytes) : Stored Z file [] where
  wf := ⟨⟨fun _ h => absurd h List.not_mem_nil, .nil⟩, fun _ h => absurd h List.not_mem_nil⟩
  good _ h := absurd h List.not_mem_nil
  fits _ h := absurd h List.not_mem_nil
  sound _ h := absurd h List.not_mem_nil
  place _ h := absurd h List.not_mem_nil
  same _ h := absurd h List.not_mem_nil

theorem Stored.append (h : Stored Z file index) (more : Bytes) : Stored Z (file ++ more) index where
  wf := h.wf
  good r hr := (h.good r hr).append more
  fits := h.fits
  sound := h.sound
  place r hr := by
    rw [List.length_append]
    exact (h.place r hr).trans (Nat.le_add_right _ _)
  same r hr p hp hrn hpn heq := by
    rw [(h.good r hr).imageOf_append hrn, (h.good p hp).imageOf_append hpn, h.same r hr p hp hrn hpn heq]

theorem content_append_file (h : ∀ r, r ∈ index → Good Z file r) (more : Bytes) :
    index.map (ioOf Z (file ++ more)) = index.map (ioOf Z file) :=
  List.map_congr_left fun r hr => (h r hr).ioOf_append more

theorem Fits.placed (h : Fits rec) : Fits (placed file rec k) :=
  ⟨h.address, h.blocks, h.flags, h.compressionType, h.dataSize, h.offset, h.origBlocks, h.ioChecksum⟩

theorem Stored.add (h : Stored Z file index) (hs : Storable Z rec data) (maxIoBlocks k : Nat) :
    ∃ index', DiffIndexMem.add maxIoBlocks (placed file rec k) index = .ok index' ∧
      Stored Z (file ++ Call.addedBytes rec data) index' ∧
      content (index'.map (ioOf Z (file ++ Call.addedBytes rec data))) =
        cover (ioOf Z data { rec with dataOffset := 0 }).cell (content (index.map (ioOf Z file))) := by
  have h' := h.append (Call.addedBytes rec data)
  have hgr : Good Z (file ++ Call.addedBytes rec data) (placed file rec k) := good_placed hs.good
  obtain ⟨index', hadd, hgrown⟩ := add_spec maxIoBlocks hgr h'.wf h'.good
  have hcontent := hgrown.content
  rw [content_append_file h.good, ioOf_placed hs.good] at hcontent
  -- Every record of the new index is a part of an old one or of the new one.
  have hsrc : ∀ p, p ∈ index' → updateRecChecksum p = p ∧ Fits p ∧ ∃ s,
      (s ∈ index ∨ s = placed file rec k) ∧
        p.dataOffset = s.dataOffset ∧ p.isNormal = s.isNormal ∧
        imageOf Z (file ++ Call.addedBytes rec data) p = imageOf Z (file ++ Call.addedBytes rec data)
        s := by
    intro p hp
    rcases hgrown.origin p hp with hp | ⟨s, hs', hsub⟩
    · exact ⟨h.sound p hp, h.fits p hp, p, .inl hp, rfl, rfl, rfl⟩
    · refine ⟨hsub.updateRecChecksum_eq, ?_, s, hs', ?_, hsub.isNormal_eq, hsub.imageOf_eq⟩
      · rcases hs' with hs' | rfl
        · exact (h.fits s hs').sub hsub
        · exact (Fits.placed hs.fits).sub hsub
      · rw [hsub.eq]
        rfl
  refine ⟨index', hadd, ⟨hgrown.wf, ?_, fun p hp => (hsrc p hp).2.1, fun p hp => (hsrc p hp).1,
    fun p hp => ?_, ?_⟩, hcontent⟩
  · exact hgrown.good h'.good fun s hs' => hs' ▸ hgr
  · obtain ⟨-, -, s, hs' | rfl, hoff, -, -⟩ := hsrc p hp
    · exact hoff ▸ h'.place s hs'
    · rw [hoff, List.length_append]
      exact Nat.le_add_right _ _
  · -- The data of the old records lie before those of the new one.
    have hbefore : ∀ s, s ∈ index → s.isNormal = true →
        s.dataOffset ≠ (placed file rec k).dataOffset := by
      intro s hs' hn
      have hpos := (h.good s hs').pos hn
      have hin := (h.good s hs').inside hn
      change s.dataOffset ≠ file.length
      omega
    intro p hp q hq hpn hqn heq
    obtain ⟨-, -, s, hs', hpoff, hpnormal, hpimage⟩ := hsrc p hp
    obtain ⟨-, -, t, ht, hqoff, hqnormal, hqimage⟩ := hsrc q hq
    rw [hpoff, hqoff] at heq
    rw [hpnormal] at hpn
    rw [hqnormal] at hqn
    rw [hpimage, hqimage]
    rcases hs' with hs' | rfl
    · rcases ht with ht | rfl
      · exact h'.same s hs' t ht hpn hqn heq
      · exact absurd heq (hbefore s hs' hpn)
    · rcases ht with ht | rfl
      · exact absurd heq.symm (hbefore t ht hqn)
      · rfl

/-- The state of the writer after the calls; `head` is what stands before the data. -/
structure Written (Z : Codecs) (head : Bytes) (calls : List Call) (w : IndexedDiffWriter) : Prop where
  opened : w.isWrittenHeader = true
  notClosed : w.isClosed = false
  file : w.fileW = head ++ calls.flatMap (Call.added Z)
  offset : w.offset = w.fileW.length
  nData : w.nData = calls.length
  stored : Stored Z w.fileW w.index
  content : content (w.index.map (ioOf Z w.fileW)) = content (calls.map (Call.io Z))

theorem Written.call (hZ : Z.Lawful) {head : Bytes} {w : IndexedDiffWriter}
    (h : Written Z head calls w) (hc : c.Valid Z) :
    ∃ w', c.run Z w = .ok w' ∧ Written Z head (calls ++ [c]) w' := by
  obtain ⟨hstore, hcell⟩ := hc.stored_spec hZ
  rw [c.run_eq]
  generalize hrec : (c.stored Z).1 = rec at hstore hcell ⊢
  generalize hdata : (c.stored Z).2 = data at hstore hcell ⊢
  have hadded : c.added Z = Call.addedBytes rec data := by rw [Call.added, hrec, hdata]
  obtain ⟨k, hk⟩ : ∃ k, (if rec.isNormal = true then updateRecChecksum
      { rec with dataOffset := w.offset }
        else { rec with dataOffset := w.offset }) = placed w.fileW rec k := by
    rw [h.offset]
    split_ifs
    · exact ⟨_, rfl⟩
    · exact ⟨rec.recChecksum, rfl⟩
  obtain ⟨index, hadd, hstored, hcontent⟩ := h.stored.add hstore w.maxIoBlocks k
  have hopened : ¬w.isWrittenHeader = false := by rw [h.opened]; decide
  refine ⟨_, by rw [IndexedDiffWriter.writeDiff, if_neg hopened]; dsimp only; rw [hk, hadd], ?_⟩
  refine ⟨h.opened, h.notClosed, ?_, ?_, ?_, hstored, ?_⟩
  · rw [List.flatMap_append, List.flatMap_singleton, hadded, ← List.append_assoc, ← h.file]
    rfl
  · change (if rec.isNormal = true then w.offset + rec.dataSize else w.offset) =
      (w.fileW ++ Call.addedBytes rec data).length
    rw [List.length_append, Call.addedBytes, h.offset]
    split_ifs with hn
    · have hin : 0 + rec.dataSize ≤ data.length := hstore.good.inside hn
      rw [List.length_take_of_le (by omega)]
    · rfl
  · change w.nData + 1 = _
    rw [h.nData, List.length_append]
    rfl
  · change DiffMem.content (index.map (ioOf Z (w.fileW ++ Call.addedBytes rec data))) = _
    rw [hcontent, h.content, hcell, List.map_append, content_append, List.map_singleton]
    exact congrArg (fun f => cover f _) overlay_singleton.symm

theorem Written.runAll (hZ : Z.Lawful) {head : Bytes} {w : IndexedDiffWriter} {more : List Call}
    (h : Written Z head calls w)
    (hc : ∀ c, c ∈ more → c.Valid Z) : ∃ w', runAll Z w more = .ok w' ∧
      Written Z head (calls ++ more) w' := by
  induction more generalizing calls w with
  | nil => exact ⟨w, rfl, by rwa [List.append_nil]⟩
  | cons c more ih =>
      obtain ⟨hc₁, hc⟩ := List.forall_mem_cons.1 hc
      obtain ⟨w₁, hrun, hw₁⟩ := h.call hZ hc₁
      obtain ⟨w₂, hall, hw₂⟩ := ih hw₁ hc
      refine ⟨w₂, by rw [IndexedWriter.runAll, hrun]; exact hall, ?_⟩
      rwa [List.append_assoc] at hw₂

def indexedHeader (header : DiffFileHeader) : DiffFileHeader :=
  { header with type := WALB_DIFF_TYPE_INDEXED }

theorem fits_indexedHeader {header : DiffFileHeader} (h : header.Fits) : (indexedHeader header).Fits :=
  ⟨h.version, show WALB_DIFF_TYPE_INDEXED < 2 ^ 8 by decide, h.uuid⟩

/-- No valid call fails, and the index has the content of the IOs that were written. -/
theorem write_spec (hZ : Z.Lawful) (maxIoBlocks : Nat) {header : DiffFileHeader} (hh : header.Fits)
    (hc : ∀ c, c ∈ calls → c.Valid Z) :
    ∃ w, write Z maxIoBlocks header calls = .ok w ∧ Written Z (indexedHeader header).toBytes calls
      w := by
  have hstart : Written Z (indexedHeader header).toBytes []
      ⟨[] ++ (indexedHeader header).toBytes, true, false, 0 + DiffFileHeader.size, 0, [],
        maxIoBlocks⟩ := by
    refine ⟨rfl, rfl, ?_, ?_, rfl, stored_nil _, rfl⟩
    · rw [List.nil_append, List.flatMap_nil, List.append_nil]
    · rw [List.nil_append, DiffFileHeader.length_toBytes (fits_indexedHeader hh), Nat.zero_add]
  obtain ⟨w, hrun, hw⟩ := hstart.runAll hZ hc
  exact ⟨w, hrun, hw⟩

end WalbTools.IndexedWriter
