import WalbTools.PackFile
import WalbTools.IndexedReader
import WalbTools.WlogRedo

namespace WalbTools.DiffRedo

open ByteMemory DiffIo DiffMem DiffPack DiffHeader Compression Overlay BdevWriter IndexedRecord
open SortedFile (SortedDiffReader ReadFailure)
open PackFile (flagsOf typeOf Carries flagsOf_lt isNormal_flagsOf typeOf_flagsOf verify_of_not_normal)
open IndexedReader (IndexedDiffReader IndexedDiffCache)

/-- The options of `wdiff-redo` that say what to do with discards. -/
structure RedoOption where
  doDiscard : Bool
  doZeroDiscard : Bool

/-- A device of `devSize` bytes and what it was given so far; `zeroSize` is the size of the
buffer of zeros. -/
structure SimpleDiffIoExecutor where
  devSize : Nat
  issued : List (DeviceIo UInt8)
  zeroSize : Nat

namespace SimpleDiffIoExecutor

/-- Without data a discard is issued. The size is computed in 32 bits. -/
def issueIo (ioAddr ioBlocks : Nat) (data : Option Bytes) (e : SimpleDiffIoExecutor) :
    SimpleDiffIoExecutor :=
  let oft := ioAddr * lbs % 2 ^ 64
  let size := ioBlocks * lbs % 2 ^ 32
  if e.devSize < (oft + size) % 2 ^ 64 then e
  else
    match data with
    | some data => { e with issued := e.issued ++ [.pwrite oft (data.take size)] }
    | none => { e with issued := e.issued ++ [issueDiscard ioAddr ioBlocks] }

def executeDiscardIo (ioAddr ioBlocks : Nat) (e : SimpleDiffIoExecutor) : SimpleDiffIoExecutor :=
  e.issueIo ioAddr ioBlocks none

/-- A buffer of zeros that never had a size is a null pointer. -/
def executeZeroIo (ioAddr ioBlocks : Nat) (e : SimpleDiffIoExecutor) : SimpleDiffIoExecutor :=
  let size := ioBlocks * lbs % 2 ^ 32
  let e := { e with zeroSize := max e.zeroSize size }
  e.issueIo ioAddr ioBlocks (if e.zeroSize = 0 then none else some (List.replicate e.zeroSize 0))

def executeDiffIo (opt : RedoOption) (ioAddr ioBlocks : Nat) (rtype : DiffRecType) (data : Bytes)
    (e : SimpleDiffIoExecutor) :
    SimpleDiffIoExecutor :=
  match rtype with
  | .allZero => e.executeZeroIo ioAddr ioBlocks
  | .discard =>
      if opt.doDiscard then e.executeDiscardIo ioAddr ioBlocks
      else if opt.doZeroDiscard then e.executeZeroIo ioAddr ioBlocks
      else e
  | .normal => e.issueIo ioAddr ioBlocks (some data)

end SimpleDiffIoExecutor

open SimpleDiffIoExecutor

section

variable (Z : Codecs) (opt : RedoOption)

def redoSorted : Nat → SortedDiffReader → SimpleDiffIoExecutor → Except ReadFailure SimpleDiffIoExecutor
  | 0, _, _ => .error (.exception "out of fuel")
  | fuel + 1, r, e =>
      match r.readAndUncompressDiff Z false with
      | .error err => .error err
      | .ok (none, _) => .ok e
      | .ok (some (rec, data), r) =>
          redoSorted fuel r (e.executeDiffIo opt rec.ioAddress rec.ioBlocks (typeOf rec) data)

def redoIndexed (tag : Nat) : Nat → IndexedDiffReader → IndexedDiffCache → Bytes →
    SimpleDiffIoExecutor → Except String SimpleDiffIoExecutor
  | 0, _, _, _, _ => .error "out of fuel"
  | fuel + 1, reader, cache, data, e =>
      match reader.readDiff Z tag cache data with
      | .error err => .error err
      | .ok none => .ok e
      | .ok (some (rec, data, reader, cache)) =>
          redoIndexed tag fuel reader cache data (e.executeDiffIo opt rec.ioAddress rec.ioBlocks
            rec.type data)

def run (devSize : Nat) (file : Bytes) : Except ReadFailure SimpleDiffIoExecutor := do
  let (head, rest) ← (DiffFileHeader.readFrom file).mapError .exception
  if ← head.isIndexed.mapError .exception then
    let reader ← (IndexedDiffReader.setFile file).mapError .exception
    (redoIndexed Z opt 0 (file.length + 1) reader ⟨32 * 2 ^ 20, []⟩ [] ⟨devSize, [], 0⟩).mapError
      .exception
  else
    let r := { SortedDiffReader.setFile rest with isReadHeader := true }
    let (_, r) ← r.readPackHeader.mapError .exception
    redoSorted Z opt (file.length + 1) r ⟨devSize, [], 0⟩

end

/-- The byte of a block that a record leaves there, discarded blocks as zeros. -/
def cellByte : Cell LogicalBlock → Nat → Option UInt8
  | .data b, k => b.bytes[k]?
  | .zero, _ => some 0
  | .discard, _ => some 0

def bytesAt (f : Nat → Option (Cell LogicalBlock)) : Nat → Option UInt8 :=
  fun a => (f (a / lbs)).bind fun c => cellByte c (a % lbs)

def bytesOf (r : DiffRecIo LogicalBlock) : Bytes :=
  if r.record.isNormal then LogicalBlock.toBytes r.io else List.replicate (r.record.ioBlocks * lbs) 0

def writeOf (r : DiffRecIo LogicalBlock) : DeviceIo UInt8 :=
  .pwrite (r.record.ioAddress * lbs) (bytesOf r)

section

variable {r : DiffRecIo LogicalBlock} {rs : List (DiffRecIo LogicalBlock)}
  {f g : Nat → Option (Cell LogicalBlock)}

theorem getElem?_toBytes (io : List LogicalBlock) (k : Nat) :
    (LogicalBlock.toBytes io)[k]? = (io[k / lbs]?).bind fun b => b.bytes[k % lbs]? := by
  induction io generalizing k with
  | nil => rfl
  | cons b io ih =>
      have hlen := b.length_bytes
      rw [LogicalBlock.toBytes, List.flatMap_cons, ← LogicalBlock.toBytes]
      by_cases hk : k < lbs
      · rw [List.getElem?_append_left (by rw [hlen]; exact hk), Nat.div_eq_of_lt hk, Nat.mod_eq_of_lt hk]
        rfl
      · have hdiv : k / lbs = (k - lbs) / lbs + 1 := by
          rw [lbs] at hk ⊢
          omega
        have hmod : k % lbs = (k - lbs) % lbs := by
          rw [lbs] at hk ⊢
          omega
        rw [List.getElem?_append_right (by rw [hlen]; exact not_lt.1 hk), hlen, ih, hdiv, hmod,
          List.getElem?_cons_succ]

theorem length_bytesOf (h : r.Valid) : (bytesOf r).length = r.record.ioBlocks * lbs := by
  rw [bytesOf]
  split_ifs with hn
  · rw [LogicalBlock.length_toBytes, h.io_length (DiffRecIo.isNormal_iff.1 hn)]
  · exact List.length_replicate

theorem stretch_bytesOf (h : r.Valid) : stretch (r.record.ioAddress * lbs)
    (bytesOf r) = bytesAt r.cell := by
  funext a
  have hlen := length_bytesOf h
  have hdiv : lbs * (a / lbs) + a % lbs = a := Nat.div_add_mod a lbs
  have hmod : a % lbs < lbs := Nat.mod_lt a (by decide)
  rw [stretch, bytesAt, DiffRecIo.cell]
  by_cases hc : r.record.Covers (a / lbs)
  · obtain ⟨hle, hlt⟩ := hc
    rw [DiffRecord.endIoAddress] at hlt
    have hpos : r.record.ioAddress * lbs ≤ a :=
      (Nat.mul_le_mul_right lbs hle).trans (Nat.div_mul_le_self a lbs)
    have hoff : (a - r.record.ioAddress * lbs) / lbs = a / lbs - r.record.ioAddress :=
      Nat.sub_mul_div a lbs r.record.ioAddress ▸ by
      rw [Nat.mul_comm]
    have hrem : (a - r.record.ioAddress * lbs) % lbs = a % lbs := by
      rw [lbs] at hpos ⊢
      omega
    have hin : a - r.record.ioAddress * lbs < r.record.ioBlocks * lbs := by
      rw [lbs] at *
      omega
    rw [if_pos hpos, if_pos ⟨hle, hlt⟩, bytesOf, DiffRecord.isNormal]
    cases ht : r.record.type with
    | normal =>
        rw [if_pos (by decide), getElem?_toBytes, hoff, hrem]
        cases r.io[a / lbs - r.record.ioAddress]? <;> rfl
    | discard => rw [if_neg (by decide), List.getElem?_replicate_of_lt hin]; rfl
    | allZero => rw [if_neg (by decide), List.getElem?_replicate_of_lt hin]; rfl
  · rw [if_neg hc, Option.bind_none]
    split_ifs with hpos
    · apply List.getElem?_eq_none
      rw [hlen]
      by_contra hin
      apply hc
      rw [DiffRecord.Covers, DiffRecord.endIoAddress]
      rw [lbs] at *
      omega
    · rfl

theorem bytesAt_cover : bytesAt (cover f g) = cover (bytesAt f) (bytesAt g) := by
  funext a
  have hsome : ∀ c : Cell LogicalBlock, ∃ b, cellByte c (a % lbs) = some b := by
    intro c
    cases c with
    | data b =>
        have hlt : a % lbs < b.bytes.length := by rw [b.length_bytes]; exact Nat.mod_lt a (by decide)
        exact ⟨_, List.getElem?_eq_getElem hlt⟩
    | zero => exact ⟨0, rfl⟩
    | discard => exact ⟨0, rfl⟩
  rw [bytesAt, cover, cover, bytesAt, bytesAt]
  cases hf : f (a / lbs) with
  | none => rw [Option.none_or, Option.bind_none, Option.none_or]
  | some c =>
      obtain ⟨b, hb⟩ := hsome c
      rw [Option.some_or, Option.bind_some, hb, Option.some_or]

theorem applyAll_writeOf (hrs : ∀ r, r ∈ rs → r.Valid) (discarded : Discarding UInt8)
    (img : Nat → UInt8) :
    DeviceIo.applyAll discarded img (rs.map writeOf) = write (bytesAt (content rs)) img := by
  induction rs generalizing img with
  | nil => rfl
  | cons r rs ih =>
      obtain ⟨hr, hrs⟩ := List.forall_mem_cons.1 hrs
      have hstep : DeviceIo.applyAll discarded img ((r :: rs).map writeOf) =
          DeviceIo.applyAll discarded (write (stretch (r.record.ioAddress * lbs) (bytesOf r)) img)
          (rs.map writeOf) := rfl
      have hcontent : content (r :: rs) = cover (content rs) r.cell := rfl
      rw [hstep, ih hrs, stretch_bytesOf hr, write_write, hcontent, bytesAt_cover]

end

section

variable {r : DiffRecIo LogicalBlock} {e : SimpleDiffIoExecutor} {devSize : Nat}

/-- The IO lies on the device, and its size fits 32 bits. -/
structure OnDevice (devSize : Nat) (r : DiffRecIo LogicalBlock) : Prop where
  end_le : (r.record.ioAddress + r.record.ioBlocks) * lbs ≤ devSize
  size_lt : r.record.ioBlocks < 2 ^ 23

theorem issueIo_spec (hin : OnDevice e.devSize r) (hdev : e.devSize < 2 ^ 64) {data : Bytes}
    (hdata : data.take (r.record.ioBlocks * lbs) = bytesOf r) :
    (e.issueIo r.record.ioAddress r.record.ioBlocks (some data)).devSize = e.devSize ∧
      (e.issueIo r.record.ioAddress r.record.ioBlocks (some data)).issued = e.issued ++ [writeOf r] := by
  have hend := hin.end_le
  have hsize := hin.size_lt
  have hoft : r.record.ioAddress * lbs % 2 ^ 64 = r.record.ioAddress * lbs :=
    Nat.mod_eq_of_lt (by rw [lbs] at *; omega)
  have hmod : r.record.ioBlocks * lbs % 2 ^ 32 = r.record.ioBlocks * lbs :=
    Nat.mod_eq_of_lt (by rw [lbs]; omega)
  have hsum : (r.record.ioAddress * lbs + r.record.ioBlocks * lbs) % 2 ^ 64 =
      (r.record.ioAddress + r.record.ioBlocks) * lbs := by
    rw [← Nat.add_mul]
    exact Nat.mod_eq_of_lt (hend.trans_lt hdev)
  rw [issueIo, hoft, hmod, hsum, if_neg (not_lt.2 hend), hdata]
  exact ⟨rfl, rfl⟩

theorem executeDiffIo_spec (hr : r.Valid) (hin : OnDevice e.devSize r) (hdev : e.devSize < 2 ^ 64)
    {data : Bytes}
    (hdata : r.record.type = .normal → data = LogicalBlock.toBytes r.io) :
    (e.executeDiffIo ⟨false, true⟩ r.record.ioAddress r.record.ioBlocks r.record.type
      data).devSize = e.devSize ∧
      (e.executeDiffIo ⟨false, true⟩ r.record.ioAddress r.record.ioBlocks r.record.type data).issued =
        e.issued ++ [writeOf r] := by
  have hpos := hr.pos
  have hlt := hin.size_lt
  have hmod : r.record.ioBlocks * lbs % 2 ^ 32 = r.record.ioBlocks * lbs :=
    Nat.mod_eq_of_lt (by rw [lbs]; omega)
  have hzero : r.record.type ≠ .normal → (e.executeZeroIo r.record.ioAddress
      r.record.ioBlocks).devSize = e.devSize ∧
        (e.executeZeroIo r.record.ioAddress r.record.ioBlocks).issued = e.issued ++ [writeOf r] := by
    intro ht
    have hne : max e.zeroSize (r.record.ioBlocks * lbs) ≠ 0 := by
      rw [lbs]
      omega
    have hbytes : (List.replicate (max e.zeroSize (r.record.ioBlocks * lbs)) (0 : UInt8)).take
        (r.record.ioBlocks * lbs) = bytesOf r := by
      rw [List.take_replicate, Nat.min_eq_left (Nat.le_max_right _ _), bytesOf,
        if_neg fun hn => ht (DiffRecIo.isNormal_iff.1 hn)]
    rw [executeZeroIo]
    dsimp only
    rw [hmod, if_neg hne]
    exact @issueIo_spec r { e with zeroSize := max e.zeroSize (r.record.ioBlocks * lbs) } hin hdev _
      hbytes
  cases ht : r.record.type with
  | normal =>
      apply issueIo_spec hin hdev
      rw [hdata ht, bytesOf, if_pos (DiffRecIo.isNormal_iff.2 ht), List.take_of_length_le]
      rw [LogicalBlock.length_toBytes, hr.io_length ht]
  | discard => exact hzero (by rw [ht]; decide)
  | allZero => exact hzero (by rw [ht]; decide)

theorem foldl_spec {α : Type} {exec : SimpleDiffIoExecutor → α → SimpleDiffIoExecutor}
    {rs : List (DiffRecIo LogicalBlock)} {xs : List α}
    (h : List.Forall₂ (fun r x => ∀ e, e.devSize = devSize →
      (exec e x).devSize = devSize ∧ (exec e x).issued = e.issued ++ [writeOf r]) rs xs)
    (he : e.devSize = devSize) : (xs.foldl exec e).issued = e.issued ++ rs.map writeOf := by
  induction h generalizing e with
  | nil => rw [List.map_nil, List.append_nil, List.foldl_nil]
  | cons hx _ ih =>
      obtain ⟨hdev, hwrites⟩ := hx e he
      rw [List.foldl_cons, ih hdev, hwrites, List.append_assoc]
      rfl

end

section

variable {Z : Codecs} {opt : RedoOption} {e : SimpleDiffIoExecutor} {devSize : Nat}
  {p : DiffRecIo LogicalBlock} {ps : List (DiffRecIo LogicalBlock)}

/-- A record of uncompressed data as it is in memory; its checksum is not calculated. -/
def recordOf (r : DiffRecord) : SortedReader.DiffRecord :=
  ⟨r.ioAddress, r.ioBlocks, flagsOf r.type, WALB_DIFF_CMPR_NONE, 0, r.dataSize, 0⟩

structure Stowable (p : DiffRecIo LogicalBlock) : Prop where
  valid : p.Valid
  ioAddress : p.record.ioAddress < 2 ^ 64
  ioBlocks : p.record.ioBlocks < 2 ^ 23
  dataSize : p.record.type ≠ .normal → p.record.dataSize = 0

/-- How `DiffMemory::writeTo` writes an IO if it is to be compressed. -/
def writeCall (type : Nat) (p : DiffRecIo LogicalBlock) : SortedFile.Call :=
  .compressAndWriteDiff (recordOf p.record) (LogicalBlock.toBytes p.io) type 0

theorem isNormal_recordOf (r : DiffRecord) : (recordOf r).isNormal = r.isNormal := isNormal_flagsOf rfl

theorem typeOf_recordOf (r : DiffRecord) : typeOf (recordOf r) = r.type := typeOf_flagsOf rfl

theorem Stowable.fits (h : Stowable p) : (recordOf p.record).Fits where
  ioAddress := h.ioAddress
  ioBlocks := h.ioBlocks.trans (by decide)
  flags := flagsOf_lt _
  compressionType := by
    change WALB_DIFF_CMPR_NONE < 2 ^ 8
    decide
  dataOffset := by
    change 0 < 2 ^ 32
    decide
  dataSize := by
    change p.record.dataSize < 2 ^ 32
    have hblocks := h.ioBlocks
    by_cases ht : p.record.type = .normal
    · rw [h.valid.dataSize ht, lbs]
      omega
    · rw [h.dataSize ht]
      decide
  checksum := by
    change 0 < 2 ^ 32
    decide

theorem Stowable.verify (h : Stowable p) : (recordOf p.record).verify = .ok () := by
  cases hn : (recordOf p.record).isNormal with
  | true => exact (SortedFile.verify_iff hn).2 ⟨by change WALB_DIFF_CMPR_NONE < _; decide, h.valid.pos.ne'⟩
  | false =>
      refine verify_of_not_normal rfl fun ht => ?_
      rw [isNormal_recordOf, DiffRecIo.isNormal_iff.2 ht] at hn
      cases hn

theorem Stowable.valid_writeCall (h : Stowable p) {type : Nat} (htype : type < WALB_DIFF_CMPR_MAX) :
    (writeCall type p).Valid := by
  have hc : (recordOf p.record).isCompressed = false := rfl
  rw [writeCall, SortedFile.Call.Valid, hc, Bool.not_false, Bool.and_true, isNormal_recordOf]
  have hblocks := h.ioBlocks
  cases hn : p.record.isNormal with
  | true =>
      rw [if_pos rfl]
      have hlen := LogicalBlock.length_toBytes p.io
      rw [h.valid.io_length (DiffRecIo.isNormal_iff.1 hn)] at hlen
      refine ⟨h.fits, h.verify, ?_, hlen.ge, htype⟩
      change p.record.ioBlocks * lbs < 2 ^ 32
      rw [lbs]
      omega
  | false =>
      have ht : p.record.type ≠ .normal := fun ht => by
        rw [DiffRecIo.isNormal_iff.2 ht] at hn
        cases hn
      rw [if_neg (by decide), if_neg (by decide)]
      refine ⟨h.fits, h.verify, h.dataSize ht, fun hn' => ?_, fun _ => rfl⟩
      rw [isNormal_recordOf, hn] at hn'
      cases hn'

theorem Stowable.io_writeCall (h : Stowable p) {type : Nat} :
    ∃ x, (writeCall type p).io Z = .ok x ∧ Carries p x := by
  have hc : (recordOf p.record).isCompressed = false := rfl
  rw [writeCall, SortedFile.Call.io, hc, Bool.not_false, Bool.and_true, isNormal_recordOf]
  have htypeOf := typeOf_recordOf p.record
  cases hn : p.record.isNormal with
  | true =>
      have hlen := LogicalBlock.length_toBytes p.io
      rw [h.valid.io_length (DiffRecIo.isNormal_iff.1 hn)] at hlen
      rw [if_pos rfl]
      exact ⟨_, rfl, rfl, rfl, htypeOf, List.take_of_length_le hlen.le⟩
  | false =>
      rw [if_neg (by decide), if_neg (by decide), SortedFile.SortedDiffReader.uncompressed,
        isNormal_recordOf, hn, hc,
        if_pos (by decide)]
      refine ⟨_, rfl, rfl, rfl, htypeOf, ?_⟩
      rw [h.valid.io_nil fun ht => by rw [DiffRecIo.isNormal_iff.2 ht] at hn; cases hn]
      rfl

theorem uncompressed_false {inRec : SortedReader.DiffRecord} {buf : Bytes}
    {x : SortedReader.DiffRecord × Bytes}
    (h : SortedFile.SortedDiffReader.uncompressed Z true inRec buf = .ok x) :
    ∃ c, SortedFile.SortedDiffReader.uncompressed Z false inRec buf =
      .ok ({ x.1 with checksum := c }, x.2) := by
  rw [SortedFile.SortedDiffReader.uncompressed] at h ⊢
  split_ifs at h ⊢ with hplain
  · cases h
    exact ⟨inRec.checksum, rfl⟩
  · rw [SortedFile.uncompressDiffIo] at h ⊢
    dsimp only at h ⊢
    cases hu : uncompressData Z (buf.take inRec.dataSize) (inRec.ioBlocks * lbs % 2 ^ 32)
      inRec.compressionType with
    | error err =>
        rw [hu] at h
        cases h
    | ok out =>
        rw [hu] at h
        cases h
        exact ⟨0, rfl⟩

theorem mapM_writeCall (hZ : Z.Lawful) {type : Nat} (htype : type < WALB_DIFF_CMPR_MAX)
    (hps : ∀ p, p ∈ ps → Stowable p) :
    ∃ outs, ((ps.map (writeCall type)).map (SortedFile.Call.stored Z)).mapM
      (fun x => SortedFile.SortedDiffReader.uncompressed Z false x.1 x.2) = .ok outs ∧
        List.Forall₂ Carries ps outs := by
  induction ps with
  | nil => exact ⟨[], rfl, .nil⟩
  | cons p ps ih =>
      obtain ⟨hp, hps⟩ := List.forall_mem_cons.1 hps
      obtain ⟨outs, houts, hcarries⟩ := ih hps
      obtain ⟨x, hx, hcarry⟩ := hp.io_writeCall
      obtain ⟨c, hread⟩ := uncompressed_false (((hp.valid_writeCall htype).stored hZ).2.trans hx)
      refine ⟨({ x.1 with checksum := c }, x.2) :: outs, ?_,
        .cons ⟨hcarry.ioAddress, hcarry.ioBlocks, hcarry.type, hcarry.data⟩ hcarries⟩
      rw [List.map_cons, List.map_cons, List.mapM_cons, hread, houts]
      rfl

theorem redoSorted_eq {fuel : Nat} {r : SortedDiffReader}
    (h : (SortedDiffReader.readLoop Z false fuel r).2 = .ok ()) :
    redoSorted Z opt fuel r e = .ok ((SortedDiffReader.readLoop Z false fuel r).1.foldl
      (fun e x => e.executeDiffIo opt x.1.ioAddress x.1.ioBlocks (typeOf x.1) x.2) e) := by
  induction fuel generalizing r e with
  | zero => cases h
  | succ fuel ih =>
      rw [SortedFile.SortedDiffReader.readLoop] at h ⊢
      rw [redoSorted]
      cases hread : r.readAndUncompressDiff Z false with
      | error err =>
          rw [hread] at h
          cases h
      | ok out =>
          rw [hread] at h
          obtain ⟨_ | x, r'⟩ := out
          · rfl
          · exact ih h

/-- A sorted diff with the IOs of a memory diff, redone with zeros for discards, leaves the
content of the IOs. -/
theorem run_sorted (hZ : Z.Lawful) {header : DiffFileHeader}
    (hheader : DiffFileHeader.Fits { header with type := WALB_DIFF_TYPE_SORTED })
    {type : Nat} (htype : type < WALB_DIFF_CMPR_MAX) (hdev : devSize < 2 ^ 64)
    (hps : ∀ p, p ∈ ps → Stowable p ∧ OnDevice devSize p) :
    ∃ file e, SortedFile.writeFile Z header (ps.map (writeCall type)) = .ok file ∧
      run Z ⟨false, true⟩ devSize file = .ok e ∧
      ∀ discarded img, DeviceIo.applyAll discarded img e.issued = write (bytesAt (content ps)) img := by
  obtain ⟨chunks, hstored, hchunks, hfile⟩ := SortedFile.writeFile_spec hZ header
    (List.forall_mem_map.2 fun p hp => (hps p hp).1.valid_writeCall htype)
  obtain ⟨outs, houts, hcarries⟩ := mapM_writeCall hZ htype fun p hp => (hps p hp).1
  rw [hstored] at houts
  obtain ⟨r, hread, hahead⟩ := SortedFile.readHeader_chunks hheader hchunks []
  rw [List.append_nil] at hread
  generalize hbytes : DiffFileHeader.toBytes { header with type := WALB_DIFF_TYPE_SORTED } ++
    chunks.flatMap SortedFile.chunkBytes ++
    SortedFile.eofBytes = file at hfile hread
  have hfuel : chunks.flatten.length < file.length + 1 := by
    have hlen := SortedFile.length_chunks chunks hchunks
    rw [← hbytes, List.length_append, List.length_append]
    omega
  obtain ⟨hforget, hend⟩ := hahead.readLoop houts hfuel
  have hsteps : List.Forall₂ (fun r (x : SortedReader.DiffRecord × Bytes) =>
    ∀ e : SimpleDiffIoExecutor, e.devSize = devSize →
      (e.executeDiffIo ⟨false, true⟩ x.1.ioAddress x.1.ioBlocks (typeOf x.1) x.2).devSize = devSize ∧
        (e.executeDiffIo ⟨false, true⟩ x.1.ioAddress x.1.ioBlocks (typeOf x.1) x.2).issued =
        e.issued ++ [writeOf r])
      ps (SortedDiffReader.readLoop Z false (file.length + 1) r).1 := by
    have houts' : List.Forall₂ Carries ps (outs.map SortedFile.forget) :=
      List.forall₂_map_right_iff.2 (hcarries.imp fun _ _ h => ⟨h.ioAddress, h.ioBlocks, h.type, h.data⟩)
    rw [← hforget] at houts'
    refine ((List.forall₂_and_left _ _).2 ⟨hps, List.forall₂_map_right_iff.1 houts'⟩).imp ?_
    rintro p x ⟨⟨hp, hin⟩, hcarry⟩ e rfl
    have hstep := executeDiffIo_spec hp.valid hin hdev fun _ => hcarry.data
    rwa [← hcarry.ioAddress, ← hcarry.ioBlocks, ← hcarry.type] at hstep
  obtain ⟨rest, b, hhead, hpack⟩ := SortedFile.readHeader_eq_ok hread
  have hsorted : DiffFileHeader.isIndexed { header with type := WALB_DIFF_TYPE_SORTED } =
    .ok false := if_pos rfl
  have hrun : run Z ⟨false, true⟩ devSize file = .ok ((SortedDiffReader.readLoop Z false
      (file.length + 1) r).1.foldl
        (fun e x => e.executeDiffIo ⟨false, true⟩ x.1.ioAddress x.1.ioBlocks (typeOf x.1) x.2)
          ⟨devSize, [], 0⟩) := by
    have hsame : ({ SortedDiffReader.setFile rest with
      isReadHeader := true } : SortedDiffReader).readPackHeader = .ok (b, r) := hpack
    rw [run, hhead]
    simp only [bind, Except.bind, Except.mapError, hsorted, Bool.false_eq_true, if_false, hsame]
    exact redoSorted_eq hend
  refine ⟨file, _, hfile, hrun, fun discarded img => ?_⟩
  rw [foldl_spec hsteps (e := ⟨devSize, [], 0⟩) rfl, List.nil_append]
  exact applyAll_writeOf (fun p hp => (hps p hp).1.valid) discarded img

end

section

open IndexedWriter

variable {Z : Codecs} {opt : RedoOption} {devSize tag : Nat} {s p : IndexedDiffRecord} {c : Call}
  {calls : List Call} {head : Bytes}
  {w w' : IndexedDiffWriter}

/-- The range of the record lies on the device, and its size fits 32 bits. -/
structure InRange (devSize : Nat) (r : IndexedDiffRecord) : Prop where
  end_le : r.endIoAddress * lbs ≤ devSize
  size_lt : r.ioBlocks < 2 ^ 23

theorem InRange.sub (h : InRange devSize s) (hs : Sub s p) : InRange devSize p := by
  have hbegin := hs.begin_le
  have hend := hs.end_le
  have hsize := h.size_lt
  refine ⟨(Nat.mul_le_mul_right lbs hend).trans h.end_le, ?_⟩
  rw [IndexedDiffRecord.endIoAddress, IndexedDiffRecord.endIoAddress] at hend
  omega

/-- What a call leaves in the index is part of what was there or of its own record. -/
theorem InRange.call (h : Written Z head calls w) (hZ : Z.Lawful) (hc : c.Valid Z)
    (hrec : InRange devSize (c.stored Z).1)
    (hw : ∀ p, p ∈ w.index → InRange devSize p) (hrun : c.run Z w = .ok w') :
    ∀ p, p ∈ w'.index → InRange devSize p := by
  obtain ⟨hstore, -⟩ := hc.stored_spec hZ
  rw [c.run_eq, IndexedDiffWriter.writeDiff, if_neg (by rw [h.opened]; decide)] at hrun
  generalize (c.stored Z).1 = rec at hstore hrec hrun
  generalize (c.stored Z).2 = data at hstore hrun
  obtain ⟨k, hk⟩ : ∃ k, (if rec.isNormal = true then IndexedDiffRecord.updateRecChecksum
      { rec with dataOffset := w.offset }
        else { rec with dataOffset := w.offset }) = placed w.fileW rec k := by
    rw [h.offset]
    split_ifs
    · exact ⟨_, rfl⟩
    · exact ⟨rec.recChecksum, rfl⟩
  have hstored := h.stored.append (Call.addedBytes rec data)
  obtain ⟨index, hadd, hgrown⟩ :=
    add_spec w.maxIoBlocks (good_placed hstore.good) hstored.wf hstored.good
  dsimp only at hrun
  rw [hk, hadd] at hrun
  cases hrun
  intro p hp
  have hplaced : InRange devSize (placed w.fileW rec k) := ⟨hrec.end_le, hrec.size_lt⟩
  rcases hgrown.origin p hp with hp | ⟨s, hs | rfl, hsub⟩
  · exact hw p hp
  · exact (hw s hs).sub hsub
  · exact hplaced.sub hsub

theorem InRange.runAll {more : List Call} (h : Written Z head calls w) (hZ : Z.Lawful)
    (hc : ∀ c, c ∈ more → c.Valid Z)
    (hrec : ∀ c, c ∈ more → InRange devSize (c.stored Z).1) (hw : ∀ p, p ∈ w.index → InRange devSize p)
    (hrun : runAll Z w more = .ok w') : ∀ p, p ∈ w'.index → InRange devSize p := by
  induction more generalizing calls w with
  | nil =>
      cases hrun
      exact hw
  | cons c more ih =>
      obtain ⟨hc₁, hc⟩ := List.forall_mem_cons.1 hc
      obtain ⟨hrec₁, hrec⟩ := List.forall_mem_cons.1 hrec
      obtain ⟨w₁, hrun₁, h₁⟩ := h.call hZ hc₁
      rw [IndexedWriter.runAll, hrun₁] at hrun
      exact ih h₁ hc hrec (InRange.call h hZ hc₁ hrec₁ hw hrun₁) hrun

theorem redoIndexed_eq {fuel : Nat} {reader : IndexedDiffReader} {cache : IndexedDiffCache}
    {data : Bytes} {e : SimpleDiffIoExecutor}
    {reads : List (IndexedDiffRecord × Bytes)}
    (h : IndexedReader.IndexedDiffReader.readLoop Z tag fuel reader cache data = .ok reads) :
    redoIndexed Z opt tag fuel reader cache data e =
      .ok (reads.foldl (fun e x => e.executeDiffIo opt x.1.ioAddress x.1.ioBlocks x.1.type x.2) e) := by
  induction fuel generalizing reader cache data e reads with
  | zero => cases h
  | succ fuel ih =>
      rw [IndexedReader.IndexedDiffReader.readLoop] at h
      rw [redoIndexed]
      cases hread : reader.readDiff Z tag cache data with
      | error err =>
          rw [hread] at h
          cases h
      | ok out =>
          rw [hread] at h
          obtain _ | ⟨rec, data', reader', cache'⟩ := out
          · cases h
            rfl
          · dsimp only at h ⊢
            cases hrest : IndexedReader.IndexedDiffReader.readLoop Z tag fuel reader' cache' data' with
            | error err =>
                rw [hrest] at h
                cases h
            | ok rest =>
                rw [hrest] at h
                cases h
                exact ih hrest

/-- A finished indexed diff, redone with zeros for discards, leaves the content of the IOs that
were written. -/
theorem run_indexed {header : DiffFileHeader} (hheader : header.Fits) (hdev : devSize < 2 ^ 64)
    (h : Written Z (indexedHeader header).toBytes calls w) (hsize : w.fileW.length + 8 ≤ 2 ^ 64)
    (hw : ∀ p, p ∈ w.index → InRange devSize p) :
    ∃ e, run Z ⟨false, true⟩ devSize w.finalize.fileW = .ok e ∧
      ∀ discarded img, DeviceIo.applyAll discarded img e.issued =
      write (bytesAt (content (calls.map (Call.io Z)))) img := by
  obtain ⟨body, super, hparted⟩ := IndexedReader.parted_of_written h hsize
  generalize w.finalize.fileW = file at hparted
  have hlen := hparted.length_eq
  have hread : ∃ rest, DiffFileHeader.readFrom file = .ok (indexedHeader header, rest) := by
    obtain ⟨pad, -, hbody⟩ := hparted.body_eq
    rw [hparted.file_eq, hbody, List.append_assoc, List.append_assoc, List.append_assoc]
    exact ⟨_, DiffFileHeader.readFrom_toBytes (fits_indexedHeader hheader) _⟩
  have hat : IndexedReader.At file w.index ⟨file, indexedHeader header, body.length,
      file.length - DiffIndexSuper.size, body.length⟩ := by
    refine ⟨rfl, ⟨super.toBytes, ?_⟩, by rw [hlen, Nat.add_sub_cancel]⟩
    rw [hparted.file_eq, List.append_assoc, List.drop_left]
  have hfuel : w.index.length < file.length + 1 := by
    have hrecord : IndexedDiffRecord.size = 48 := rfl
    rw [hrecord] at hlen
    omega
  have hright : IndexedReader.Right Z 0 file w.index ⟨32 * 2 ^ 20, []⟩ :=
    fun item hi => absurd hi List.not_mem_nil
  obtain ⟨reads, hloop, hreads⟩ :=
    IndexedReader.readLoop_spec hat hparted.stored (fun _ hr => hr) hparted.place hright hfuel []
  have hvalid : ∀ r, r ∈ w.index → (ioOf Z file r).Valid := by
    intro r hr
    obtain ⟨k, -, hk, -⟩ := hparted.stored.wf.aligned r hr
    exact (hparted.stored.good r hr).valid (by rw [hk]; exact Nat.two_pow_pos k)
  have hsteps : List.Forall₂ (fun r (x : IndexedDiffRecord × Bytes) => ∀ e : SimpleDiffIoExecutor,
      e.devSize = devSize →
        (e.executeDiffIo ⟨false, true⟩ x.1.ioAddress x.1.ioBlocks x.1.type x.2).devSize = devSize ∧
          (e.executeDiffIo ⟨false, true⟩ x.1.ioAddress x.1.ioBlocks x.1.type x.2).issued = e.issued ++
          [writeOf r])
        (w.index.map (ioOf Z file)) reads := by
    refine List.forall₂_map_left_iff.2 (((List.forall₂_and_left _ _).2 ⟨fun r hr => hr, hreads⟩).imp ?_)
    rintro r ⟨record, data⟩ ⟨hr, hrecord, hdata⟩ e rfl
    obtain rfl : r = record := hrecord.symm
    refine executeDiffIo_spec (hvalid r hr) ⟨(hw r hr).end_le, (hw r hr).size_lt⟩ hdev fun ht => ?_
    have hn := type_eq_normal.1 ht
    obtain ⟨image, himage, rfl⟩ := hdata hn
    have hio : (ioOf Z file r).io = LogicalBlock.ofBytes (sliceOf r image) := by
      rw [ioOf, recIo, ofBuf, isNormal_toRecord, if_pos hn, himage]
      rfl
    rw [hio, LogicalBlock.toBytes_ofBytes ((hparted.stored.good r hr).length_slice hn himage)]
  obtain ⟨rest, hread⟩ := hread
  have hindexed : (indexedHeader header).isIndexed = .ok true := rfl
  have hrun : run Z ⟨false, true⟩ devSize file = .ok (reads.foldl
      (fun e x => e.executeDiffIo ⟨false, true⟩ x.1.ioAddress x.1.ioBlocks x.1.type x.2) ⟨devSize,
        [], 0⟩) := by
    rw [run, hread]
    simp only [bind, Except.bind, Except.mapError, hindexed, if_true, hparted.setFile_eq hheader]
    rw [redoIndexed_eq hloop]
  refine ⟨_, hrun, fun discarded img => ?_⟩
  rw [foldl_spec hsteps (e := ⟨devSize, [], 0⟩) rfl, List.nil_append, ← hparted.content]
  exact applyAll_writeOf (List.forall_mem_map.2 hvalid) discarded img

end

end WalbTools.DiffRedo
