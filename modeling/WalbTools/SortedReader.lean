import WalbTools.IndexedReader

namespace WalbTools.SortedReader

open ByteMemory Layout DiffHeader DiffPack IndexedReader
open Queue (calcChecksum)

def WALB_DIFF_FLAG_ALLZERO_SHIFT : Nat := 1

def WALB_DIFF_FLAG_DISCARD_SHIFT : Nat := 2

def WALB_DIFF_PACK_END : Nat := 0

structure DiffRecord where
  ioAddress : Nat
  ioBlocks : Nat
  flags : Nat
  compressionType : Nat
  dataOffset : Nat
  dataSize : Nat
  checksum : Nat
  deriving DecidableEq

namespace DiffRecord

def size : Nat := 32

def init : DiffRecord := ⟨0, 0, 0, 0, 0, 0, 0⟩

def toBytes (r : DiffRecord) : Bytes :=
  layout [(8, r.ioAddress), (4, r.ioBlocks), (1, r.flags), (1, r.compressionType), (2, 0),
    (4, r.dataOffset), (4, r.dataSize),
    (4, r.checksum), (4, 0)]

def ofBytes (raw : Bytes) : DiffRecord :=
  match fields [8, 4, 1, 1, 2, 4, 4, 4] raw with
  | [ioAddress, ioBlocks, flags, compressionType, _, dataOffset, dataSize, checksum] =>
      ⟨ioAddress, ioBlocks, flags, compressionType, dataOffset, dataSize, checksum⟩
  | _ => init

def isAllZero (r : DiffRecord) : Bool := r.flags.testBit WALB_DIFF_FLAG_ALLZERO_SHIFT

def isDiscard (r : DiffRecord) : Bool := r.flags.testBit WALB_DIFF_FLAG_DISCARD_SHIFT

def isNormal (r : DiffRecord) : Bool := !r.isAllZero && !r.isDiscard

def isCompressed (r : DiffRecord) : Bool := decide (r.compressionType ≠ WALB_DIFF_CMPR_NONE)

def verify (r : DiffRecord) : Except String Unit :=
  if !r.isNormal then
    if r.isAllZero && r.isDiscard then .error "allzero and discard flag is exclusive" else .ok ()
  else if WALB_DIFF_CMPR_MAX ≤ r.compressionType then .error "compression type is invalid"
  else if r.ioBlocks = 0 then .error "io_blocks must not be 0"
  else .ok ()

structure Fits (r : DiffRecord) : Prop where
  ioAddress : r.ioAddress < 2 ^ 64
  ioBlocks : r.ioBlocks < 2 ^ 32
  flags : r.flags < 2 ^ 8
  compressionType : r.compressionType < 2 ^ 8
  dataOffset : r.dataOffset < 2 ^ 32
  dataSize : r.dataSize < 2 ^ 32
  checksum : r.checksum < 2 ^ 32

theorem length_toBytes (r : DiffRecord) : r.toBytes.length = size := length_layout

theorem ofBytes_toBytes {r : DiffRecord} (h : r.Fits) (rest : Bytes) :
    ofBytes (r.toBytes ++ rest) = r := by
  obtain ⟨ioAddress, ioBlocks, flags, compressionType, dataOffset, dataSize, checksum⟩ := r
  have hfit : Fit [(8, ioAddress), (4, ioBlocks), (1, flags), (1, compressionType), (2, 0),
      (4, dataOffset), (4, dataSize), (4, checksum)] := by
    simp only [Fit, List.forall_mem_cons]
    exact ⟨h.ioAddress, h.ioBlocks, h.flags, h.compressionType, by decide, h.dataOffset, h.dataSize,
      h.checksum,
      fun _ hf => absurd hf List.not_mem_nil⟩
  have hfields := fields_layout _ hfit (layout [(4, 0)] ++ rest)
  rw [← List.append_assoc, ← layout_append] at hfields
  rw [ofBytes, toBytes]
  change fields [8, 4, 1, 1, 2, 4, 4, 4] (layout _ ++ rest) = _ at hfields
  simp only [List.cons_append, List.nil_append, List.map_cons, List.map_nil] at hfields
  rw [hfields]

end DiffRecord

structure DiffPackHeader where
  raw : Bytes

namespace DiffPackHeader

def nRecords (pack : DiffPackHeader) : Nat := (fields [4, 2] pack.raw).getD 1 0

def flags (pack : DiffPackHeader) : Nat := (fields [4, 2, 1] pack.raw).getD 2 0

def isEnd (pack : DiffPackHeader) : Bool := pack.flags.testBit WALB_DIFF_PACK_END

def record (pack : DiffPackHeader) (i : Nat) : DiffRecord :=
  .ofBytes (pack.raw.drop (16 + DiffRecord.size * i))

def verify (pack : DiffPackHeader) : Except String Unit :=
  if calcChecksum pack.raw 0 ≠ 0 then .error "invalid checksum"
  else if MAX_N_RECORDS_IN_WALB_DIFF_PACK < pack.nRecords then .error "invalid n_recoreds"
  else (List.range pack.nRecords).forM fun i => (pack.record i).verify

end DiffPackHeader

/-- `fileR` holds the bytes from the position of the file on; without a pack the reader is at
its end. -/
structure SortedDiffReader where
  fileR : Bytes
  isReadHeader : Bool
  pack : Option DiffPackHeader

namespace SortedDiffReader

/-- What every constructor leaves, and `open`, `setFd` and `setFile`. -/
def setFile (file : Bytes) : SortedDiffReader :=
  ⟨file, false, some ⟨List.replicate WALB_DIFF_PACK_SIZE 0⟩⟩

/-- A file that stops within the header of a pack ends there. -/
def readPackHeader (r : SortedDiffReader) : Except String SortedDiffReader :=
  if r.fileR.length < WALB_DIFF_PACK_SIZE then .ok { r with fileR := [], pack := none }
  else
    let pack : DiffPackHeader := ⟨r.fileR.take WALB_DIFF_PACK_SIZE⟩
    match pack.verify with
    | .error e => .error e
    | .ok () =>
        .ok { r with
          fileR := r.fileR.drop WALB_DIFF_PACK_SIZE,
          pack := if pack.isEnd then none else some pack }

/-- The exception for a file of another type is built but not thrown, so the comparison has
no effect. -/
def readHeader (r : SortedDiffReader) (doReadPackHeader : Bool) :
    Except String (DiffFileHeader × SortedDiffReader) :=
  if r.isReadHeader then .error "Do not call readHeader() more than once."
  else
    match DiffFileHeader.readFrom r.fileR with
    | .error e => .error e
    | .ok (head, fileR) =>
        let r := { r with fileR := fileR, isReadHeader := true }
        if doReadPackHeader then r.readPackHeader.map fun r => (head, r) else .ok (head, r)

def dontReadHeader (r : SortedDiffReader) (doReadPackHeader : Bool) : Except String SortedDiffReader :=
  let r := { r with isReadHeader := true }
  if doReadPackHeader then r.readPackHeader else .ok r

end SortedDiffReader

inductive DiffReader where
  | sorted (r : SortedDiffReader)
  | indexed (r : IndexedDiffReader)

def openDiff (noCache : String) (hasCache : Bool) (file : Bytes) :
    Except String (DiffFileHeader × DiffReader) := do
  let (head, rest) ← DiffFileHeader.readFrom file
  if ← head.isIndexed then
    if !hasCache then .error noCache
    else return (head, .indexed (← IndexedDiffReader.setFile file))
  else return (head, .sorted (← (SortedDiffReader.setFile rest).dontReadHeader true))

def BothDiffReader.setFile (hasCache : Bool) (file : Bytes) :
    Except String (DiffFileHeader × DiffReader) :=
  openDiff "cache is not set for indexed reader." hasCache file

def DiffMerger.Wdiff.setFile (hasCache : Bool) (file : Bytes) :
    Except String (DiffFileHeader × DiffReader) :=
  openDiff "indexed diff cache must be specified." hasCache file

def IsKind (type : Nat) (file : Bytes) : Prop :=
  ∃ head rest, DiffFileHeader.readFrom file = .ok (head, rest) ∧ head.type = type

def DiffReader.type : DiffReader → Nat
  | .sorted _ => WALB_DIFF_TYPE_SORTED
  | .indexed _ => WALB_DIFF_TYPE_INDEXED

/-- No entry point takes the file as one of the other kind. -/
structure KindsApart (doReadPackHeader hasCache : Bool) (file : Bytes) : Prop where
  sorted : ∀ head r, (SortedDiffReader.setFile file).readHeader doReadPackHeader = .ok (head, r) →
    IsKind WALB_DIFF_TYPE_SORTED file
  indexed : ∀ r, IndexedDiffReader.setFile file = .ok r → IsKind WALB_DIFF_TYPE_INDEXED file
  both : ∀ head r, BothDiffReader.setFile hasCache file = .ok (head, r) → IsKind r.type file
  merger : ∀ head r, DiffMerger.Wdiff.setFile hasCache file = .ok (head, r) → IsKind r.type file

/-- The header is not that of a valid file of another type, unless the bytes behind it are
checked and are no pack header. -/
def Stopped (doReadPackHeader : Bool) (file : Bytes) : Prop :=
  ∀ head rest, DiffFileHeader.readFrom file = .ok (head, rest) → head.type = WALB_DIFF_TYPE_SORTED ∨
    doReadPackHeader = true ∧ WALB_DIFF_PACK_SIZE ≤ rest.length ∧
    (DiffPackHeader.mk (rest.take WALB_DIFF_PACK_SIZE)).verify ≠ .ok ()

variable {file : Bytes}

theorem isIndexed_eq_ok {h : DiffFileHeader} {b : Bool} (hb : h.isIndexed = .ok b) :
    h.type = if b then WALB_DIFF_TYPE_INDEXED else WALB_DIFF_TYPE_SORTED := by
  unfold DiffFileHeader.isIndexed at hb
  split_ifs at hb with hs hi
  · cases hb
    exact hs
  · cases hb
    exact hi

theorem setFile_isKind {r : IndexedDiffReader} (h : IndexedDiffReader.setFile file = .ok r) :
    IsKind WALB_DIFF_TYPE_INDEXED file := by
  unfold IndexedDiffReader.setFile at h
  cases hr : DiffFileHeader.readFrom file with
  | error e =>
      rw [hr] at h
      cases h
  | ok p =>
      obtain ⟨head, rest⟩ := p
      rw [hr] at h
      dsimp only at h
      split_ifs at h with ht
      exact ⟨head, rest, hr, not_not.mp ht⟩

/-- The readers for both kinds look at the type. -/
theorem openDiff_isKind {noCache : String} {hasCache : Bool} {head : DiffFileHeader} {r : DiffReader}
    (h : openDiff noCache hasCache file = .ok (head, r)) : IsKind r.type file := by
  unfold openDiff at h
  cases hr : DiffFileHeader.readFrom file with
  | error e =>
      rw [hr] at h
      cases h
  | ok p =>
      obtain ⟨head', rest⟩ := p
      rw [hr] at h
      cases hi : head'.isIndexed with
      | error e =>
          simp only [bind, Except.bind, hi] at h
          cases h
      | ok b =>
          have htype := isIndexed_eq_ok hi
          simp only [bind, Except.bind, hi, pure, Except.pure] at h
          cases b with
          | true =>
              cases hasCache with
              | false => cases h
              | true =>
                  cases hs : IndexedDiffReader.setFile file with
                  | error e =>
                      rw [hs] at h
                      cases h
                  | ok ir =>
                      rw [hs] at h
                      cases h
                      exact ⟨_, _, hr, htype⟩
          | false =>
              cases hs : (SortedDiffReader.setFile rest).dontReadHeader true with
              | error e =>
                  rw [hs] at h
                  cases h
              | ok sr =>
                  rw [hs] at h
                  cases h
                  exact ⟨_, _, hr, htype⟩

/-- What `readHeader` takes: any valid header, and what looks like a pack behind it. -/
theorem readHeader_eq_ok_iff (doReadPackHeader : Bool) :
    (∃ head r, (SortedDiffReader.setFile file).readHeader doReadPackHeader = .ok (head, r)) ↔
      ∃ head rest, DiffFileHeader.readFrom file = .ok (head, rest) ∧ (doReadPackHeader = true →
        rest.length < WALB_DIFF_PACK_SIZE ∨ (DiffPackHeader.mk
        (rest.take WALB_DIFF_PACK_SIZE)).verify = .ok ()) := by
  unfold SortedDiffReader.readHeader
  rw [if_neg (by simp [SortedDiffReader.setFile])]
  rw [show (SortedDiffReader.setFile file).fileR = file from rfl]
  cases hr : DiffFileHeader.readFrom file with
  | error e => simp
  | ok p =>
      obtain ⟨head, rest⟩ := p
      dsimp only
      cases doReadPackHeader with
      | false => simp
      | true =>
          rw [if_pos rfl, SortedDiffReader.readPackHeader]
          dsimp only
          by_cases hlen : rest.length < WALB_DIFF_PACK_SIZE
          · simp [hlen, Except.map]
          · rw [if_neg hlen]
            cases hv : (DiffPackHeader.mk (rest.take WALB_DIFF_PACK_SIZE)).verify with
            | error e => simp [hlen, hv, Except.map]
            | ok u => simp [hv, Except.map]

/-- Exactly when the kinds are kept apart: the reader of sorted files takes the header of any
type, so a file of another one has to fail behind its header. -/
theorem kindsApart_iff (doReadPackHeader hasCache : Bool) (file : Bytes) :
    KindsApart doReadPackHeader hasCache file ↔ Stopped doReadPackHeader file := by
  constructor
  · intro h head rest hr
    by_contra hc
    obtain ⟨htype, hpack⟩ := not_or.mp hc
    obtain ⟨head', r, hok⟩ :=
      (@readHeader_eq_ok_iff file doReadPackHeader).mpr ⟨head, rest, hr, fun hdo => by
      by_contra hn
      obtain ⟨hlen, hv⟩ := not_or.mp hn
      exact hpack ⟨hdo, not_lt.mp hlen, hv⟩⟩
    obtain ⟨head'', rest', hr', ht⟩ := h.sorted head' r hok
    cases hr.symm.trans hr'
    exact htype ht
  · intro h
    refine ⟨fun head r hok => ?_, fun r hok => setFile_isKind hok, fun head r hok => openDiff_isKind hok,
      fun head r hok => openDiff_isKind hok⟩
    obtain ⟨head', rest, hr, hpack⟩ := (readHeader_eq_ok_iff doReadPackHeader).mp ⟨head, r, hok⟩
    rcases h head' rest hr with ht | ⟨hdo, hlen, hv⟩
    · exact ⟨head', rest, hr, ht⟩
    · exact absurd (hpack hdo) (not_or.mpr ⟨not_lt.mpr hlen, hv⟩)

def indexedHead : DiffFileHeader := { DiffFileHeader.init with type := WALB_DIFF_TYPE_INDEXED }

/-- A short indexed file is taken as a sorted one without an IO. -/
theorem not_kindsApart : ¬∀ doReadPackHeader hasCache file,
    KindsApart doReadPackHeader hasCache file := by
  intro h
  have hfit : indexedHead.Fits := ⟨rfl, by decide, List.length_replicate⟩
  have hr := DiffFileHeader.readFrom_toBytes hfit []
  obtain ⟨head, r, hok⟩ := (readHeader_eq_ok_iff true).mpr ⟨_, _, hr, fun _ => .inl (by decide)⟩
  obtain ⟨head', rest, hr', ht⟩ := (h true true _).sorted head r hok
  cases hr.symm.trans hr'
  exact absurd ht (by decide)

end WalbTools.SortedReader
