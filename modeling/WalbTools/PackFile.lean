import WalbTools.SortedFile

namespace WalbTools.PackFile

open ByteMemory Layout DiffIo DiffPack DiffHeader Compression SortedFile
open LogicalBlock (toBytes ofBytes)
open Queue (calcChecksum)

def flagsOf : DiffRecType → Nat
  | .normal => 0
  | .allZero => 2 ^ 1
  | .discard => 2 ^ 2

def typeOf (r : SortedReader.DiffRecord) : DiffRecType :=
  if r.isNormal then .normal else if r.isDiscard then .discard else .allZero

def recordBlock (r : PackRecord) : SortedReader.DiffRecord :=
  ⟨r.ioAddress, r.ioBlocks, flagsOf r.type, r.compressionType, r.dataOffset, r.dataSize, r.checksum⟩

def headerOf (p : Pack) : DiffPackHeader := ⟨p.records.map recordBlock, 0, p.totalSize⟩

def packBytes (p : Pack) : Bytes := (headerOf p).toBytes ++ p.data

section Verify

def totalSize (pack : SortedReader.DiffPackHeader) : Nat := (fields [4, 2, 1, 1, 4] pack.raw).getD 4 0

def verifyData (buf : Bytes) (r : SortedReader.DiffRecord) : Except String Unit :=
  if buf.length < WALB_DIFF_PACK_SIZE + r.dataOffset + r.dataSize then .error "data_size out of range"
  else if r.isNormal ∧ calcChecksum ((buf.drop (WALB_DIFF_PACK_SIZE + r.dataOffset)).take
    r.dataSize) 0 ≠ r.checksum then
    .error "invalid checksum"
  else .ok ()

def verifyDiffPack (buf : Bytes) : Except String Unit :=
  let pack : SortedReader.DiffPackHeader := ⟨buf.take WALB_DIFF_PACK_SIZE⟩
  if buf.length ≠ WALB_DIFF_PACK_SIZE + totalSize pack then .error "invalid pack size"
  else do
    pack.verify
    (List.range pack.nRecords).forM fun i => verifyData buf (pack.record i)

def verifyDiffPackSize (size : Nat) : Except String Unit :=
  if WALB_DIFF_PACK_SIZE + WALB_DIFF_PACK_MAX_SIZE < size then .error "too large pack size" else .ok ()

end Verify

/-- The data of the records stands one behind the other and is what they say, and the fields
have the widths of a block's. -/
structure Exact (p : Pack) : Prop where
  count : p.records.length ≤ MAX_N_RECORDS_IN_WALB_DIFF_PACK
  totalSize : p.totalSize = p.data.length
  size_le : p.data.length ≤ WALB_DIFF_PACK_MAX_SIZE
  checked : ∀ r, r ∈ p.records → Checked p.data r
  placed : Placed p.data.length 0 p.records
  fits : ∀ r, r ∈ p.records → (recordBlock r).Fits

def itemsOf : List PackRecord → Bytes → List Item
  | [], _ => []
  | r :: rs, data => (recordBlock r, data.take r.dataSize) :: itemsOf rs (data.drop r.dataSize)

/-- What is read of a file is this IO. -/
structure Carries (p : DiffRecIo LogicalBlock) (x : Item) : Prop where
  ioAddress : x.1.ioAddress = p.record.ioAddress
  ioBlocks : x.1.ioBlocks = p.record.ioBlocks
  type : typeOf x.1 = p.record.type
  data : x.2 = toBytes p.io

section Flags

variable {r : SortedReader.DiffRecord} {t : DiffRecType}

theorem flagsOf_lt (t : DiffRecType) : flagsOf t < 2 ^ 8 := by cases t <;> decide

theorem isNormal_flagsOf (h : r.flags = flagsOf t) : r.isNormal = decide (t = .normal) := by
  rw [SortedReader.DiffRecord.isNormal, SortedReader.DiffRecord.isAllZero,
    SortedReader.DiffRecord.isDiscard, h]
  cases t <;> decide

theorem typeOf_flagsOf (h : r.flags = flagsOf t) : typeOf r = t := by
  rw [typeOf, isNormal_flagsOf h, SortedReader.DiffRecord.isDiscard, h]
  cases t <;> decide

/-- A record that carries no data passes with the flags of its kind. -/
theorem verify_of_not_normal (h : r.flags = flagsOf t) (ht : t ≠ .normal) : r.verify = .ok () := by
  have hn : r.isNormal = false := (isNormal_flagsOf h).trans (decide_eq_false ht)
  have hflags : (r.isAllZero && r.isDiscard) = false := by
    rw [SortedReader.DiffRecord.isAllZero, SortedReader.DiffRecord.isDiscard, h]
    cases t <;> decide
  rw [SortedReader.DiffRecord.verify, hn, if_pos (by decide), hflags, if_neg (by decide)]

end Flags

section Record

variable {r : PackRecord}

theorem isNormal_recordBlock (r : PackRecord) :
    (recordBlock r).isNormal = decide (r.type = .normal) := isNormal_flagsOf rfl

theorem verify_recordBlock (h : r.verify = .ok ()) : (recordBlock r).verify = .ok () := by
  by_cases ht : r.type = .normal
  · have hn := isNormal_recordBlock r
    rw [decide_eq_true ht] at hn
    rw [PackRecord.verify, if_neg (not_not.2 ht)] at h
    split_ifs at h with hcmpr hblocks
    exact (verify_iff hn).2 ⟨not_le.1 hcmpr, hblocks⟩
  · exact verify_of_not_normal rfl ht

end Record

section Items

variable {e off : Nat} {rs : List PackRecord} {data : Bytes}

theorem place_itemsOf (h : Placed e off rs) (he : e < 2 ^ 32) (data : Bytes) :
    place off (itemsOf rs data) = rs.map recordBlock := by
  induction rs generalizing off data with
  | nil => rfl
  | cons r rs ih =>
      obtain ⟨hoff, h⟩ := h
      have hle := h.le
      rw [itemsOf, place, List.map_cons]
      dsimp only [recordBlock]
      rw [Nat.mod_eq_of_lt (by omega), ih h, hoff]

theorem totalOf_itemsOf (h : Placed e off rs) (he : e < 2 ^ 32) (data : Bytes) :
    totalOf off (itemsOf rs data) = e := by
  induction rs generalizing off data with
  | nil => exact h
  | cons r rs ih =>
      obtain ⟨-, h⟩ := h
      have hle := h.le
      rw [itemsOf, totalOf, List.foldl_cons, ← totalOf]
      dsimp only [recordBlock]
      rw [Nat.mod_eq_of_lt (by omega), ih h]

theorem flatten_itemsOf (h : Placed e off rs) (hdata : off + data.length = e) :
    ((itemsOf rs data).map Prod.snd).flatten = data := by
  induction rs generalizing off data with
  | nil =>
      have hoff : off = e := h
      have hnil : data = [] := List.eq_nil_of_length_eq_zero (by omega)
      rw [hnil]
      rfl
  | cons r rs ih =>
      obtain ⟨-, h⟩ := h
      have hle := h.le
      rw [itemsOf, List.map_cons, List.flatten_cons, ih h (by rw [List.length_drop]; omega),
        List.take_append_drop]

theorem calcDiffIoChecksum_eq (d : Bytes) : calcDiffIoChecksum d = calcChecksum d 0 := by
  rw [calcDiffIoChecksum]
  split_ifs with hd
  · rw [hd]
    rfl
  · rfl

theorem ready_itemsOf (hchecked : ∀ r, r ∈ rs → Checked data r) (hplaced : Placed data.length off rs)
    (hfits : ∀ r, r ∈ rs → (recordBlock r).Fits) :
    ∀ x, x ∈ itemsOf rs (data.drop off) → Ready x.1 x.2 := by
  induction rs generalizing off with
  | nil => exact fun _ hx => absurd hx List.not_mem_nil
  | cons r rs ih =>
      rw [List.forall_mem_cons] at hchecked hfits
      obtain ⟨hoff, hplaced⟩ := hplaced
      obtain ⟨hr, hrs⟩ := hchecked
      have hinside := hr.inside
      rw [itemsOf, List.drop_drop]
      refine List.forall_mem_cons.2 ⟨⟨hfits.1, verify_recordBlock hr.verify, ?_, fun hn => ?_,
        fun hn => ?_⟩,
        ih hrs hplaced hfits.2⟩
      · change r.dataSize = ((data.drop off).take r.dataSize).length
        rw [List.length_take, List.length_drop]
        omega
      · rw [isNormal_recordBlock, decide_eq_true_eq] at hn
        have hsum := hr.checksum hn
        rw [hoff] at hsum
        rw [calcDiffIoChecksum_eq]
        exact hsum.symm
      · rw [isNormal_recordBlock, decide_eq_false_iff_not] at hn
        change (data.drop off).take r.dataSize = []
        rw [hr.dataSize_zero hn, List.take_zero]

end Items

section Pack

variable {p : Pack}

theorem Exact.length_lt (h : Exact p) : p.data.length < 2 ^ 32 := h.size_le.trans_lt (by decide)

theorem Exact.packOf_eq (h : Exact p) : packOf (itemsOf p.records p.data) = headerOf p := by
  rw [packOf, place_itemsOf h.placed h.length_lt, totalOf_itemsOf h.placed h.length_lt, headerOf,
    h.totalSize]

theorem Exact.chunkBytes_eq (h : Exact p) : chunkBytes (itemsOf p.records p.data) = packBytes p := by
  rw [chunkBytes, h.packOf_eq, flatten_itemsOf h.placed (Nat.zero_add _), packBytes]

theorem length_itemsOf (rs : List PackRecord) (data : Bytes) : (itemsOf rs data).length = rs.length := by
  induction rs generalizing data with
  | nil => rfl
  | cons r rs ih => rw [itemsOf, List.length_cons, ih, List.length_cons]

theorem Exact.chunk (h : Exact p) : Chunk (itemsOf p.records p.data) where
  length := by
    rw [length_itemsOf]
    exact h.count
  ready := ready_itemsOf h.checked h.placed h.fits

theorem Exact.fits_headerOf (h : Exact p) : (headerOf p).Fits := h.packOf_eq ▸ h.chunk.fits

theorem totalSize_toBytes {q : DiffPackHeader} (h : q.Fits) : totalSize ⟨q.toBytes⟩ = q.totalSize := by
  obtain ⟨c, hfields⟩ := DiffPackHeader.fields_toBytes h
  simp only [fields, List.cons.injEq] at hfields
  exact hfields.2.2.2.2.1

theorem length_packBytes (h : Exact p) : (packBytes p).length = p.size := by
  rw [packBytes, List.length_append, DiffPackHeader.length_toBytes h.fits_headerOf, Pack.size]

theorem verifyData_packBytes (h : Exact p) {r : PackRecord} (hr : r ∈ p.records) :
    verifyData (packBytes p) (recordBlock r) = .ok () := by
  have hlen := length_packBytes h
  have hc := h.checked r hr
  have hinside := hc.inside
  have hdrop : (packBytes p).drop (WALB_DIFF_PACK_SIZE + r.dataOffset) = p.data.drop r.dataOffset := by
    rw [← List.drop_drop, packBytes, List.drop_left' (DiffPackHeader.length_toBytes h.fits_headerOf)]
  rw [verifyData, isNormal_recordBlock, if_neg, if_neg]
  · dsimp only [recordBlock]
    rw [hdrop, decide_eq_true_eq]
    exact fun hn => hn.2 (hc.checksum hn.1)
  · dsimp only [recordBlock]
    rw [hlen, Pack.size]
    omega

theorem verifyDiffPack_packBytes (h : Exact p) :
    verifyDiffPackSize (packBytes p).length = .ok () ∧ verifyDiffPack (packBytes p) = .ok () := by
  have hfits := h.fits_headerOf
  have hlen := length_packBytes h
  have hsize := h.size_le
  have htake : (packBytes p).take WALB_DIFF_PACK_SIZE = (headerOf p).toBytes :=
    List.take_left' (DiffPackHeader.length_toBytes hfits)
  have hverify : ∀ r, r ∈ (headerOf p).records → r.verify = .ok () := by
    intro r hr
    obtain ⟨r', hr', rfl⟩ := List.mem_map.1 hr
    exact verify_recordBlock (h.checked r' hr').verify
  refine ⟨?_, ?_⟩
  · rw [verifyDiffPackSize, hlen, Pack.size, if_neg (by omega)]
  · rw [verifyDiffPack]
    rw [htake, totalSize_toBytes hfits, if_neg, DiffPackHeader.verify_toBytes hfits hverify,
      DiffPackHeader.nRecords_toBytes hfits]
    · change (List.range (headerOf p).records.length).forM _ = _
      have hall : ∀ is : List Nat, (∀ i, i ∈ is → i < (headerOf p).records.length) →
          is.forM (fun i => verifyData (packBytes p) ((SortedReader.DiffPackHeader.mk
          (headerOf p).toBytes).record i)) = .ok () := by
        intro is his
        induction is with
        | nil => rfl
        | cons i is ih =>
            have hi := his i List.mem_cons_self
            have hat := record_eq_of_recordAt (DiffPackHeader.recordAt_toBytes hfits hi)
            obtain ⟨r, hr, hrec⟩ := List.mem_map.1 (List.getElem_mem hi)
            rw [List.forM_eq_forM, List.forM_cons, hat.trans hrec.symm, verifyData_packBytes h hr]
            exact ih fun j hj => his j (List.mem_cons_of_mem i hj)
      exact hall _ fun i hi => List.mem_range.1 hi
    · rw [hlen, Pack.size]
      exact not_not.2 (congrArg _ h.totalSize.symm)

end Pack

section Convert

variable {C : Codec} {type : Nat} {p : Pack} {ios : List (DiffRecIo LogicalBlock)}

theorem readIo_spec {r : PackRecord} {data : Bytes} {io : DiffRecIo LogicalBlock}
    (h : readIo C r data = .ok io) :
    io.record.ioAddress = r.ioAddress ∧ io.record.ioBlocks = r.ioBlocks ∧ io.record.type = r.type := by
  rw [readIo] at h
  split_ifs at h
  · cases h
    exact ⟨rfl, rfl, rfl⟩
  · cases h
    exact ⟨rfl, rfl, rfl⟩
  · split at h
    · cases h
    · split_ifs at h
      cases h
      exact ⟨rfl, rfl, rfl⟩

structure Narrow (io : DiffRecIo LogicalBlock) : Prop where
  ioAddress : io.record.ioAddress < 2 ^ 64
  ioBlocks : io.record.ioBlocks < 2 ^ 23

theorem narrow_of_readIos {rs : List PackRecord} {data : Bytes} (h : readIos C rs data = .ok ios)
    (hios : ∀ io, io ∈ ios → Narrow io) : ∀ r, r ∈ rs → r.ioAddress < 2 ^ 64 ∧ r.ioBlocks < 2 ^ 23 := by
  induction rs generalizing data ios with
  | nil => exact fun _ hr => absurd hr List.not_mem_nil
  | cons r rs ih =>
      obtain ⟨io, ios', hio, hrest, rfl⟩ := readIos_cons h
      rw [List.forall_mem_cons] at hios
      obtain ⟨haddr, hblocks, -⟩ := readIo_spec hio
      exact List.forall_mem_cons.2 ⟨⟨haddr ▸ hios.1.ioAddress, hblocks ▸ hios.1.ioBlocks⟩,
        ih hrest hios.2⟩

/-- What the compressor makes of a pack is exact. -/
theorem exact_convertAs (hC : C.Lawful) (htype : type < WALB_DIFF_CMPR_MAX) (hN : C.Copies type)
    (h : Holds p ios)
    (hios : ∀ io, io ∈ ios → Narrow io) : Exact (PackCompressor.convertAs C type p) := by
  obtain ⟨haccepted, hchecked, hplaced, hcmpr, hcount, hread⟩ := h.convertAs hC htype hN
  have hnarrow := narrow_of_readIos hread hios
  have hsize := haccepted.1
  have hsame : (PackCompressor.convertAs C type p).totalSize =
    (PackCompressor.convertAs C type p).data.length % 2 ^ 32 := rfl
  generalize PackCompressor.convertAs C type p = q at *
  rw [Pack.verifyDiffPackSize, Pack.size] at hsize
  split_ifs at hsize with hlarge
  have hle : q.data.length ≤ WALB_DIFF_PACK_MAX_SIZE := by omega
  have hlt : q.data.length < 2 ^ 32 := hle.trans_lt (by decide)
  refine ⟨hcount.le.trans h.count, hsame.trans (Nat.mod_eq_of_lt hlt), hle, hchecked, hplaced,
    fun r hr => ?_⟩
  obtain ⟨htypes, hsum⟩ := hcmpr r hr
  have hinside := (hchecked r hr).inside
  refine ⟨(hnarrow r hr).1, (hnarrow r hr).2.trans (by decide), ?_, ?_, ?_, ?_, hsum⟩
  · exact flagsOf_lt _
  · change r.compressionType < 2 ^ 8
    have hmax : WALB_DIFF_CMPR_MAX = 6 := rfl
    have hnone : WALB_DIFF_CMPR_NONE = 0 := rfl
    omega
  · change r.dataOffset < 2 ^ 32
    omega
  · change r.dataSize < 2 ^ 32
    omega

end Convert

section Read

variable {Z : Codecs} {C : Codec} {type : Nat} {ios : List (DiffRecIo LogicalBlock)}

/-- The reader of a file makes of a record what the reader of its pack does. -/
theorem uncompressed_recordBlock (hZ : type ≠ WALB_DIFF_CMPR_NONE →
    C.uncompress = Z.uncompress type) {r : PackRecord}
    {data : Bytes} (htype : r.compressionType = type ∨ r.compressionType = WALB_DIFF_CMPR_NONE)
    (hlen : data.length = r.dataSize) (hzero : r.type ≠ .normal → r.dataSize = 0)
    {io : DiffRecIo LogicalBlock}
    (hvalid : io.Valid) (hnarrow : Narrow io) (h : readIo C r data = .ok io) (b : Bool) :
    ∃ x, SortedDiffReader.uncompressed Z b (recordBlock r) data = .ok x ∧ Carries io x := by
  obtain ⟨haddr, hblocks, htypes⟩ := readIo_spec h
  have hlt := hnarrow.ioBlocks
  have hkind : ∀ n c d, typeOf { recordBlock r with
      dataSize := n, compressionType := c, checksum := d } = io.record.type :=
    fun _ _ _ => (typeOf_flagsOf rfl).trans htypes.symm
  rw [SortedDiffReader.uncompressed, isNormal_recordBlock, SortedReader.DiffRecord.isCompressed]
  rw [readIo] at h
  by_cases ht : r.type = .normal
  · rw [if_neg (not_not.2 ht)] at h
    rw [decide_eq_true ht, Bool.not_true, Bool.false_or]
    by_cases hn : r.compressionType = WALB_DIFF_CMPR_NONE
    · rw [if_pos hn] at h
      cases h
      have hsize : data.length = r.ioBlocks * lbs := hlen.trans (hvalid.dataSize ht)
      have hplain : (recordBlock r).compressionType = WALB_DIFF_CMPR_NONE := hn
      rw [if_pos (by rw [hplain]; decide)]
      exact ⟨_, rfl, rfl, rfl, typeOf_flagsOf rfl, (LogicalBlock.toBytes_ofBytes hsize).symm⟩
    · have hnot : type ≠ WALB_DIFF_CMPR_NONE :=
        fun hnone => hn (htype.elim (fun ht => ht.trans hnone) id)
      have hcompressed : (recordBlock r).compressionType ≠ WALB_DIFF_CMPR_NONE := hn
      rw [if_neg hn, hZ hnot] at h
      have hmod : r.ioBlocks * lbs % 2 ^ 32 = r.ioBlocks * lbs := by
        rw [lbs]
        omega
      rw [if_neg (by rw [decide_eq_true hcompressed]; decide), uncompressDiffIo]
      dsimp only [recordBlock]
      rw [hmod, ← hlen, List.take_length, uncompressData, if_neg hn, htype.resolve_right hn]
      cases hout : Z.uncompress type data with
      | none =>
          rw [hout] at h
          cases h
      | some out =>
          rw [hout] at h
          dsimp only at h ⊢
          split_ifs at h with hsize
          cases h
          rw [if_pos hsize]
          exact ⟨_, rfl, rfl, rfl, typeOf_flagsOf rfl, (LogicalBlock.toBytes_ofBytes hsize).symm⟩
  · rw [if_pos ht] at h
    cases h
    have hnil : data = [] := List.eq_nil_of_length_eq_zero (hlen.trans (hzero ht))
    rw [decide_eq_false ht, Bool.not_false, Bool.true_or, if_pos rfl]
    exact ⟨_, rfl, rfl, rfl, typeOf_flagsOf rfl, hnil⟩

theorem mapM_itemsOf (hZ : type ≠ WALB_DIFF_CMPR_NONE → C.uncompress = Z.uncompress type)
    {rs : List PackRecord}
    {data : Bytes} {off : Nat} (hchecked : ∀ r, r ∈ rs → Checked data r)
    (hplaced : Placed data.length off rs)
    (htype : ∀ r, r ∈ rs → r.compressionType = type ∨ r.compressionType = WALB_DIFF_CMPR_NONE)
    (hios : ∀ io, io ∈ ios → io.Valid ∧ Narrow io) (h : readIos C rs (data.drop off) = .ok ios)
    (b : Bool) :
    ∃ outs, (itemsOf rs (data.drop off)).mapM (fun x => SortedDiffReader.uncompressed Z b x.1 x.2) =
      .ok outs ∧
      List.Forall₂ Carries ios outs := by
  induction rs generalizing off ios with
  | nil =>
      cases h
      exact ⟨[], rfl, .nil⟩
  | cons r rs ih =>
      obtain ⟨io, ios', hio, hrest, rfl⟩ := readIos_cons h
      rw [List.forall_mem_cons] at hchecked htype hios
      obtain ⟨hoff, hplaced⟩ := hplaced
      have hinside := hchecked.1.inside
      have hlen : ((data.drop off).take r.dataSize).length = r.dataSize := by
        rw [List.length_take, List.length_drop]
        omega
      rw [List.drop_drop] at hrest
      obtain ⟨x, hx, hcarries⟩ :=
        uncompressed_recordBlock hZ htype.1 hlen hchecked.1.dataSize_zero hios.1.1 hios.1.2 hio b
      obtain ⟨outs, houts, hcarry⟩ := ih hchecked.2 hplaced htype.2 hios.2 hrest
      refine ⟨x :: outs, ?_, .cons hcarries hcarry⟩
      rw [itemsOf, List.drop_drop, List.mapM_cons, hx, houts]
      rfl

/-- A pack that the server accepts and the reader of the file reads as `ios`. -/
structure Delivers (Z : Codecs) (p : Pack) (ios : List (DiffRecIo LogicalBlock)) : Prop where
  exact : Exact p
  ne_nil : p.records ≠ []
  read : ∀ b, ∃ outs, (itemsOf p.records p.data).mapM (fun x =>
    SortedDiffReader.uncompressed Z b x.1 x.2) = .ok outs ∧
    List.Forall₂ Carries ios outs

theorem delivers_convertAs (hC : C.Lawful) (htype : type < WALB_DIFF_CMPR_MAX) (hN : C.Copies type)
    (hZ : type ≠ WALB_DIFF_CMPR_NONE → C.uncompress = Z.uncompress type) {p : Pack} (h : Holds p ios)
    (hne : p.records ≠ []) (hios : ∀ io, io ∈ ios → Narrow io) :
    Delivers Z (PackCompressor.convertAs C type p) ios := by
  obtain ⟨-, hchecked, hplaced, hcmpr, hcount, hread⟩ := h.convertAs hC htype hN
  refine ⟨exact_convertAs hC htype hN h hios, fun hnil => hne ?_, fun b => ?_⟩
  · rw [hnil] at hcount
    exact List.eq_nil_of_length_eq_zero hcount.symm
  · exact mapM_itemsOf hZ hchecked hplaced (fun r hr => (hcmpr r hr).1)
      (fun io hio => ⟨h.valid io hio, hios io hio⟩) hread b

theorem mapM_delivers {packs : List Pack} {iss : List (List (DiffRecIo LogicalBlock))}
    (h : List.Forall₂ (Delivers Z) packs iss) (b : Bool) :
    ∃ outs, (packs.map fun p => itemsOf p.records p.data).flatten.mapM
        (fun x => SortedDiffReader.uncompressed Z b x.1 x.2) = .ok outs ∧
          List.Forall₂ Carries iss.flatten outs := by
  induction h with
  | nil => exact ⟨[], rfl, .nil⟩
  | @cons p ios packs iss hp _ ih =>
      obtain ⟨outs, houts, hcarries⟩ := hp.read b
      obtain ⟨rest, hrest, hcarry⟩ := ih
      refine ⟨outs ++ rest, ?_, List.rel_append hcarries hcarry⟩
      rw [List.map_cons, List.flatten_cons, List.mapM_append, houts, hrest]
      rfl

/-- A header, packs and the end of the file are read as the IOs that the packs hold. -/
theorem readAll_packs {header : DiffFileHeader} (hheader : header.Fits) {packs : List Pack}
    {iss : List (List (DiffRecIo LogicalBlock))} (h : List.Forall₂ (Delivers Z) packs iss) (b : Bool) :
    ∃ r outs, (SortedDiffReader.setFile (header.toBytes ++ packs.flatMap packBytes ++
      eofBytes)).readHeader = .ok (header, r) ∧
      SortedDiffReader.readAll Z b (header.toBytes ++ packs.flatMap packBytes ++ eofBytes) =
      (outs, .ok ()) ∧
      List.Forall₂ Carries iss.flatten outs := by
  have hall : ∀ p, p ∈ packs → Exact p ∧ p.records ≠ [] := by
    intro p hp
    obtain ⟨i, hi, rfl⟩ := List.mem_iff_getElem.1 hp
    have hd := h.get hi (h.length_eq ▸ hi)
    exact ⟨hd.exact, hd.ne_nil⟩
  have hchunks : ∀ c, c ∈ packs.map (fun p => itemsOf p.records p.data) → c ≠ [] ∧ Chunk c := by
    intro c hc
    obtain ⟨p, hp, rfl⟩ := List.mem_map.1 hc
    refine ⟨fun hnil => (hall p hp).2 ?_, (hall p hp).1.chunk⟩
    have hlen := length_itemsOf p.records p.data
    rw [hnil] at hlen
    exact List.eq_nil_of_length_eq_zero hlen.symm
  have hbytes : (packs.map fun p => itemsOf p.records p.data).flatMap chunkBytes =
      packs.flatMap packBytes := by
    rw [List.flatMap_map]
    exact List.flatMap_congr fun p hp => (hall p hp).1.chunkBytes_eq
  obtain ⟨outs, houts, hcarries⟩ := mapM_delivers h b
  obtain ⟨r, hread, hahead⟩ := readHeader_chunks hheader hchunks []
  have hlen := length_chunks _ hchunks
  rw [List.append_nil, hbytes] at hread
  rw [hbytes] at hlen
  have hfuel : (packs.map fun p => itemsOf p.records p.data).flatten.length <
      (header.toBytes ++ packs.flatMap packBytes ++ eofBytes).length + 1 := by
    rw [List.length_append, List.length_append]
    omega
  generalize header.toBytes ++ packs.flatMap packBytes ++ eofBytes = file at hread hfuel ⊢
  obtain ⟨hforget, hend⟩ := hahead.readLoop houts hfuel
  refine ⟨r, (SortedDiffReader.readLoop Z b (file.length + 1) r).1, hread, ?_, ?_⟩
  · rw [SortedDiffReader.readAll, hread]
    exact Prod.ext rfl hend
  · have houts' : List.Forall₂ Carries iss.flatten (outs.map forget) :=
      List.forall₂_map_right_iff.2 (hcarries.imp fun _ _ h => ⟨h.ioAddress, h.ioBlocks, h.type, h.data⟩)
    rw [← hforget] at houts'
    exact (List.forall₂_map_right_iff.1 houts').imp fun _ _ h =>
      ⟨h.ioAddress, h.ioBlocks, h.type, h.data⟩

end Read

end WalbTools.PackFile
