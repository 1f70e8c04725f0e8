import WalbTools.IndexedRecord

namespace WalbTools.IndexedRecord

open Overlay ByteMemory DiffIo DiffMem DiffPack Compression Layout Checksum IndexedDiffRecord
open DiffIo.DiffRecIo (Valid Piece Before piece_of_valid)
open Queue (calcChecksum)

def toRecord (r : IndexedDiffRecord) : DiffRecord :=
  ⟨r.ioAddress, r.ioBlocks, if r.isNormal then r.ioBlocks * lbs % 2 ^ 32 else 0, r.type⟩

def recIo (r : IndexedDiffRecord) (data : Bytes) : DiffRecIo LogicalBlock :=
  ofBuf (toRecord r) (LogicalBlock.ofBytes data)

def region (file : Bytes) (r : IndexedDiffRecord) : Bytes := (file.drop r.dataOffset).take r.dataSize

/-- The part of the uncompressed data that a record stands for. -/
def sliceOf (r : IndexedDiffRecord) (image : Bytes) : Bytes :=
  (image.drop (r.ioOffset * lbs % 2 ^ 32)).take (r.ioBlocks * lbs % 2 ^ 32)

section

variable (Z : Codecs)

def imageOf (file : Bytes) (r : IndexedDiffRecord) : Except String Bytes :=
  uncompressData Z (region file r) (r.origBlocks * lbs % 2 ^ 32) r.compressionType

def ioOf (file : Bytes) (r : IndexedDiffRecord) : DiffRecIo LogicalBlock :=
  recIo r (sliceOf r ((imageOf Z file r).toOption.getD []))

structure Good (file : Bytes) (r : IndexedDiffRecord) : Prop where
  exclusive : (r.isAllZero && r.isDiscard) = false
  cmpr : r.isNormal = true → r.compressionType < WALB_DIFF_CMPR_MAX
  pos : r.isNormal = true → 0 < r.dataSize
  inside : r.isNormal = true → r.dataOffset + r.dataSize ≤ file.length
  checksum : r.isNormal = true → calcChecksum (region file r) 0 = r.ioChecksum
  range : r.isNormal = true → r.ioOffset + r.ioBlocks ≤ r.origBlocks
  width : r.isNormal = true → r.origBlocks * lbs < 2 ^ 32
  image : r.isNormal = true → ∃ image, imageOf Z file r = .ok image

end

variable {Z : Codecs} {file : Bytes} {r p : IndexedDiffRecord} {index : List IndexedDiffRecord} {a : Nat}

theorem uncompressData_length {inData out : Bytes} {n t : Nat}
    (h : uncompressData Z inData n t = .ok out) : out.length = n := by
  rw [uncompressData] at h
  split_ifs at h with ht hn
  · cases h
    exact hn
  · cases henc : Z.uncompress t inData with
    | none =>
        rw [henc] at h
        cases h
    | some o =>
        rw [henc] at h
        dsimp only at h
        split_ifs at h with hn
        cases h
        exact hn

theorem type_eq_normal : r.type = .normal ↔ r.isNormal = true := by
  rw [IndexedDiffRecord.type]
  split_ifs with h₁ h₂
  · exact iff_of_true rfl h₁
  · exact iff_of_false nofun h₁
  · exact iff_of_false nofun h₁

theorem isNormal_toRecord : (toRecord r).isNormal = r.isNormal := by
  rw [DiffRecord.isNormal, toRecord, Bool.eq_iff_iff, decide_eq_true_eq]
  exact type_eq_normal

theorem Good.length_image (h : Good Z file r) (hn : r.isNormal = true) {image : Bytes}
    (hi : imageOf Z file r = .ok image) :
    image.length = r.origBlocks * lbs := by
  rw [uncompressData_length hi, Nat.mod_eq_of_lt (h.width hn)]

theorem Good.mul_lt (h : Good Z file r) (hn : r.isNormal = true) {n : Nat}
    (hle : n ≤ r.ioOffset + r.ioBlocks) :
    n * lbs < 2 ^ 32 := by
  have hr := h.range hn
  have hw := h.width hn
  exact (Nat.mul_le_mul_right lbs (hle.trans hr)).trans_lt hw

theorem Good.sliceOf_eq (h : Good Z file r) (hn : r.isNormal = true) (image : Bytes) :
    LogicalBlock.ofBytes (sliceOf r image) = ((LogicalBlock.ofBytes image).drop r.ioOffset).take
      r.ioBlocks := by
  rw [sliceOf, Nat.mod_eq_of_lt (h.mul_lt hn (Nat.le_add_right _ _)),
    Nat.mod_eq_of_lt (h.mul_lt hn (Nat.le_add_left _ _)),
    LogicalBlock.drop_ofBytes, LogicalBlock.take_ofBytes]

theorem Good.length_slice (h : Good Z file r) (hn : r.isNormal = true) {image : Bytes}
    (hi : imageOf Z file r = .ok image) :
    (sliceOf r image).length = r.ioBlocks * lbs := by
  have hlen := h.length_image hn hi
  have hr := Nat.mul_le_mul_right lbs (h.range hn)
  rw [Nat.add_mul] at hr
  rw [sliceOf, Nat.mod_eq_of_lt (h.mul_lt hn (Nat.le_add_right _ _)),
    Nat.mod_eq_of_lt (h.mul_lt hn (Nat.le_add_left _ _)),
    List.length_take, List.length_drop]
  omega

theorem Good.ioOf_normal (h : Good Z file r) (hn : r.isNormal = true) {image : Bytes}
    (hi : imageOf Z file r = .ok image) :
    (ioOf Z file r).io = ((LogicalBlock.ofBytes image).drop r.ioOffset).take r.ioBlocks := by
  rw [ioOf, recIo, ofBuf, isNormal_toRecord, if_pos hn, hi, ← h.sliceOf_eq hn]
  rfl

theorem recIo_io_nil {data : Bytes} (hn : r.isNormal = false) : (recIo r data).io = [] := by
  rw [recIo, ofBuf, isNormal_toRecord, hn]
  rfl

theorem Good.valid (h : Good Z file r) (hpos : 0 < r.ioBlocks) : Valid (ioOf Z file r) where
  pos := hpos
  io_length ht := by
    have hn := type_eq_normal.1 ht
    obtain ⟨image, hi⟩ := h.image hn
    have hr := h.range hn
    rw [h.ioOf_normal hn hi, List.length_take, List.length_drop,
      LogicalBlock.length_ofBytes (h.length_image hn hi)]
    change min r.ioBlocks _ = r.ioBlocks
    omega
  dataSize ht := by
    have hn := type_eq_normal.1 ht
    change (if r.isNormal = true then r.ioBlocks * lbs % 2 ^ 32 else 0) = r.ioBlocks * lbs
    rw [if_pos hn, Nat.mod_eq_of_lt (h.mul_lt hn (Nat.le_add_left _ _))]
  io_nil ht := recIo_io_nil (Bool.eq_false_iff.2 fun hn => ht (type_eq_normal.2 hn))

theorem Sub.ioOffset_eq (h : Sub r p) : p.ioOffset = r.ioOffset + (p.ioAddress - r.ioAddress) := by
  rw [h.eq]
  rfl

theorem Sub.isNormal_eq (h : Sub r p) : p.isNormal = r.isNormal := by
  rw [h.eq]
  rfl

theorem Sub.imageOf_eq (h : Sub r p) : imageOf Z file p = imageOf Z file r := by
  rw [h.eq]
  rfl

theorem Good.sub (h : Good Z file r) (hs : Sub r p) : Good Z file p := by
  have hb := hs.begin_le
  have he := hs.end_le
  rw [endIoAddress, endIoAddress] at he
  have hoff := hs.ioOffset_eq
  have hrange : r.isNormal = true → p.ioOffset + p.ioBlocks ≤ r.origBlocks := fun hn => by
    have := h.range hn
    omega
  rw [hs.eq] at hrange ⊢
  exact ⟨h.exclusive, h.cmpr, h.pos, h.inside, h.checksum, hrange, h.width, h.image⟩

theorem Good.piece (h : Good Z file r) (hs : Sub r p) (hpos : 0 < p.ioBlocks) :
    Piece (ioOf Z file r) (ioOf Z file p) where
  valid := (h.sub hs).valid hpos
  begin_le := hs.begin_le
  end_le := hs.end_le
  type := by
    rw [hs.eq]
    rfl
  dataSize_zero := by
    intro ht _
    have hn : ¬p.isNormal = true := fun hn => ht (type_eq_normal.2 (hs.isNormal_eq ▸ hn))
    change (if p.isNormal = true then p.ioBlocks * lbs % 2 ^ 32 else 0) = 0
    rw [if_neg hn]
  io := by
    cases hn : r.isNormal with
    | false =>
        rw [ioOf, ioOf, recIo_io_nil (hn.symm ▸ hs.isNormal_eq), recIo_io_nil hn, List.drop_nil,
          List.take_nil]
    | true =>
        obtain ⟨image, hi⟩ := h.image hn
        have hb := hs.begin_le
        have he := hs.end_le
        rw [endIoAddress, endIoAddress] at he
        rw [h.ioOf_normal hn hi, (h.sub hs).ioOf_normal (hn ▸ hs.isNormal_eq) (hs.imageOf_eq.trans hi),
          hs.ioOffset_eq, List.drop_take, List.take_take, List.drop_drop]
        change _ = List.take (min p.ioBlocks (r.ioBlocks - (p.ioAddress - r.ioAddress)))
          (List.drop (r.ioOffset + (p.ioAddress - r.ioAddress)) _)
        rw [min_eq_left (by omega)]

theorem Good.region_append (h : Good Z file r) (hn : r.isNormal = true) (more : Bytes) :
    region (file ++ more) r = region file r := by
  have hin := h.inside hn
  rw [region, region, List.drop_append_of_le_length (by omega), List.take_append_of_le_length]
  rw [List.length_drop]
  omega

theorem Good.imageOf_append (h : Good Z file r) (hn : r.isNormal = true) (more : Bytes) :
    imageOf Z (file ++ more) r = imageOf Z file r := by
  rw [imageOf, imageOf, h.region_append hn]

theorem Good.append (h : Good Z file r) (more : Bytes) : Good Z (file ++ more) r where
  exclusive := h.exclusive
  cmpr := h.cmpr
  pos := h.pos
  inside hn := by
    rw [List.length_append]
    exact (h.inside hn).trans (Nat.le_add_right _ _)
  checksum hn := by rw [h.region_append hn, h.checksum hn]
  range := h.range
  width := h.width
  image hn := by rw [h.imageOf_append hn]; exact h.image hn

theorem Good.ioOf_append (h : Good Z file r) (more : Bytes) :
    ioOf Z (file ++ more) r = ioOf Z file r := by
  cases hn : r.isNormal with
  | false =>
      rw [ioOf, ioOf, recIo, recIo, ofBuf, ofBuf, isNormal_toRecord, hn]
      rfl
  | true => rw [ioOf, ioOf, h.imageOf_append hn]

theorem before_ioOf (h : p.endIoAddress ≤ r.ioAddress) : Before (ioOf Z file p) (ioOf Z file r) := h

theorem ordered_before (h : Ordered index) : (index.map (ioOf Z file)).Pairwise Before :=
  List.pairwise_map.2 (h.pairwise.imp before_ioOf)

theorem content_map_eq_some_iff (h : Ordered index) {c : Cell LogicalBlock} :
    content (index.map (ioOf Z file)) a = some c ↔ ∃ p, p ∈ index ∧ (ioOf Z file p).cell a = some c := by
  rw [content_eq_some_iff (ordered_before h)]
  simp only [List.mem_map, exists_exists_and_eq_and]

theorem Good.cell_eq_none_iff (h : Good Z file r) : (ioOf Z file r).cell a = none ↔ ¬Covers r a := by
  rcases Nat.eq_zero_or_pos r.ioBlocks with h0 | hpos
  · have hn : ¬Covers r a := by
      rintro ⟨hb, he⟩
      rw [endIoAddress] at he
      omega
    exact iff_of_true (if_neg hn) hn
  · exact (h.valid hpos).cell_eq_none_iff

theorem Good.cell_sub (h : Good Z file r) (hs : Sub r p) (hc : Covers p a) :
    (ioOf Z file p).cell a = (ioOf Z file r).cell a := by
  apply (h.piece hs ?_).cell_eq hc
  obtain ⟨hb, he⟩ := hc
  rw [endIoAddress] at he
  omega

theorem not_covers_of_isOverlapped {a : Nat} (h : p.isOverlapped r = false) (hc : Covers p a) :
    ¬Covers r a := by
  rintro ⟨hb, he⟩
  rw [Bool.eq_false_iff, Ne, isOverlapped_iff] at h
  exact h ⟨hc.1.trans_lt he, hb.trans_lt hc.2⟩

theorem Good.content_parts (h : Good Z file r) {v : List IndexedDiffRecord} (hp : Parts r (Covers r) v) :
    content (v.map (ioOf Z file)) = (ioOf Z file r).cell := by
  funext a
  apply Option.ext
  intro c
  rw [content_map_eq_some_iff hp.ordered]
  constructor
  · rintro ⟨p, hpv, hc⟩
    rw [← h.cell_sub (hp.sub p hpv) (covers_of_cell hc), hc]
  · intro hc
    obtain ⟨p, hpv, hcov⟩ := (hp.covers a).2 (covers_of_cell hc)
    exact ⟨p, hpv, by rw [h.cell_sub (hp.sub p hpv) hcov, hc]⟩

/-- A record that is added hides what was there, and no other change is seen. -/
theorem Added.content_eq {index' : List IndexedDiffRecord} (h : Added index r index')
    (hidx : Index index)
    (hg : ∀ s, s ∈ index → Good Z file s) (hr : Good Z file r) :
    content (index'.map (ioOf Z file)) = cover (ioOf Z file r).cell
      (content (index.map (ioOf Z file))) := by
  funext a
  apply Option.ext
  intro c
  rw [content_map_eq_some_iff h.wf.ordered, cover, Option.or_eq_some_iff, hr.cell_eq_none_iff,
    content_map_eq_some_iff hidx.ordered]
  constructor
  · rintro ⟨p, hp, hc⟩
    have hcov : Covers p a := covers_of_cell hc
    rcases h.only p hp with rfl | ⟨hp, ho⟩ | ⟨s, hs, hsub, -, hn⟩
    · exact .inl hc
    · exact .inr ⟨not_covers_of_isOverlapped ho hcov, p, hp, hc⟩
    · exact .inr ⟨hn a hcov, s, hs, by rw [← (hg s hs).cell_sub hsub hcov, hc]⟩
  · rintro (hc | ⟨hn, s, hs, hc⟩)
    · exact ⟨r, h.self, hc⟩
    · cases ho : s.isOverlapped r with
      | false => exact ⟨s, h.keep s hs ho, hc⟩
      | true =>
          obtain ⟨p, hp, hsub, hcov⟩ := h.rest s hs ho a (covers_of_cell hc) hn
          exact ⟨p, hp, by rw [(hg s hs).cell_sub hsub hcov, hc]⟩

theorem Added.origin {index' : List IndexedDiffRecord} (h : Added index r index') (hp : p ∈ index') :
    p = r ∨ p ∈ index ∨ ∃ s, s ∈ index ∧ Sub s p := by
  rcases h.only p hp with rfl | ⟨hp, -⟩ | ⟨s, hs, hsub, -, -⟩
  · exact .inl rfl
  · exact .inr (.inl hp)
  · exact .inr (.inr ⟨s, hs, hsub⟩)

structure Grown (Z : Codecs) (file : Bytes) (index : List IndexedDiffRecord)
    (written : Nat → Option (Cell LogicalBlock))
    (new : IndexedDiffRecord → Prop) (index' : List IndexedDiffRecord) : Prop where
  wf : Index index'
  content : content (index'.map (ioOf Z file)) = cover written (content (index.map (ioOf Z file)))
  origin : ∀ p, p ∈ index' → p ∈ index ∨ ∃ s, (s ∈ index ∨ new s) ∧ Sub s p

theorem Grown.good {written : Nat → Option (Cell LogicalBlock)} {new : IndexedDiffRecord → Prop}
    {index' : List IndexedDiffRecord} (h : Grown Z file index written new index')
    (hg : ∀ s, s ∈ index → Good Z file s)
    (hf : ∀ s, new s → Good Z file s) (p : IndexedDiffRecord) (hp : p ∈ index') : Good Z file p := by
  rcases h.origin p hp with hp | ⟨s, hs | hs, hsub⟩
  · exact hg p hp
  · exact (hg s hs).sub hsub
  · exact (hf s hs).sub hsub

theorem addAll_spec (maxIoBlocks : Nat) {v : List IndexedDiffRecord} (hr : Good Z file r)
    (hv : ∀ p, p ∈ v → Sub r p ∧ AlignedRec p)
    (hidx : Index index) (hg : ∀ s, s ∈ index → Good Z file s) :
    ∃ index', DiffIndexMem.addAll maxIoBlocks v index = .ok index' ∧
      Grown Z file index (content (v.map (ioOf Z file))) (· = r) index' := by
  induction v generalizing index with
  | nil => exact ⟨index, rfl, hidx, none_cover.symm, fun p hp => .inl hp⟩
  | cons p v ih =>
      obtain ⟨⟨hsub, hal⟩, hv⟩ := List.forall_mem_cons.1 hv
      obtain ⟨index₁, hadd, hadded⟩ := addDetail_spec maxIoBlocks hidx hal
      have hgp := hr.sub hsub
      have hg₁ : ∀ s, s ∈ index₁ → Good Z file s := by
        intro s hs
        rcases hadded.origin hs with rfl | hs | ⟨t, ht, hts⟩
        · exact hgp
        · exact hg s hs
        · exact (hg t ht).sub hts
      obtain ⟨index₂, hall, hgrown⟩ := ih hv hadded.wf hg₁
      refine ⟨index₂, by rw [DiffIndexMem.addAll, hadd]; exact hall, hgrown.wf, ?_, fun q hq => ?_⟩
      · rw [hgrown.content, hadded.content_eq hidx hg hgp, List.map_cons, content_cons, cover_assoc]
      · have hstep : ∀ s, s ∈ index₁ → s ∈ index ∨ ∃ t, (t ∈ index ∨ t = r) ∧ Sub t s := by
          intro s hs
          rcases hadded.origin hs with rfl | hs | ⟨t, ht, hts⟩
          · exact .inr ⟨r, .inr rfl, hsub⟩
          · exact .inl hs
          · exact .inr ⟨t, .inl ht, hts⟩
        rcases hgrown.origin q hq with hq | ⟨s, hs | hs, hsq⟩
        · exact hstep q hq
        · rcases hstep s hs with hs | ⟨t, ht, hts⟩
          · exact .inr ⟨s, .inl hs, hsq⟩
          · exact .inr ⟨t, ht, hts.trans hsq⟩
        · exact .inr ⟨s, .inr hs, hsq⟩

/-- Adding a record never fails and writes its content over the index's. -/
theorem add_spec (maxIoBlocks : Nat) (hr : Good Z file r) (hidx : Index index)
    (hg : ∀ s, s ∈ index → Good Z file s) :
    ∃ index', DiffIndexMem.add maxIoBlocks r index = .ok index' ∧
      Grown Z file index (ioOf Z file r).cell (· = r) index' := by
  have hparts := split_parts maxIoBlocks r
  obtain ⟨index', hall, hgrown⟩ :=
    addAll_spec maxIoBlocks hr (fun p hp => ⟨hparts.sub p hp, hparts.aligned p hp⟩) hidx hg
  rw [hr.content_parts hparts] at hgrown
  exact ⟨index', hall, hgrown⟩

end WalbTools.IndexedRecord
