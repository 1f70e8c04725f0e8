import WalbTools.AlignedIo
import WalbTools.RangeMap
import WalbTools.Compression
import WalbTools.DiffHeader

namespace WalbTools.IndexedRecord

open Overlay ByteMemory DiffIo DiffMem DiffPack Compression AlignedIo Layout Checksum
open Queue (calcChecksum)

structure IndexedDiffRecord where
  ioAddress : Nat
  ioBlocks : Nat
  flags : Nat
  compressionType : Nat
  dataOffset : Nat
  dataSize : Nat
  ioOffset : Nat
  origBlocks : Nat
  ioChecksum : Nat
  recChecksum : Nat
  deriving DecidableEq

namespace IndexedDiffRecord

def size : Nat := 48

def endIoAddress (r : IndexedDiffRecord) : Nat := r.ioAddress + r.ioBlocks

def isCompressed (r : IndexedDiffRecord) : Bool := decide (r.compressionType ≠ WALB_DIFF_CMPR_NONE)

def isAllZero (r : IndexedDiffRecord) : Bool := r.flags.testBit 1

def isDiscard (r : IndexedDiffRecord) : Bool := r.flags.testBit 2

def isNormal (r : IndexedDiffRecord) : Bool := !r.isAllZero && !r.isDiscard

def type (r : IndexedDiffRecord) : DiffRecType :=
  if r.isNormal then .normal else if r.isDiscard then .discard else .allZero

def isOverwrittenBy (r rhs : IndexedDiffRecord) : Bool :=
  decide (rhs.ioAddress ≤ r.ioAddress) && decide (r.endIoAddress ≤ rhs.endIoAddress)

def isOverlapped (r rhs : IndexedDiffRecord) : Bool := RangeMap.overlaps ioAddress endIoAddress r rhs

def head (r : IndexedDiffRecord) : List (Nat × Nat) :=
  [(8, r.ioAddress), (4, r.ioBlocks), (1, r.flags), (1, r.compressionType), (2, 0),
    (8, r.dataOffset), (4, r.dataSize),
    (4, r.ioOffset), (4, r.origBlocks), (4, 0), (4, r.ioChecksum)]

def toBytes (r : IndexedDiffRecord) : Bytes := layout r.head ++ toLE 4 r.recChecksum

def ofBytes (raw : Bytes) : IndexedDiffRecord :=
  match fields [8, 4, 1, 1, 2, 8, 4, 4, 4, 4, 4, 4] raw with
  | [ioAddress, ioBlocks, flags, compressionType, _, dataOffset, dataSize, ioOffset, origBlocks, _,
      ioChecksum, recChecksum] =>
      ⟨ioAddress, ioBlocks, flags, compressionType, dataOffset, dataSize, ioOffset, origBlocks,
        ioChecksum, recChecksum⟩
  | _ => ⟨0, 0, 0, 0, 0, 0, 0, 0, 0, 0⟩

def updateRecChecksum (r : IndexedDiffRecord) : IndexedDiffRecord :=
  { r with recChecksum := calcChecksum (toBytes { r with recChecksum := 0 }) 0 }

def verify (raw : Bytes) (r : IndexedDiffRecord) : Except String Unit :=
  if r.isNormal = false then
    if r.isAllZero && r.isDiscard then .error "allzero and discard flag must be exclusive" else .ok ()
  else if WALB_DIFF_CMPR_MAX ≤ r.compressionType then .error "compression type is invalid"
  else if r.ioBlocks = 0 then .error "io_blocks must not be 0"
  else if calcChecksum raw 0 ≠ 0 then .error "invalid checksum"
  else .ok ()

def splitPieces (r : IndexedDiffRecord) : Nat → Nat → List Nat → List IndexedDiffRecord
  | _, _, [] => []
  | addr, off, s :: sizeV =>
      updateRecChecksum { r with ioAddress := addr, ioBlocks := s, ioOffset := off } ::
        r.splitPieces (addr + s) (off + s) sizeV

def split (maxIoBlocks : Nat) (r : IndexedDiffRecord) : List IndexedDiffRecord :=
  r.splitPieces r.ioAddress r.ioOffset (splitIoToAligned r.ioAddress r.ioBlocks maxIoBlocks)

/-- Aligned ranges leave only two patterns. -/
def minus (r rhs : IndexedDiffRecord) : Except String (List IndexedDiffRecord) :=
  if r.isOverlapped rhs = false then .error "lhs.isOverlapped(rhs)"
  else if r.isOverwrittenBy rhs then .ok []
  else if rhs.isOverwrittenBy r then
    let blks0 := rhs.ioAddress - r.ioAddress
    let blks1 := r.endIoAddress - rhs.endIoAddress
    let addr0 := r.ioAddress
    let addr1 := rhs.endIoAddress
    let r0 := { r with ioAddress := addr0, ioBlocks := blks0 }
    let r1 := { r with ioAddress := addr1, ioBlocks := blks1, ioOffset := r.ioOffset + (addr1 - addr0) }
    .ok ((if 0 < blks0 then [r0.updateRecChecksum] else []) ++
      (if 0 < blks1 then [r1.updateRecChecksum] else []))
  else .error "BUG: IndexedDiffRecord:minus."

end IndexedDiffRecord

open IndexedDiffRecord

namespace DiffIndexMem

def minusSplit (maxIoBlocks : Nat) (rhs r : IndexedDiffRecord) :
    Except String (List IndexedDiffRecord) :=
  match r.minus rhs with
  | .error e => .error e
  | .ok v => .ok (v.flatMap (split maxIoBlocks))

def addDetail (maxIoBlocks : Nat) (r : IndexedDiffRecord) (index : List IndexedDiffRecord) :
    Except String (List IndexedDiffRecord) :=
  if isAlignedIo r.ioAddress r.ioBlocks then
    RangeMap.overwrite ioAddress endIoAddress (minusSplit maxIoBlocks r) r index
  else .error "isAlignedIo(rec.io_address, rec.io_blocks)"

def addAll (maxIoBlocks : Nat) : List IndexedDiffRecord → List IndexedDiffRecord →
    Except String (List IndexedDiffRecord)
  | [], index => .ok index
  | r :: rs, index =>
      match addDetail maxIoBlocks r index with
      | .error e => .error e
      | .ok index => addAll maxIoBlocks rs index

def add (maxIoBlocks : Nat) (r : IndexedDiffRecord) (index : List IndexedDiffRecord) :
    Except String (List IndexedDiffRecord) :=
  addAll maxIoBlocks (r.split maxIoBlocks) index

end DiffIndexMem

/-- The part of a record from `addr` on, its checksum up to date. -/
def part (r : IndexedDiffRecord) (addr blks : Nat) : IndexedDiffRecord :=
  updateRecChecksum { r with
    ioAddress := addr, ioBlocks := blks, ioOffset := r.ioOffset + (addr - r.ioAddress) }

structure Sub (r p : IndexedDiffRecord) : Prop where
  begin_le : r.ioAddress ≤ p.ioAddress
  end_le : p.endIoAddress ≤ r.endIoAddress
  eq : p = part r p.ioAddress p.ioBlocks

def Covers (r : IndexedDiffRecord) (a : Nat) : Prop := r.ioAddress ≤ a ∧ a < r.endIoAddress

abbrev Ordered (l : List IndexedDiffRecord) : Prop := RangeMap.Ordered ioAddress endIoAddress l

def AlignedRec (r : IndexedDiffRecord) : Prop := Aligned r.ioAddress r.ioBlocks

structure Parts (r : IndexedDiffRecord) (P : Nat → Prop) (v : List IndexedDiffRecord) : Prop where
  sub : ∀ p, p ∈ v → Sub r p
  aligned : ∀ p, p ∈ v → AlignedRec p
  pairwise : v.Pairwise fun p q => p.endIoAddress ≤ q.ioAddress
  covers : ∀ a, (∃ p, p ∈ v ∧ Covers p a) ↔ P a

variable {r rhs p q : IndexedDiffRecord} {v : List IndexedDiffRecord} {P Q : Nat → Prop} {a : Nat}

theorem isOverlapped_iff : r.isOverlapped rhs = true ↔ r.ioAddress < rhs.endIoAddress ∧
    rhs.ioAddress < r.endIoAddress := by
  rw [isOverlapped, RangeMap.overlaps, Bool.and_eq_true, decide_eq_true_eq, decide_eq_true_eq]

theorem isOverwrittenBy_iff : r.isOverwrittenBy rhs = true ↔ rhs.ioAddress ≤ r.ioAddress ∧
    r.endIoAddress ≤ rhs.endIoAddress := by
  rw [isOverwrittenBy, Bool.and_eq_true, decide_eq_true_eq, decide_eq_true_eq]

theorem part_part {addr blks addr' blks' : Nat} (h : r.ioAddress ≤ addr) (h' : addr ≤ addr') :
    part (part r addr blks) addr' blks' = part r addr' blks' := by
  have hoff : r.ioOffset + (addr - r.ioAddress) + (addr' - addr) = r.ioOffset +
    (addr' - r.ioAddress) := by omega
  simp only [part, updateRecChecksum, hoff]

theorem Sub.trans (h : Sub r p) (h' : Sub p q) : Sub r q where
  begin_le := h.begin_le.trans h'.begin_le
  end_le := h'.end_le.trans h.end_le
  eq := by
    have hq := h'.eq
    rw [h.eq, part_part h.begin_le h'.begin_le] at hq
    exact hq

theorem sub_part {addr blks : Nat} (h : r.ioAddress ≤ addr) (h' : addr + blks ≤ r.endIoAddress) :
    Sub r (part r addr blks) :=
  ⟨h, h', rfl⟩

theorem Sub.covers (h : Sub r p) (hc : Covers p a) : Covers r a :=
  ⟨h.begin_le.trans hc.1, hc.2.trans_le h.end_le⟩

theorem Parts.congr (h : Parts r P v) (hPQ : ∀ a, P a ↔ Q a) : Parts r Q v :=
  ⟨h.sub, h.aligned, h.pairwise, fun a => (h.covers a).trans (hPQ a)⟩

theorem Parts.ordered (h : Parts r P v) : Ordered v :=
  ⟨fun p hp => Nat.lt_add_of_pos_right (h.aligned p hp).pos, h.pairwise⟩

theorem splitPieces_parts {e addr : Nat} {sizeV : List Nat} (h : Tiles e addr sizeV)
    (hb : r.ioAddress ≤ addr)
    (he : e ≤ r.endIoAddress) :
    Parts r (fun a => addr ≤ a ∧ a < e) (r.splitPieces addr (r.ioOffset + (addr - r.ioAddress)) sizeV) ∧
      ∀ p, p ∈ r.splitPieces addr (r.ioOffset + (addr - r.ioAddress)) sizeV → addr ≤ p.ioAddress := by
  induction sizeV generalizing addr with
  | nil =>
      obtain rfl : addr = e := h
      refine ⟨⟨fun _ h => absurd h List.not_mem_nil, fun _ h => absurd h List.not_mem_nil, .nil,
        fun a => ?_⟩,
        fun _ h => absurd h List.not_mem_nil⟩
      exact iff_of_false (fun ⟨_, h, _⟩ => absurd h List.not_mem_nil) (by omega)
  | cons s sizeV ih =>
      obtain ⟨hal, hrest⟩ := h
      have hle := hrest.le
      obtain ⟨hparts, hge⟩ := ih hrest (by omega)
      have hoff : r.ioOffset + (addr - r.ioAddress) + s = r.ioOffset +
        (addr + s - r.ioAddress) := by omega
      rw [splitPieces, hoff]
      refine ⟨⟨?_, ?_, ?_, fun a => ?_⟩, ?_⟩
      · exact List.forall_mem_cons.2 ⟨sub_part hb (hle.trans he), hparts.sub⟩
      · exact List.forall_mem_cons.2 ⟨hal, hparts.aligned⟩
      · exact List.pairwise_cons.2 ⟨hge, hparts.pairwise⟩
      · rw [List.exists_mem_cons_iff, hparts.covers a]
        change addr ≤ a ∧ a < addr + s ∨ addr + s ≤ a ∧ a < e ↔ _
        omega
      · exact List.forall_mem_cons.2 ⟨le_rfl, fun p hp => (Nat.le_add_right _ _).trans (hge p hp)⟩

theorem split_parts (maxIoBlocks : Nat) (r : IndexedDiffRecord) :
    Parts r (Covers r) (r.split maxIoBlocks) := by
  have h := (splitPieces_parts (splitIoToAligned_tiles r.ioAddress r.ioBlocks maxIoBlocks) le_rfl
    le_rfl).1
  rwa [Nat.sub_self, Nat.add_zero] at h

theorem minus_spec (hr : AlignedRec r) (hrhs : AlignedRec rhs) (ho : r.isOverlapped rhs = true) :
    ∃ v, r.minus rhs = .ok v ∧ (∀ p, p ∈ v → Sub r p) ∧
      v.Pairwise (fun p q => p.endIoAddress ≤ q.ioAddress) ∧
      ∀ a, (∃ p, p ∈ v ∧ Covers p a) ↔ Covers r a ∧ ¬Covers rhs a := by
  obtain ⟨ho₁, ho₂⟩ := isOverlapped_iff.1 ho
  have hend : r.endIoAddress = r.ioAddress + r.ioBlocks := rfl
  have hend' : rhs.endIoAddress = rhs.ioAddress + rhs.ioBlocks := rfl
  rw [minus, if_neg (by rw [ho]; decide)]
  by_cases h₁ : r.isOverwrittenBy rhs = true
  · rw [if_pos h₁]
    rw [isOverwrittenBy_iff] at h₁
    refine ⟨[], rfl, fun _ h => absurd h List.not_mem_nil, .nil, fun a => ?_⟩
    apply iff_of_false (fun ⟨_, h, _⟩ => absurd h List.not_mem_nil)
    rintro ⟨hc, hn⟩
    exact hn ⟨h₁.1.trans hc.1, hc.2.trans_le h₁.2⟩
  · have h₂ : rhs.isOverwrittenBy r = true := by
      rw [isOverwrittenBy_iff] at h₁ ⊢
      rcases le_total r.ioBlocks rhs.ioBlocks with hle | hle
      · exact absurd (hr.le_of_le hrhs hle ho₁ ho₂) h₁
      · exact hrhs.le_of_le hr hle ho₂ ho₁
    rw [if_neg h₁, if_pos h₂]
    rw [isOverwrittenBy_iff] at h₂
    have hself : r.ioOffset + (r.ioAddress - r.ioAddress) = r.ioOffset := by omega
    have h0 : updateRecChecksum { r with
      ioAddress := r.ioAddress, ioBlocks := rhs.ioAddress - r.ioAddress } =
        part r r.ioAddress (rhs.ioAddress - r.ioAddress) := by rw [part, hself]
    have hmem : ∀ {n : Nat} {x p : IndexedDiffRecord}, p ∈ (if 0 < n then [x] else []) ↔ 0 < n ∧
        p = x := by
      intro n x p
      rw [List.mem_ite_nil_right, List.mem_singleton]
    dsimp only
    rw [h0]
    change ∃ v, Except.ok ((if 0 < rhs.ioAddress - r.ioAddress then [part r r.ioAddress
      (rhs.ioAddress - r.ioAddress)] else []) ++
      if 0 < r.endIoAddress - rhs.endIoAddress then [part r rhs.endIoAddress
      (r.endIoAddress - rhs.endIoAddress)] else []) = _ ∧ _
    refine ⟨_, rfl, fun p hp => ?_, List.pairwise_append.2 ⟨?_, ?_, fun p hp q hq => ?_⟩, fun a => ?_⟩
    · rcases List.mem_append.1 hp with hp | hp
      · obtain ⟨-, rfl⟩ := hmem.1 hp
        exact sub_part le_rfl (by omega)
      · obtain ⟨-, rfl⟩ := hmem.1 hp
        exact sub_part (by omega) (by omega)
    · split_ifs
      · exact List.pairwise_singleton _ _
      · exact .nil
    · split_ifs
      · exact List.pairwise_singleton _ _
      · exact .nil
    · obtain ⟨-, rfl⟩ := hmem.1 hp
      obtain ⟨-, rfl⟩ := hmem.1 hq
      change r.ioAddress + (rhs.ioAddress - r.ioAddress) ≤ rhs.endIoAddress
      omega
    · have hcov : (∃ p, p ∈ ((if 0 < rhs.ioAddress - r.ioAddress then [part r r.ioAddress
          (rhs.ioAddress - r.ioAddress)] else []) ++
            if 0 < r.endIoAddress - rhs.endIoAddress then [part r rhs.endIoAddress
            (r.endIoAddress - rhs.endIoAddress)] else []) ∧
            Covers p a) ↔
            (0 < rhs.ioAddress - r.ioAddress ∧ Covers (part r r.ioAddress
            (rhs.ioAddress - r.ioAddress)) a) ∨
            (0 < r.endIoAddress - rhs.endIoAddress ∧ Covers
            (part r rhs.endIoAddress (r.endIoAddress - rhs.endIoAddress)) a) := by
        simp only [List.mem_append, hmem, or_and_right, exists_or, and_assoc, exists_and_left,
          exists_eq_left]
      rw [hcov]
      change 0 < rhs.ioAddress - r.ioAddress ∧ (r.ioAddress ≤ a ∧
        a < r.ioAddress + (rhs.ioAddress - r.ioAddress)) ∨
        0 < r.endIoAddress - rhs.endIoAddress ∧ (rhs.endIoAddress ≤ a ∧
        a < rhs.endIoAddress + (r.endIoAddress - rhs.endIoAddress)) ↔
        (r.ioAddress ≤ a ∧ a < r.endIoAddress) ∧ ¬(rhs.ioAddress ≤ a ∧ a < rhs.endIoAddress)
      omega

theorem parts_flatMap (maxIoBlocks : Nat) (hs : ∀ p, p ∈ v → Sub r p)
    (hv : v.Pairwise fun p q => p.endIoAddress ≤ q.ioAddress)
    (hP : ∀ a, (∃ p, p ∈ v ∧ Covers p a) ↔ P a) :
    Parts r P (v.flatMap (split maxIoBlocks)) where
  sub q hq := by
    obtain ⟨p, hp, hq⟩ := List.mem_flatMap.1 hq
    exact (hs p hp).trans ((split_parts maxIoBlocks p).sub q hq)
  aligned q hq := by
    obtain ⟨p, -, hq⟩ := List.mem_flatMap.1 hq
    exact (split_parts maxIoBlocks p).aligned q hq
  pairwise := by
    apply List.pairwise_flatMap.2
    refine ⟨fun p _ => (split_parts maxIoBlocks p).pairwise, hv.imp fun {p q} hpq x hx y hy => ?_⟩
    exact ((split_parts maxIoBlocks p).sub x hx).end_le.trans
      (hpq.trans ((split_parts maxIoBlocks q).sub y hy).begin_le)
  covers a := by
    rw [← hP a]
    constructor
    · rintro ⟨q, hq, hc⟩
      obtain ⟨p, hp, hq⟩ := List.mem_flatMap.1 hq
      exact ⟨p, hp, ((split_parts maxIoBlocks p).sub q hq).covers hc⟩
    · rintro ⟨p, hp, hc⟩
      obtain ⟨q, hq, hc⟩ := ((split_parts maxIoBlocks p).covers a).2 hc
      exact ⟨q, List.mem_flatMap.2 ⟨p, hp, hq⟩, hc⟩

theorem minusSplit_parts (maxIoBlocks : Nat) (hr : AlignedRec r) (hrhs : AlignedRec rhs)
    (ho : r.isOverlapped rhs = true) :
    ∃ v, DiffIndexMem.minusSplit maxIoBlocks rhs r = .ok v ∧
      Parts r (fun a => Covers r a ∧ ¬Covers rhs a) v := by
  obtain ⟨v, hminus, hs, hv, hP⟩ := minus_spec hr hrhs ho
  exact ⟨v.flatMap (split maxIoBlocks), by rw [DiffIndexMem.minusSplit, hminus],
    parts_flatMap maxIoBlocks hs hv hP⟩

/-- Records without overlaps that are aligned, as `DiffIndexMem` keeps them. -/
structure Index (index : List IndexedDiffRecord) : Prop where
  ordered : Ordered index
  aligned : ∀ r, r ∈ index → AlignedRec r

structure Added (index : List IndexedDiffRecord) (r : IndexedDiffRecord)
    (index' : List IndexedDiffRecord) : Prop where
  wf : Index index'
  self : r ∈ index'
  keep : ∀ s, s ∈ index → s.isOverlapped r = false → s ∈ index'
  rest : ∀ s, s ∈ index → s.isOverlapped r = true → ∀ a, Covers s a → ¬Covers r a → ∃ p,
    p ∈ index' ∧ Sub s p ∧ Covers p a
  only : ∀ p, p ∈ index' → p = r ∨ (p ∈ index ∧ p.isOverlapped r = false) ∨
    ∃ s, s ∈ index ∧ Sub s p ∧ AlignedRec p ∧ ∀ a, Covers p a → ¬Covers r a

theorem addDetail_spec (maxIoBlocks : Nat) {index : List IndexedDiffRecord} (h : Index index)
    (hr : AlignedRec r) :
    ∃ index', DiffIndexMem.addDetail maxIoBlocks r index = .ok index' ∧ Added index r index' := by
  have hparts : ∀ s, s ∈ index → s.isOverlapped r = true →
      ∃ v, DiffIndexMem.minusSplit maxIoBlocks r s = .ok v ∧
      Parts s (fun a => Covers s a ∧ ¬Covers r a) v := fun s hs ho =>
    minusSplit_parts maxIoBlocks (h.aligned s hs) hr ho
  let f (s : IndexedDiffRecord) : List IndexedDiffRecord :=
    ((DiffIndexMem.minusSplit maxIoBlocks r s).toOption).getD []
  have hf : ∀ s, s ∈ index → s.isOverlapped r = true → DiffIndexMem.minusSplit maxIoBlocks r s =
      .ok (f s) ∧
        Parts s (fun a => Covers s a ∧ ¬Covers r a) (f s) := by
    intro s hs ho
    obtain ⟨v, hv, hp⟩ := hparts s hs ho
    have hfs : f s = v := by
      change ((DiffIndexMem.minusSplit maxIoBlocks r s).toOption).getD [] = v
      rw [hv]
      rfl
    rw [hfs]
    exact ⟨hv, hp⟩
  obtain ⟨index', hrun, hord, hmem⟩ := h.ordered.overwrite_spec (DiffIndexMem.minusSplit maxIoBlocks r) f
    (show r.ioAddress < r.endIoAddress from Nat.lt_add_of_pos_right hr.pos) (by
      intro s hs ho
      obtain ⟨hv, hp⟩ := hf s hs ho
      refine ⟨hv, hp.ordered, fun p hpm => ⟨(hp.sub p hpm).begin_le, (hp.sub p hpm).end_le⟩,
        fun p hpm => ?_⟩
      have hpos := hp.ordered.pos p hpm
      by_contra hover
      rw [Bool.not_eq_false, ← isOverlapped, isOverlapped_iff] at hover
      have hcov := (hp.covers (max p.ioAddress r.ioAddress)).1 ⟨p, hpm, le_max_left _ _,
        max_lt hpos hover.2⟩
      exact hcov.2 ⟨le_max_right _ _, max_lt hover.1 (Nat.lt_add_of_pos_right hr.pos)⟩)
  refine ⟨index', by rw [DiffIndexMem.addDetail, if_pos hr.isAlignedIo]; exact hrun, ?_⟩
  have honly : ∀ p, p ∈ index' → p = r ∨ (p ∈ index ∧ p.isOverlapped r = false) ∨
      ∃ s, s ∈ index ∧ Sub s p ∧ AlignedRec p ∧ ∀ a, Covers p a → ¬Covers r a := by
    intro p hp
    rcases (hmem p).1 hp with rfl | hp | ⟨s, hs, ho, hp⟩
    · exact .inl rfl
    · exact .inr (.inl hp)
    · obtain ⟨-, hpp⟩ := hf s hs ho
      exact .inr (.inr ⟨s, hs, hpp.sub p hp, hpp.aligned p hp,
        fun a hc => ((hpp.covers a).1 ⟨p, hp, hc⟩).2⟩)
  exact {
    wf := by
      refine ⟨hord, fun p hp => ?_⟩
      rcases honly p hp with rfl | ⟨hp, -⟩ | ⟨s, -, -, hal, -⟩
      · exact hr
      · exact h.aligned p hp
      · exact hal
    self := (hmem r).2 (.inl rfl)
    keep := fun s hs ho => (hmem s).2 (.inr (.inl ⟨hs, ho⟩))
    rest := by
      intro s hs ho a hc hn
      obtain ⟨-, hpp⟩ := hf s hs ho
      obtain ⟨p, hp, hcp⟩ := (hpp.covers a).2 ⟨hc, hn⟩
      exact ⟨p, (hmem p).2 (.inr (.inr ⟨s, hs, ho, hp⟩)), hpp.sub p hp, hcp⟩
    only := honly }

/-- The fields have the widths of the file's, the place in the file aside. -/
structure Fits (r : IndexedDiffRecord) : Prop where
  address : r.endIoAddress < 2 ^ 64
  blocks : r.ioBlocks < 2 ^ 32
  flags : r.flags < 2 ^ 8
  compressionType : r.compressionType < 2 ^ 8
  dataSize : r.dataSize < 2 ^ 32
  offset : r.ioOffset + r.ioBlocks < 2 ^ 32
  origBlocks : r.origBlocks < 2 ^ 32
  ioChecksum : r.ioChecksum < 2 ^ 32

theorem Fits.sub (h : Fits r) (hs : Sub r p) : Fits p := by
  have hb := hs.begin_le
  have he := hs.end_le
  have haddr := h.address
  have hblocks := h.blocks
  have hoff := h.offset
  have hp := hs.eq
  rw [endIoAddress, endIoAddress] at he
  rw [endIoAddress] at haddr
  have hpo : p.ioOffset = r.ioOffset + (p.ioAddress - r.ioAddress) := by
    rw [hp]
    rfl
  have hpa : p.endIoAddress < 2 ^ 64 := by
    rw [endIoAddress]
    omega
  have hpb : p.ioBlocks < 2 ^ 32 := by omega
  have hpoff : p.ioOffset + p.ioBlocks < 2 ^ 32 := by omega
  rw [hp] at hpa hpb hpoff ⊢
  exact ⟨hpa, hpb, h.flags, h.compressionType, h.dataSize, hpoff, h.origBlocks, h.ioChecksum⟩

theorem Sub.updateRecChecksum_eq (h : Sub r p) : updateRecChecksum p = p := by
  rw [h.eq]
  rfl

theorem toBytes_updateRecChecksum : toBytes (updateRecChecksum r) = sealed (layout r.head) [] := by
  rw [sealed, List.append_nil, List.append_nil]
  rfl

theorem length_head : (layout r.head).length = 44 := length_layout

theorem length_toBytes : r.toBytes.length = size := by
  rw [toBytes, List.length_append, length_head, length_toLE]
  rfl

theorem calcChecksum_toBytes (h : updateRecChecksum r = r) : calcChecksum r.toBytes 0 = 0 := by
  rw [← h, toBytes_updateRecChecksum]
  exact calcChecksum_sealed (by rw [length_head])

theorem Fits.ofBytes_toBytes (h : Fits r) (hoff : r.dataOffset < 2 ^ 64)
    (hc : updateRecChecksum r = r) (rest : Bytes) :
    ofBytes (r.toBytes ++ rest) = r := by
  have hcsum : r.recChecksum < 256 ^ 4 := by
    rw [← hc]
    exact Queue.QueueFile.calcChecksum_lt _ _
  have hfit : Fit (r.head ++ [(4, r.recChecksum)]) := by
    have haddr := h.address
    rw [endIoAddress] at haddr
    simp only [Fit, head, List.cons_append, List.nil_append, List.forall_mem_cons]
    exact ⟨(Nat.le_add_right _ _).trans_lt haddr, h.blocks, h.flags, h.compressionType, by decide,
      hoff, h.dataSize,
      (Nat.le_add_right _ _).trans_lt h.offset, h.origBlocks, by decide, h.ioChecksum, hcsum,
      fun _ hm => absurd hm List.not_mem_nil⟩
  have hbytes : r.toBytes = layout (r.head ++ [(4, r.recChecksum)]) := by
    rw [toBytes, layout_append, layout_cons]
    exact congrArg _ (List.append_nil _).symm
  have hfields := fields_layout _ hfit rest
  rw [← hbytes] at hfields
  change fields [8, 4, 1, 1, 2, 8, 4, 4, 4, 4, 4, 4] (r.toBytes ++ rest) = _ at hfields
  rw [ofBytes, hfields]
  rfl

theorem verify_toBytes (hx : (r.isAllZero && r.isDiscard) = false)
    (hn : r.isNormal = true → r.compressionType < WALB_DIFF_CMPR_MAX) (hpos : 0 < r.ioBlocks)
    (hc : updateRecChecksum r = r) :
    verify r.toBytes r = .ok () := by
  rw [verify]
  cases hnormal : r.isNormal with
  | false => rw [if_pos rfl, hx, if_neg Bool.false_ne_true]
  | true =>
      rw [if_neg (Bool.true_eq_false ▸ not_false), if_neg (Nat.not_le.2 (hn hnormal)),
        if_neg hpos.ne', calcChecksum_toBytes hc,
        if_neg (not_not.2 rfl)]

end WalbTools.IndexedRecord
