import WalbTools.DiffMerge
import WalbTools.DirtyHashSync

namespace WalbTools.DiffIssue

open Overlay ByteMemory DiffIo DiffIo.DiffRecIo DiffMem DiffMerge DiffPack
open LogicalBlock (toBytes ofBytes)
open DirtyHashSync (zeroBlock value)

inductive DiscardType where
  | passdown
  | ignore
  | zero
  deriving DecidableEq

inductive IoType where
  | normal
  | discard
  | zero
  | ignore
  deriving DecidableEq

def decideIoType (record : DiffRecord) (discardType : DiscardType) : IoType :=
  match record.type, discardType with
  | .normal, _ => .normal
  | .allZero, _ => .zero
  | .discard, .passdown => .discard
  | .discard, .ignore => .ignore
  | .discard, .zero => .zero

/-- The blocks of `ioSizeB`, a product of `uint32_t` values. -/
def ioSizeLb (record : DiffRecord) : Nat := record.ioBlocks * lbs % 2 ^ 32 / lbs

section

-- What the device holds after a discard of an address range is up to the device.
variable (issueDiscard : Nat → Nat → (Nat → LogicalBlock) → Nat → LogicalBlock)
variable (discardType : DiscardType)

def issueIo (record : DiffRecord) (iodata : List LogicalBlock) (img : Nat → LogicalBlock) :
    Nat → LogicalBlock :=
  match decideIoType record discardType with
  | .ignore => img
  | .discard => issueDiscard record.ioAddress record.ioBlocks img
  | .zero => write (stretch record.ioAddress (List.replicate (ioSizeLb record) zeroBlock)) img
  | .normal => write (stretch record.ioAddress (iodata.take (ioSizeLb record))) img

section

variable (C : Codec)

def ioData (p : Pack) (r : PackRecord) : Except String (List LogicalBlock) :=
  if r.type ≠ .normal then .ok []
  else if r.compressionType = WALB_DIFF_CMPR_NONE then .ok (ofBytes (p.data.drop r.dataOffset))
  else
    match C.uncompress ((p.data.drop r.dataOffset).take r.dataSize) with
    | none => .error "snappy_uncompress"
    | some out =>
        if out.length = r.ioBlocks * lbs % 2 ^ 32 then .ok (ofBytes out)
        else .error "uncompressData:size is invalid"

def issueRecords (p : Pack) : List PackRecord → (Nat → LogicalBlock) → Except String (Nat → LogicalBlock)
  | [], img => .ok img
  | r :: rs, img =>
      match ioData C p r with
      | .error e => .error e
      | .ok iodata =>
          issueRecords p rs (issueIo issueDiscard discardType r.toDiffRecord iodata img)

def issueDiffPack (p : Pack) : (Nat → LogicalBlock) → Except String (Nat → LogicalBlock) :=
  issueRecords issueDiscard discardType C p p.records

def issueDiffPacks : List Pack → (Nat → LogicalBlock) → Except String (Nat → LogicalBlock)
  | [], img => .ok img
  | p :: ps, img =>
      match issueDiffPack issueDiscard discardType C p img with
      | .error e => .error e
      | .ok img => issueDiffPacks ps img

end

def DEFAULT_MERGE_BUFFER_LB : Nat := 4 * 1024 * 1024 / lbs

/-- The maximum size of the IOs of a `DiffMemory`, and so of merged ones, unless another
one is set. -/
def DEFAULT_MAX_IO_LB : Nat := 1024 * 1024 / lbs

/-- The loop of `applyOpenedDiffs` on a volume of `lvSnapSizeLb` blocks. Before
the record number `i` it asks whether it has to stop. -/
def applyLoop (fuel lvSnapSizeLb : Nat) (stop : Nat → Bool) :
    Nat → Nat → DiffMerger LogicalBlock → (Nat → LogicalBlock) →
      Except String (Bool × (Nat → LogicalBlock))
  | 0, _, _, _ => .error "out of fuel"
  | n + 1, i, m, img =>
      match m.getAndRemove fuel with
      | .error e => .error e
      | .ok none => .ok (true, img)
      | .ok (some (r, m)) =>
          if stop i then .ok (false, img)
          else if lvSnapSizeLb < r.record.endIoAddress then .error "out of range"
          else applyLoop fuel lvSnapSizeLb stop n (i + 1) m
            (issueIo issueDiscard discardType r.record r.io img)

def applyOpenedDiffs (fuel lvSnapSizeLb : Nat) (stop : Nat → Bool)
    (wdiffs : List (List (DiffRecIo LogicalBlock)))
    (img : Nat → LogicalBlock) : Except String (Bool × (Nat → LogicalBlock)) :=
  match DiffMerger.prepare wdiffs DEFAULT_MERGE_BUFFER_LB DEFAULT_MAX_IO_LB with
  | .error e => .error e
  | .ok m => applyLoop issueDiscard discardType fuel lvSnapSizeLb stop fuel 0 m img

end

/-- What a record leaves on the device when discards write zeros. -/
def written (r : DiffRecIo LogicalBlock) : Nat → Option LogicalBlock :=
  if r.record.type = .normal then stretch r.record.ioAddress (r.io.take (ioSizeLb r.record))
  else stretch r.record.ioAddress (List.replicate (ioSizeLb r.record) zeroBlock)

def Narrow (r : DiffRecIo LogicalBlock) : Prop := r.record.ioBlocks < 2 ^ 23

instance (r : DiffRecIo LogicalBlock) : Decidable (Narrow r) := inferInstanceAs (Decidable (_ < _))

variable {issueDiscard : Nat → Nat → (Nat → LogicalBlock) → Nat → LogicalBlock}
variable {r : DiffRecIo LogicalBlock} {rs : List (DiffRecIo LogicalBlock)}
  {img : Nat → LogicalBlock} {a : Nat}

theorem ioSizeLb_eq (record : DiffRecord) : ioSizeLb record = record.ioBlocks % 2 ^ 23 := by
  rw [ioSizeLb, lbs, show (2 : Nat) ^ 32 = 2 ^ 23 * 512 from rfl, Nat.mul_mod_mul_right,
    Nat.mul_div_cancel _ (by decide)]

theorem Narrow.ioSizeLb (h : Narrow r) : ioSizeLb r.record = r.record.ioBlocks := by
  rw [ioSizeLb_eq, Nat.mod_eq_of_lt h]

theorem issueIo_zero (r : DiffRecIo LogicalBlock) (img : Nat → LogicalBlock) :
    issueIo issueDiscard .zero r.record r.io img = write (written r) img := by
  unfold issueIo written decideIoType
  cases r.record.type <;> rfl

theorem written_eq_none (hr : r.Valid) (h : ¬r.record.Covers a) : written r a = none := by
  have hle : ioSizeLb r.record ≤ r.record.ioBlocks := by
    rw [ioSizeLb_eq]
    exact Nat.mod_le _ _
  rw [DiffRecord.Covers, DiffRecord.endIoAddress] at h
  rw [written]
  split_ifs with ht
  · apply stretch_eq_none_iff.2
    rw [List.length_take, hr.io_length ht]
    omega
  · apply stretch_eq_none_iff.2
    rw [List.length_replicate]
    omega

theorem Narrow.written_eq (h : Narrow r) (hr : r.Valid) : written r = mapVal value r.cell := by
  funext a
  by_cases ha : r.record.Covers a
  · have hl := ha.1
    have hlt : a < r.record.ioAddress + r.record.ioBlocks := ha.2
    rw [written, h.ioSizeLb, mapVal, cell, if_pos ha]
    cases ht : r.record.type with
    | normal =>
        rw [if_pos rfl, ← hr.io_length ht, List.take_length, stretch, if_pos hl, Option.map_map]
        exact (congrFun Option.map_id _).symm
    | discard =>
        rw [if_neg (by decide), stretch_replicate hl hlt]
        rfl
    | allZero =>
        rw [if_neg (by decide), stretch_replicate hl hlt]
        rfl
  · rw [written_eq_none hr ha, mapVal, hr.cell_eq_none_iff.2 ha]
    rfl

def issued (rs : List (DiffRecIo LogicalBlock)) (img : Nat → LogicalBlock) : Nat → LogicalBlock :=
  write (overlay (rs.map written)) img

def overlaid (rs : List (DiffRecIo LogicalBlock)) (img : Nat → LogicalBlock) : Nat → LogicalBlock :=
  write (mapVal value (content rs)) img

theorem issued_cons : issued (r :: rs) img = issued rs (write (written r) img) := by
  rw [issued, issued, List.map_cons, overlay, write_write]

theorem issued_append {ss : List (DiffRecIo LogicalBlock)} :
    issued (rs ++ ss) img = issued ss (issued rs img) := by
  rw [issued, issued, issued, List.map_append, overlay_append, write_write]

theorem issued_eq_overlaid (hwf : WF rs) (h : ∀ r, r ∈ rs → Narrow r) :
    issued rs img = overlaid rs img := by
  have hmap : rs.map written = (rs.map cell).map (mapVal value) := by
    rw [List.map_map]
    apply List.map_congr_left
    intro r hr
    exact (h r hr).written_eq (hwf.valid r hr)
  rw [issued, overlaid, hmap, overlay_mapVal, content]

def oneBlock : LogicalBlock := ⟨List.replicate lbs 1, List.length_replicate⟩

theorem issued_nil : issued [] img = img := rfl

section Apply

variable {fuel n : Nat} {stop : Nat → Bool} {m : DiffMerger LogicalBlock}

theorem length_lt_of_getAll (h : m.getAll fuel = .ok rs) : rs.length < fuel := by
  induction fuel generalizing m rs with
  | zero => cases h
  | succ fuel ih =>
      rcases DiffMerger.turn_of_getAll h with ⟨-, rfl⟩ | ⟨out, m', rs', hturn, hrest, rfl⟩
      · exact Nat.succ_pos _
      · have hlt := ih hrest
        rw [List.length_append]
        rcases DiffMerger.turn_out hturn with rfl | ⟨r, rfl⟩
        · rw [List.length_nil]
          omega
        · rw [List.length_singleton]
          omega

/-- The loop issues the records in order; if it is not stopped, all of them. -/
theorem applyLoop_spec (hget : m.getAll fuel = .ok rs)
    (hend : ∀ r, r ∈ rs → r.record.endIoAddress ≤ n) {k : Nat}
    (hk : rs.length < k) (i : Nat) (img : Nat → LogicalBlock) :
    ∃ b img', applyLoop issueDiscard .zero fuel n stop k i m img = .ok (b, img') ∧
      (b = true → img' = issued rs img) ∧ ((∀ i, stop i = false) → b = true) := by
  induction k generalizing m rs i img with
  | zero => exact absurd hk (Nat.not_lt_zero _)
  | succ k ih =>
      rw [applyLoop]
      cases rs with
      | nil =>
          rw [DiffMerger.getAndRemove_nil hget]
          exact ⟨true, img, rfl, fun _ => issued_nil.symm, fun _ => rfl⟩
      | cons r rs =>
          rw [List.forall_mem_cons] at hend
          obtain ⟨m', hget', hrest⟩ := DiffMerger.getAndRemove_cons hget
          rw [hget']
          dsimp only
          by_cases hs : stop i = true
          · rw [if_pos hs]
            exact ⟨false, img, rfl, nofun, fun hno => by rw [hno i] at hs; cases hs⟩
          · rw [if_neg hs, if_neg (not_lt.2 hend.1), issueIo_zero]
            obtain ⟨b, img', hloop, himg, hb⟩ :=
              ih hrest hend.2 (Nat.lt_of_succ_lt_succ hk) (i + 1) (write (written r) img)
            exact ⟨b, img', hloop, fun hb => by rw [issued_cons]; exact himg hb, hb⟩

end Apply

section Packs

variable {C : Codec} {p : Pack} {ios : List (DiffRecIo LogicalBlock)}

/-- What a record of a pack makes of the device is what its IO makes of it. -/
theorem ioData_spec {r : PackRecord} {io : DiffRecIo LogicalBlock}
    (hread : readIo C r ((p.data.drop r.dataOffset).take r.dataSize) = .ok io) (hv : io.Valid)
    (hn : io.record.type = .normal → Narrow io) :
    ∃ iodata, ioData C p r = .ok iodata ∧
      written ⟨r.toDiffRecord, iodata⟩ = written io := by
  rw [readIo] at hread
  rw [ioData]
  split_ifs at hread ⊢ with ht hcmpr
  · cases hread
    exact ⟨[], rfl, rfl⟩
  · cases hread
    refine ⟨_, rfl, ?_⟩
    have hsize : r.dataSize = r.ioBlocks * lbs := hv.dataSize (not_not.1 ht)
    have hle : ioSizeLb r.toDiffRecord ≤ r.ioBlocks := by
      rw [ioSizeLb_eq]
      exact Nat.mod_le _ _
    dsimp only [written]
    rw [if_pos (not_not.1 ht), if_pos (not_not.1 ht), hsize, ← LogicalBlock.take_ofBytes,
      List.take_take, Nat.min_eq_left hle]
  · cases hout : C.uncompress ((p.data.drop r.dataOffset).take r.dataSize) with
    | none =>
        rw [hout] at hread
        cases hread
    | some out =>
        rw [hout] at hread
        dsimp only at hread ⊢
        split_ifs at hread with hlen
        cases hread
        have hblocks : r.ioBlocks * lbs < 2 ^ 32 := by
          have hnarrow : r.ioBlocks < 2 ^ 23 := hn (not_not.1 ht)
          rw [lbs]
          omega
        rw [Nat.mod_eq_of_lt hblocks, if_pos hlen]
        exact ⟨_, rfl, rfl⟩

theorem issueRecords_spec {rs : List PackRecord} (done rest : Bytes) (hp : p.data = done ++ rest)
    (hplaced : Placed p.data.length done.length rs) (hread : readIos C rs rest = .ok ios)
    (hv : ∀ io, io ∈ ios → io.Valid) (hn : ∀ io, io ∈ ios → io.record.type = .normal → Narrow io)
    (img : Nat → LogicalBlock) :
    issueRecords issueDiscard .zero C p rs img = .ok (issued ios img) := by
  induction rs generalizing done rest ios img with
  | nil =>
      cases hread
      rfl
  | cons r rs ih =>
      obtain ⟨hoff, hplaced⟩ := hplaced
      obtain ⟨io, ios, hio, hrest, rfl⟩ := readIos_cons hread
      rw [List.forall_mem_cons] at hv hn
      have hdrop : p.data.drop r.dataOffset = rest := by rw [hp, hoff, List.drop_left]
      obtain ⟨iodata, hdata, hwritten⟩ := ioData_spec (p := p) (by rw [hdrop]; exact hio) hv.1 hn.1
      have hlen : (done ++ rest.take r.dataSize).length = done.length + r.dataSize := by
        have hle := hplaced.le
        rw [hp, List.length_append] at hle
        rw [List.length_append, List.length_take]
        omega
      rw [issueRecords, hdata, issued_cons, ← hwritten]
      dsimp only
      rw [← issueIo_zero]
      apply ih (done ++ rest.take r.dataSize) (rest.drop r.dataSize) _ (by rwa [hlen]) hrest hv.2 hn.2
      rw [hp, List.append_assoc, List.take_append_drop]

theorem issueDiffPacks_spec (hC : C.Lawful) {qs : List (Pack × List (DiffRecIo LogicalBlock))}
    (h : ∀ q, q ∈ qs → Holds q.1 q.2)
    (hn : ∀ q, q ∈ qs → ∀ io, io ∈ q.2 → io.record.type = .normal → Narrow io)
    (img : Nat → LogicalBlock) :
    issueDiffPacks issueDiscard .zero C (qs.map fun q => PackCompressor.convert C q.1) img =
      .ok (issued (qs.flatMap Prod.snd) img) := by
  induction qs generalizing img with
  | nil => rfl
  | cons q qs ih =>
      rw [List.forall_mem_cons] at h hn
      obtain ⟨-, -, hplaced, hread⟩ := h.1.convert hC
      rw [List.map_cons, issueDiffPacks, issueDiffPack,
        issueRecords_spec [] _ rfl hplaced hread h.1.valid hn.1 img, List.flatMap_cons, issued_append]
      exact ih h.2 hn.2 _

end Packs

end WalbTools.DiffIssue
