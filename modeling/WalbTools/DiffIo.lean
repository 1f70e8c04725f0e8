import Mathlib
import WalbTools.Overlay

namespace WalbTools.DiffIo

open Overlay

def lbs : Nat := 512

inductive DiffRecType where
  | normal
  | discard
  | allZero
  deriving DecidableEq

/-- A record of uncompressed data; addresses and lengths count logical blocks. -/
structure DiffRecord where
  ioAddress : Nat
  ioBlocks : Nat
  dataSize : Nat
  type : DiffRecType
  deriving DecidableEq

namespace DiffRecord

def endIoAddress (r : DiffRecord) : Nat := r.ioAddress + r.ioBlocks

def isNormal (r : DiffRecord) : Bool := decide (r.type = .normal)

/-- `verify` on an uncompressed record; the type has no record that is all-zero and a discard. -/
def isValid (r : DiffRecord) : Bool := !r.isNormal || decide (r.ioBlocks ≠ 0)

def isOverlapped (r rhs : DiffRecord) : Bool :=
  decide (r.ioAddress < rhs.ioAddress + rhs.ioBlocks) &&
    decide (rhs.ioAddress < r.ioAddress + r.ioBlocks)

def isOverwrittenBy (r rhs : DiffRecord) : Bool :=
  decide (rhs.ioAddress ≤ r.ioAddress) &&
    decide (r.ioAddress + r.ioBlocks ≤ rhs.ioAddress + rhs.ioBlocks)

def Covers (r : DiffRecord) (a : Nat) : Prop := r.ioAddress ≤ a ∧ a < r.endIoAddress

instance (r : DiffRecord) (a : Nat) : Decidable (r.Covers a) := inferInstanceAs (Decidable (_ ∧ _))

/-- The loop of `splitAll` with `remaining` blocks left from `addr` on. -/
def splitLoop (r : DiffRecord) (ioBlocks0 : Nat) : Nat → Nat → Nat → List DiffRecord
  | 0, _, _ => []
  | fuel + 1, addr, remaining =>
      if remaining = 0 then []
      else
        let blks := min ioBlocks0 remaining
        { r with
          ioAddress := addr, ioBlocks := blks,
          dataSize := if r.isNormal then blks * lbs else r.dataSize } ::
          splitLoop r ioBlocks0 fuel (addr + blks) (remaining - blks)

def splitAll (r : DiffRecord) (ioBlocks0 : Nat) : Except String (List DiffRecord) :=
  if ioBlocks0 = 0 then .error "splitAll: ioBlocks0 must not be 0."
  else .ok (splitLoop r ioBlocks0 r.ioBlocks r.ioAddress r.ioBlocks)

end DiffRecord

/-- A record with its data, one `β` for each logical block. -/
structure DiffRecIo (β : Type) where
  record : DiffRecord
  io : List β
  deriving DecidableEq

/-- What a record says about one block. -/
inductive Cell (β : Type) where
  | data (b : β)
  | zero
  | discard
  deriving DecidableEq

variable {β : Type}

def splitIoDataAll (ioBlocks : Nat) : Nat → List β → List (List β)
  | 0, _ => []
  | fuel + 1, buf =>
      if buf = [] then [] else buf.take ioBlocks :: splitIoDataAll ioBlocks fuel (buf.drop ioBlocks)

namespace DiffRecIo

def splitAll (r : DiffRecIo β) (ioBlocks : Nat) : Except String (List (DiffRecIo β)) :=
  match r.record.splitAll ioBlocks with
  | .error e => .error e
  | .ok recV =>
      let ioV := if r.record.isNormal then splitIoDataAll ioBlocks r.io.length r.io
        else List.replicate recV.length []
      .ok (List.zipWith DiffRecIo.mk recV ioV)

/-- What is left of `r` beside the newer record `rhs`. -/
def minus (r rhs : DiffRecIo β) : Except String (List (DiffRecIo β)) :=
  let isNormal := r.record.isNormal
  if r.record.isOverlapped rhs.record = false then .error "Non-overlapped."
  else if r.record.isOverwrittenBy rhs.record then .ok []
  else if rhs.record.isOverwrittenBy r.record then
    let blks0 := rhs.record.ioAddress - r.record.ioAddress
    let blks1 := r.record.endIoAddress - rhs.record.endIoAddress
    let addr1 := r.record.endIoAddress - blks1
    let rec0 := { r.record with ioBlocks := blks0, dataSize := if isNormal then blks0 * lbs else 0 }
    let rec1 := { r.record with
      ioAddress := addr1, ioBlocks := blks1, dataSize := if isNormal then blks1 * lbs else 0 }
    let data0 := if isNormal then r.io.take blks0 else []
    let data1 := if isNormal then (r.io.drop (addr1 - r.record.ioAddress)).take blks1 else []
    .ok ((if 0 < blks0 then [⟨rec0, data0⟩] else []) ++ (if 0 < blks1 then [⟨rec1, data1⟩] else []))
  else if r.record.ioAddress < rhs.record.ioAddress then
    let rblks := r.record.endIoAddress - rhs.record.ioAddress
    let size := r.io.length - rblks
    let rec0 := { r.record with
      ioBlocks := r.record.ioBlocks - rblks,
      dataSize := if isNormal then size * lbs else r.record.dataSize }
    .ok [⟨rec0, if isNormal then r.io.take size else []⟩]
  else
    let rblks := rhs.record.endIoAddress - r.record.ioAddress
    let size := r.io.length - rblks
    let rec1 := { r.record with
      ioAddress := r.record.ioAddress + rblks, ioBlocks := r.record.ioBlocks - rblks,
      dataSize := if isNormal then size * lbs else r.record.dataSize }
    .ok [⟨rec1, if isNormal then (r.io.drop rblks).take size else []⟩]

/-- The data length fits the block count; only normal records carry data. -/
structure Valid (r : DiffRecIo β) : Prop where
  pos : 0 < r.record.ioBlocks
  io_length : r.record.type = .normal → r.io.length = r.record.ioBlocks
  dataSize : r.record.type = .normal → r.record.dataSize = r.record.ioBlocks * lbs
  io_nil : r.record.type ≠ .normal → r.io = []

def cell (r : DiffRecIo β) (a : Nat) : Option (Cell β) :=
  if r.record.Covers a then
    match r.record.type with
    | .normal => (r.io[a - r.record.ioAddress]?).map .data
    | .discard => some .discard
    | .allZero => some .zero
  else none

def Before (r r' : DiffRecIo β) : Prop := r.record.endIoAddress ≤ r'.record.ioAddress

structure Piece (r p : DiffRecIo β) : Prop where
  valid : p.Valid
  begin_le : r.record.ioAddress ≤ p.record.ioAddress
  end_le : p.record.endIoAddress ≤ r.record.endIoAddress
  type : p.record.type = r.record.type
  dataSize_zero : r.record.type ≠ .normal → r.record.dataSize = 0 → p.record.dataSize = 0
  io : p.io = (r.io.drop (p.record.ioAddress - r.record.ioAddress)).take p.record.ioBlocks

/-- Pieces of `r` in address order that cover the blocks of `P`. -/
structure Pieces (r : DiffRecIo β) (P : Nat → Prop) (v : List (DiffRecIo β)) : Prop where
  piece : ∀ p, p ∈ v → Piece r p
  before : v.Pairwise Before
  covers : ∀ a, (∃ p, p ∈ v ∧ p.record.Covers a) ↔ P a

variable {r rhs p : DiffRecIo β} {a : Nat} {c : Cell β}

theorem Valid.cell_eq_none_iff (h : r.Valid) : r.cell a = none ↔ ¬r.record.Covers a := by
  rw [cell]
  split_ifs with hc
  · refine ⟨fun hn => ?_, fun hn => absurd hc hn⟩
    cases ht : r.record.type with
    | normal =>
        obtain ⟨hl, hlt⟩ := hc
        rw [DiffRecord.endIoAddress] at hlt
        simp only [ht, Option.map_eq_none_iff, List.getElem?_eq_none_iff, h.io_length ht] at hn
        omega
    | discard => simp [ht] at hn
    | allZero => simp [ht] at hn
  · exact ⟨fun _ => hc, fun _ => rfl⟩

theorem Piece.covers (h : Piece r p) (hc : p.record.Covers a) : r.record.Covers a :=
  ⟨h.begin_le.trans hc.1, hc.2.trans_le h.end_le⟩

theorem Piece.cell_eq (h : Piece r p) (hc : p.record.Covers a) : p.cell a = r.cell a := by
  rw [cell, cell, if_pos hc, if_pos (h.covers hc), h.type, h.io]
  cases r.record.type with
  | normal =>
      have hb := h.begin_le
      obtain ⟨hl, hlt⟩ := hc
      rw [DiffRecord.endIoAddress] at hlt
      have hidx : p.record.ioAddress - r.record.ioAddress + (a - p.record.ioAddress) =
          a - r.record.ioAddress := by omega
      dsimp only
      rw [List.getElem?_take, if_pos (by omega), List.getElem?_drop, hidx]
  | discard => rfl
  | allZero => rfl

theorem Piece.ioBlocks_le (h : Piece r p) : p.record.ioBlocks ≤ r.record.ioBlocks := by
  have hb := h.begin_le
  have he := h.end_le
  rw [DiffRecord.endIoAddress, DiffRecord.endIoAddress] at he
  omega

theorem Piece.trans {s : DiffRecIo β} (h : Piece r s) (h' : Piece s p) : Piece r p where
  valid := h'.valid
  begin_le := h.begin_le.trans h'.begin_le
  end_le := h'.end_le.trans h.end_le
  type := h'.type.trans h.type
  dataSize_zero ht hz := h'.dataSize_zero (h.type ▸ ht) (h.dataSize_zero ht hz)
  io := by
    have hb := h.begin_le
    have hb' := h'.begin_le
    have he' := h'.end_le
    rw [DiffRecord.endIoAddress, DiffRecord.endIoAddress] at he'
    rw [h'.io, h.io, List.drop_take, List.take_take, List.drop_drop]
    congr 2
    · omega
    · omega

theorem piece_of_valid (h : r.Valid) {addr blks : Nat} {io : List β} {dataSize : Nat} (hpos : 0 < blks)
    (hl : r.record.ioAddress ≤ addr) (hr : addr + blks ≤ r.record.endIoAddress)
    (hsize : r.record.type = .normal → dataSize = blks * lbs)
    (hzero : r.record.type ≠ .normal → r.record.dataSize = 0 → dataSize = 0)
    (hio : io = (r.io.drop (addr - r.record.ioAddress)).take blks) :
    Piece r ⟨⟨addr, blks, dataSize, r.record.type⟩, io⟩ where
  valid := {
    pos := hpos
    io_length := by
      intro ht
      have hlen := h.io_length ht
      rw [DiffRecord.endIoAddress] at hr
      dsimp only
      rw [hio, List.length_take, List.length_drop]
      omega
    dataSize := hsize
    io_nil := by
      intro ht
      dsimp only
      rw [hio, h.io_nil ht, List.drop_nil, List.take_nil] }
  begin_le := hl
  end_le := hr
  type := rfl
  dataSize_zero := hzero
  io := hio

theorem Valid.piece_self (h : r.Valid) : Piece r r := by
  refine piece_of_valid h h.pos le_rfl le_rfl h.dataSize (fun _ hz => hz) ?_
  rw [Nat.sub_self, List.drop_zero]
  by_cases ht : r.record.type = .normal
  · rw [← h.io_length ht, List.take_length]
  · rw [h.io_nil ht, List.take_nil]

theorem Pieces.cell_iff {P : Nat → Prop} {v : List (DiffRecIo β)} (h : Pieces r P v) :
    (∃ p, p ∈ v ∧ p.cell a = some c) ↔ P a ∧ r.cell a = some c := by
  rw [← h.covers a]
  constructor
  · rintro ⟨p, hp, hc⟩
    have hcov : p.record.Covers a := by
      by_contra hn
      rw [(h.piece p hp).valid.cell_eq_none_iff.2 hn] at hc
      cases hc
    exact ⟨⟨p, hp, hcov⟩, by rw [← (h.piece p hp).cell_eq hcov, hc]⟩
  · rintro ⟨⟨p, hp, hcov⟩, hc⟩
    exact ⟨p, hp, by rw [(h.piece p hp).cell_eq hcov, hc]⟩

theorem isOverlapped_iff {r rhs : DiffRecord} :
    r.isOverlapped rhs = true ↔ r.ioAddress < rhs.endIoAddress ∧ rhs.ioAddress < r.endIoAddress := by
  simp [DiffRecord.isOverlapped, DiffRecord.endIoAddress]

theorem isOverwrittenBy_iff {r rhs : DiffRecord} :
    r.isOverwrittenBy rhs = true ↔ rhs.ioAddress ≤ r.ioAddress ∧ r.endIoAddress ≤ rhs.endIoAddress := by
  simp [DiffRecord.isOverwrittenBy, DiffRecord.endIoAddress]

theorem isNormal_iff {r : DiffRecord} : r.isNormal = true ↔ r.type = .normal := by
  simp [DiffRecord.isNormal]

/-- The data is empty in records that are not normal, with or without the test. -/
theorem Valid.ite_io (h : r.Valid) {f : List β → List β} (hf : f [] = []) :
    (if r.record.isNormal then f r.io else []) = f r.io := by
  split_ifs with hn
  · rfl
  · rw [h.io_nil fun ht => hn (isNormal_iff.2 ht), hf]

/-- Cut relative to the data length is cut relative to the block count. -/
theorem Valid.take_length_sub (h : r.Valid) (k n : Nat) :
    (r.io.drop k).take (r.io.length - n) = (r.io.drop k).take (r.record.ioBlocks - n) := by
  by_cases ht : r.record.type = .normal
  · rw [h.io_length ht]
  · rw [h.io_nil ht, List.drop_nil, List.take_nil, List.take_nil]

theorem Pieces.congr {P Q : Nat → Prop} {v : List (DiffRecIo β)} (h : Pieces r P v)
    (hPQ : ∀ a, P a ↔ Q a) : Pieces r Q v :=
  ⟨h.piece, h.before, fun a => (h.covers a).trans (hPQ a)⟩

theorem Pieces.begin {P : Nat → Prop} {v : List (DiffRecIo β)} (h : Pieces r P v) (hp : p ∈ v) :
    P p.record.ioAddress :=
  (h.covers _).1 ⟨p, hp, le_rfl, Nat.lt_add_of_pos_right (h.piece p hp).valid.pos⟩

theorem pieces_nil (r : DiffRecIo β) : Pieces r (fun _ => False) [] :=
  ⟨by simp, .nil, by simp⟩

theorem pieces_singleton (h : Piece r p) : Pieces r p.record.Covers [p] :=
  ⟨by simpa using h, List.pairwise_singleton _ _, by simp⟩

theorem pieces_ite {n : Nat} (h : 0 < n → Piece r p) (hn : n = 0 → ∀ a, ¬p.record.Covers a) :
    Pieces r p.record.Covers (if 0 < n then [p] else []) := by
  split_ifs with hpos
  · exact pieces_singleton (h hpos)
  · exact (pieces_nil r).congr fun a => ⟨False.elim, hn (by omega) a⟩

theorem Pieces.append {P Q : Nat → Prop} {v w : List (DiffRecIo β)} (hv : Pieces r P v)
    (hw : Pieces r Q w) (h : ∀ p, p ∈ v → ∀ q, q ∈ w → Before p q) :
    Pieces r (fun a => P a ∨ Q a) (v ++ w) where
  piece p hp := (List.mem_append.1 hp).elim (hv.piece p) (hw.piece p)
  before := List.pairwise_append.2 ⟨hv.before, hw.before, h⟩
  covers a := by
    rw [← hv.covers a, ← hw.covers a]
    constructor
    · rintro ⟨p, hp, hc⟩
      exact (List.mem_append.1 hp).imp (fun hp => ⟨p, hp, hc⟩) (fun hp => ⟨p, hp, hc⟩)
    · rintro (⟨p, hp, hc⟩ | ⟨p, hp, hc⟩)
      · exact ⟨p, List.mem_append_left _ hp, hc⟩
      · exact ⟨p, List.mem_append_right _ hp, hc⟩

/-- `minus` succeeds on an overlapped record and keeps the blocks outside `rhs`. -/
theorem minus_spec (h : r.Valid) (ho : r.record.isOverlapped rhs.record = true) :
    ∃ v, r.minus rhs = .ok v ∧
      Pieces r (fun a => r.record.Covers a ∧ ¬rhs.record.Covers a) v := by
  obtain ⟨ho₁, ho₂⟩ := isOverlapped_iff.1 ho
  have hend : r.record.endIoAddress = r.record.ioAddress + r.record.ioBlocks := rfl
  have hend' : rhs.record.endIoAddress = rhs.record.ioAddress + rhs.record.ioBlocks := rfl
  have hsize (n : Nat) (m : Nat) (ht : r.record.type = .normal) :
      (if r.record.isNormal then n * lbs else m) = n * lbs := if_pos (isNormal_iff.2 ht)
  have hzero (n : Nat) {m : Nat} (hm : r.record.dataSize = 0 → m = 0) (ht : r.record.type ≠ .normal)
      (hz : r.record.dataSize = 0) : (if r.record.isNormal then n * lbs else m) = 0 := by
    rw [if_neg fun hn => ht (isNormal_iff.1 hn), hm hz]
  have htake (n : Nat) : (if r.record.isNormal then r.io.take n else []) = r.io.take n :=
    h.ite_io (f := fun l => l.take n) List.take_nil
  have hdrop (k n : Nat) :
      (if r.record.isNormal then (r.io.drop k).take n else []) = (r.io.drop k).take n :=
    h.ite_io (f := fun l => (l.drop k).take n) (by rw [List.drop_nil, List.take_nil])
  rw [minus]
  dsimp only
  rw [if_neg (by simp [ho])]
  by_cases h₁ : r.record.isOverwrittenBy rhs.record = true
  · -- nothing is left
    rw [if_pos h₁]
    obtain ⟨hl, hr⟩ := isOverwrittenBy_iff.1 h₁
    refine ⟨_, rfl, (pieces_nil r).congr fun a => ⟨False.elim, fun hc => hc.2 ?_⟩⟩
    exact ⟨hl.trans hc.1.1, hc.1.2.trans_le hr⟩
  rw [if_neg h₁]
  by_cases h₂ : rhs.record.isOverwrittenBy r.record = true
  · -- the head and the tail are left, each of them if it is not empty
    rw [if_pos h₂, htake, hdrop]
    obtain ⟨hl, hr⟩ := isOverwrittenBy_iff.1 h₂
    refine ⟨_, rfl, ((pieces_ite (fun hpos => ?_) (fun hz a => ?_)).append
      (pieces_ite (fun hpos => ?_) (fun hz a => ?_)) ?_).congr fun a => ?_⟩
    · refine piece_of_valid h hpos le_rfl (by omega) (hsize _ _) (hzero _ fun _ => rfl) ?_
      rw [Nat.sub_self, List.drop_zero]
    · simp only [DiffRecord.Covers, DiffRecord.endIoAddress]
      omega
    · exact piece_of_valid h hpos (by omega) (by omega) (hsize _ _) (hzero _ fun _ => rfl) rfl
    · simp only [DiffRecord.Covers, DiffRecord.endIoAddress] at hz ⊢
      omega
    · intro p hp q hq
      rw [List.mem_ite_nil_right, List.mem_singleton] at hp hq
      rw [hp.2, hq.2]
      simp only [Before, DiffRecord.endIoAddress] at hl hr hend hend' ⊢
      omega
    · simp only [DiffRecord.Covers, DiffRecord.endIoAddress] at hl hr hend hend' ⊢
      omega
  rw [if_neg h₂]
  rw [isOverwrittenBy_iff] at h₁ h₂
  by_cases h₃ : r.record.ioAddress < rhs.record.ioAddress
  · -- the head is left
    rw [if_pos h₃, htake]
    have hrange : r.record.ioAddress +
        (r.record.ioBlocks - (r.record.endIoAddress - rhs.record.ioAddress)) = rhs.record.ioAddress := by
      omega
    refine ⟨_, rfl, (pieces_singleton (piece_of_valid h (by omega) le_rfl (by omega) (fun ht => ?_)
      (hzero _ id) ?_)).congr fun a => ?_⟩
    · rw [hsize _ _ ht, h.io_length ht]
    · rw [Nat.sub_self, ← h.take_length_sub, List.drop_zero]
    · simp only [DiffRecord.Covers, DiffRecord.endIoAddress] at hrange ho₁ ho₂ h₁ h₂ ⊢
      omega
  · -- the tail is left
    rw [if_neg h₃, hdrop]
    have hrange : r.record.ioAddress + (rhs.record.endIoAddress - r.record.ioAddress) =
        rhs.record.endIoAddress := by
      omega
    refine ⟨_, rfl, (pieces_singleton (piece_of_valid h (by omega) (by omega) (by omega) (fun ht => ?_)
      (hzero _ id) ?_)).congr fun a => ?_⟩
    · rw [hsize _ _ ht, h.io_length ht]
    · rw [Nat.add_sub_cancel_left, h.take_length_sub]
    · simp only [DiffRecord.Covers, DiffRecord.endIoAddress] at hrange ho₁ ho₂ h₁ h₂ ⊢
      omega

/-- The loop that splits records and the loop that splits data go together. -/
theorem splitLoop_pieces (h : r.Valid) {ioBlocks : Nat} (hpos : 0 < ioBlocks) {ioV : List (List β)}
    {fuel addr remaining : Nat} (hl : r.record.ioAddress ≤ addr)
    (hr : addr + remaining = r.record.endIoAddress) (hf : remaining ≤ fuel)
    (hio : ioV = if r.record.isNormal then
        splitIoDataAll ioBlocks fuel (r.io.drop (addr - r.record.ioAddress))
      else List.replicate (r.record.splitLoop ioBlocks fuel addr remaining).length []) :
    Pieces r (fun a => addr ≤ a ∧ a < r.record.endIoAddress)
      (List.zipWith DiffRecIo.mk (r.record.splitLoop ioBlocks fuel addr remaining) ioV) := by
  induction fuel generalizing addr remaining ioV with
  | zero =>
      rw [DiffRecord.splitLoop, List.zipWith_nil_left]
      exact (pieces_nil r).congr fun a => ⟨False.elim, fun hc => by omega⟩
  | succ fuel ih =>
      rw [DiffRecord.splitLoop] at hio ⊢
      by_cases hz : remaining = 0
      · rw [if_pos hz, List.zipWith_nil_left]
        exact (pieces_nil r).congr fun a => ⟨False.elim, fun hc => by omega⟩
      · rw [if_neg hz] at hio ⊢
        dsimp only at hio ⊢
        have hblks : 0 < min ioBlocks remaining := by omega
        have hlen : r.record.type = .normal → (r.io.drop (addr - r.record.ioAddress)).length =
            remaining := by
          intro ht
          rw [List.length_drop, h.io_length ht]
          rw [DiffRecord.endIoAddress] at hr
          omega
        obtain ⟨io, ioV', hcons, hio', hioV'⟩ : ∃ io ioV', ioV = io :: ioV' ∧
            io = (r.io.drop (addr - r.record.ioAddress)).take (min ioBlocks remaining) ∧
            ioV' = if r.record.isNormal then splitIoDataAll ioBlocks fuel
                (r.io.drop (addr + min ioBlocks remaining - r.record.ioAddress))
              else List.replicate (r.record.splitLoop ioBlocks fuel (addr + min ioBlocks remaining)
                (remaining - min ioBlocks remaining)).length [] := by
          by_cases hn : r.record.isNormal = true
          · have hbuf := hlen (isNormal_iff.1 hn)
            rw [if_pos hn, splitIoDataAll, if_neg (fun hnil => hz (by rw [← hbuf, hnil]; rfl))] at hio
            refine ⟨_, _, hio, ?_, ?_⟩
            · rcases le_total ioBlocks remaining with hle | hle
              · rw [min_eq_left hle]
              · rw [min_eq_right hle, List.take_of_length_le (hbuf.le.trans hle),
                  List.take_of_length_le hbuf.le]
            · rw [if_pos hn, List.drop_drop]
              rcases le_total ioBlocks remaining with hle | hle
              · rw [min_eq_left hle, Nat.sub_add_comm hl]
              · rw [min_eq_right hle, Nat.sub_add_comm hl, ← List.drop_drop, ← List.drop_drop,
                  List.drop_of_length_le (hbuf.le.trans hle), List.drop_of_length_le hbuf.le]
          · rw [if_neg hn, List.length_cons, List.replicate_succ] at hio
            have hnil : r.io = [] := h.io_nil fun ht => hn (isNormal_iff.2 ht)
            exact ⟨_, _, hio, by rw [hnil, List.drop_nil, List.take_nil], by rw [if_neg hn]⟩
        rw [hcons, List.zipWith_cons_cons]
        have hhead : Piece r ⟨⟨addr, min ioBlocks remaining,
            if r.record.isNormal then min ioBlocks remaining * lbs else r.record.dataSize,
            r.record.type⟩, io⟩ :=
          piece_of_valid h hblks hl (by omega) (fun ht => if_pos (isNormal_iff.2 ht))
            (fun ht hz => (if_neg fun hn => ht (isNormal_iff.1 hn)).trans hz) hio'
        have htail := ih (by omega) (by omega) (by omega) hioV'
        refine ((pieces_singleton hhead).append htail fun p hp q hq => ?_).congr fun a => ?_
        · rw [List.mem_singleton.1 hp]
          exact (htail.begin hq).1
        · simp only [DiffRecord.Covers, DiffRecord.endIoAddress] at hr ⊢
          omega

theorem ioBlocks_le_of_mem_splitLoop {record record' : DiffRecord} {ioBlocks fuel addr remaining : Nat}
    (h : record' ∈ record.splitLoop ioBlocks fuel addr remaining) : record'.ioBlocks ≤ ioBlocks := by
  induction fuel generalizing addr remaining with
  | zero => exact absurd h List.not_mem_nil
  | succ fuel ih =>
      rw [DiffRecord.splitLoop] at h
      by_cases hz : remaining = 0
      · rw [if_pos hz] at h
        exact absurd h List.not_mem_nil
      · rw [if_neg hz] at h
        rcases List.mem_cons.1 h with rfl | h
        · exact min_le_left _ _
        · exact ih h

theorem record_mem_of_mem_zipWith {recV : List DiffRecord} {ioV : List (List β)}
    (h : p ∈ List.zipWith DiffRecIo.mk recV ioV) : p.record ∈ recV := by
  induction recV generalizing ioV with
  | nil => exact absurd h List.not_mem_nil
  | cons record recV ih =>
      cases ioV with
      | nil => exact absurd h List.not_mem_nil
      | cons io ioV =>
          rcases List.mem_cons.1 h with rfl | h
          · exact List.mem_cons_self
          · exact List.mem_cons_of_mem _ (ih h)

theorem splitAll_spec (h : r.Valid) {ioBlocks : Nat} (hpos : 0 < ioBlocks) :
    ∃ v, r.splitAll ioBlocks = .ok v ∧ Pieces r r.record.Covers v ∧ ∀ p, p ∈ v →
      p.record.ioBlocks ≤ ioBlocks := by
  have hio : (if r.record.isNormal then splitIoDataAll ioBlocks r.io.length r.io
      else List.replicate (r.record.splitLoop ioBlocks r.record.ioBlocks r.record.ioAddress
        r.record.ioBlocks).length []) =
      if r.record.isNormal then splitIoDataAll ioBlocks r.record.ioBlocks
        (r.io.drop (r.record.ioAddress - r.record.ioAddress))
      else List.replicate (r.record.splitLoop ioBlocks r.record.ioBlocks r.record.ioAddress
        r.record.ioBlocks).length [] := by
    split_ifs with hn
    · rw [h.io_length (isNormal_iff.1 hn), Nat.sub_self, List.drop_zero]
    · rfl
  rw [splitAll, DiffRecord.splitAll, if_neg hpos.ne']
  dsimp only
  exact ⟨_, rfl, splitLoop_pieces h hpos le_rfl rfl le_rfl hio, fun p hp =>
    ioBlocks_le_of_mem_splitLoop (record_mem_of_mem_zipWith hp)⟩

end DiffRecIo

end WalbTools.DiffIo
