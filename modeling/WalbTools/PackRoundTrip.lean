import WalbTools.DiffPack

namespace WalbTools.DiffPack

open ByteMemory DiffIo
open Queue (calcChecksum)

/-- The uncompressor of the library: it is given the size of the output buffer. -/
abbrev Uncompress := Nat → Bytes → Option Bytes

/-- What was compressed comes back where there is room for it, and else there is an error. -/
def Uncompress.Inverts (D : Uncompress) (C : Codec) : Prop :=
  ∀ n b e, C.compress n b = some e → ∀ m, D m e = if b.length ≤ m then some b else none

section

variable (D : Uncompress)

namespace PackUncompressor

def convertRecord (type maxOutSize : Nat) (r : PackRecord) (data : Bytes) :
    Except String (PackRecord × Bytes) :=
  if r.compressionType = WALB_DIFF_CMPR_NONE then
    if maxOutSize < r.dataSize then .error "PackUncompressor:convertRecord:small maxOutSize"
      else .ok (r, data)
  else if r.compressionType ≠ type then .error "PackUncompressor:convertRecord:type mismatch"
  else
    match D maxOutSize data with
    | none => .error "Uncompressor"
    | some out =>
      .ok ({ r with
        compressionType := WALB_DIFF_CMPR_NONE, dataSize := out.length,
        checksum := calcChecksum out 0 }, out)

def convertIo (type maxOutSize : Nat) (r : PackRecord) (data : Bytes) :
    Except String (PackRecord × Bytes) :=
  if r.type = .normal then convertRecord D type maxOutSize r data
    else .ok (r, List.replicate r.dataSize 0)

/-- `g_convert`; what is left of the buffer is a `size_t`. -/
def convertLoop (type maxOutSize outOffset : Nat) :
    List PackRecord → Bytes → Except String (List PackRecord × Bytes)
  | [], _ => .ok ([], [])
  | r :: rs, data => do
    let (r', out) ← convertIo D type ((maxOutSize + 2 ^ 64 - outOffset) % 2 ^ 64) r
      (data.take r.dataSize)
    let (rs', outs) ← convertLoop type maxOutSize ((outOffset + r'.dataSize) % 2 ^ 32) rs
      (data.drop r.dataSize)
    .ok ({ r' with dataOffset := outOffset } :: rs', out ++ outs)

/-- The sum is a `uint32_t`. -/
def calcTotalBlockNum (rs : List PackRecord) : Nat :=
  rs.foldl (fun num r => (num + r.ioBlocks) % 2 ^ 32) 0

/-- The product with 512 is one of 32 bits. -/
def uncompressedSize (p : Pack) : Nat := calcTotalBlockNum p.records * 512 % 2 ^ 32

def convertAs (type : Nat) (p : Pack) : Except String Pack :=
  (convertLoop D type (uncompressedSize p) 0 p.records p.data).map fun (records, data) =>
    ⟨records, data.length % 2 ^ 32, data⟩

end PackUncompressor

end

structure PackRecord.Raw (r : PackRecord) : Prop where
  normal : r.type = .normal → r.compressionType = WALB_DIFF_CMPR_NONE ∧ 0 < r.ioBlocks ∧
    r.dataSize = r.ioBlocks * lbs
  dataSize_zero : r.type ≠ .normal → r.dataSize = 0

structure Raw (p : Pack) : Prop where
  raw : ∀ r ∈ p.records, r.Raw
  placed : Placed p.totalSize 0 p.records
  totalSize : p.totalSize = p.data.length
  fits : p.data.length < 2 ^ 32
  count : p.records.length ≤ MAX_N_RECORDS_IN_WALB_DIFF_PACK

/-- The offsets are the sums of the sizes, the total is that of all, and the pack passes its
checks, those of the checksums among them. -/
structure Laid (p : Pack) : Prop where
  placed : Placed p.totalSize 0 p.records
  totalSize : p.totalSize = p.data.length
  verify : p.verifyDiffPack = .ok ()

/-- Compressed and uncompressed again the pack has its records and its data, and both packs are
in order. -/
def RoundTrips (C : Codec) (D : Uncompress) (type : Nat) (p : Pack) : Prop :=
  Laid (PackCompressor.convertAs C type p) ∧
    ∃ u, PackUncompressor.convertAs D type (PackCompressor.convertAs C type p) = .ok u ∧ Laid u ∧
      u.records.map PackRecord.toDiffRecord = p.records.map PackRecord.toDiffRecord ∧ u.data = p.data

section

variable {C : Codec} {D : Uncompress} {type : Nat} {r r' : PackRecord} {data out : Bytes}

structure Good (r : PackRecord) (data : Bytes) : Prop where
  verify : r.verify = .ok ()
  dataSize_zero : r.type ≠ .normal → r.dataSize = 0
  dataSize : r.dataSize = data.length
  checksum : r.type = .normal → calcChecksum data 0 = r.checksum

/-- A record that has been compressed, and what the uncompressor makes of it. -/
structure Packed (D : Uncompress) (type : Nat) (r r' : PackRecord) (data out : Bytes) : Prop where
  good : Good r' out
  ioBlocks : r'.ioBlocks = r.ioBlocks
  length_le : out.length ≤ data.length
  back : ∀ m offset, data.length ≤ m → ∃ r'', PackUncompressor.convertIo D type m
    { r' with dataOffset := offset } out = .ok (r'', data) ∧
    Good r'' data ∧ r''.toDiffRecord = r.toDiffRecord
  small : ∀ m offset, m < data.length → ∃ e, PackUncompressor.convertIo D type m
    { r' with dataOffset := offset } out = .error e

theorem verify_of_blocks (hpos : 0 < r.ioBlocks) (ht : r.compressionType < WALB_DIFF_CMPR_MAX) :
    r.verify = .ok () := by
  rw [PackRecord.verify, if_neg (not_le.2 ht), if_neg hpos.ne', ite_self]

theorem good_normal (ht : r.type = .normal) (hpos : 0 < r.ioBlocks) {t n : Nat}
    (hmax : t < WALB_DIFF_CMPR_MAX)
    (hn : n = data.length) (offset : Nat) :
    Good { r with
      compressionType := t, dataSize := n, checksum := calcChecksum data 0, dataOffset := offset }
      data where
  verify := verify_of_blocks hpos hmax
  dataSize_zero h := absurd ht h
  dataSize := hn
  checksum _ := rfl

theorem ok_bind {α β : Type} (a : α) (f : α → Except String β) : (Except.ok a >>= f) = f a := rfl

theorem none_lt_max : WALB_DIFF_CMPR_NONE < WALB_DIFF_CMPR_MAX := by decide

theorem packed_raw (hr : r.Raw) (ht : r.type = .normal) (hlen : r.dataSize = data.length) :
    Packed D type r { r with
      compressionType := WALB_DIFF_CMPR_NONE, checksum := calcChecksum data 0 } data data := by
  have hgood := good_normal ht (hr.normal ht).2.1 none_lt_max hlen
  refine ⟨hgood r.dataOffset, rfl, le_rfl, fun m offset hm => ⟨_, ?_, hgood offset, rfl⟩,
    fun m offset hm => ⟨"PackUncompressor:convertRecord:small maxOutSize", ?_⟩⟩
  · rw [PackUncompressor.convertIo, if_pos ht, PackUncompressor.convertRecord, if_pos rfl,
      if_neg (by dsimp only; omega)]
  · rw [PackUncompressor.convertIo, if_pos ht, PackUncompressor.convertRecord, if_pos rfl,
      if_pos (by dsimp only; omega)]

theorem packed_spec (hD : D.Inverts C) (htype : type < WALB_DIFF_CMPR_MAX) (hN : C.Copies type)
    (hr : r.Raw)
    (hlen : r.dataSize = data.length) (n : Nat) :
    Packed D type r (PackCompressor.convertIo C type n r data).1 data
      (PackCompressor.convertIo C type n r data).2 := by
  by_cases ht : r.type = .normal
  · have hpos := (hr.normal ht).2.1
    rw [PackCompressor.convertIo, if_pos ht, PackCompressor.convertRecord]
    cases henc : C.compress n data with
    | none => exact packed_raw hr ht hlen
    | some enc =>
        dsimp only
        split_ifs with hshort
        · have hne : type ≠ WALB_DIFF_CMPR_NONE := fun hz => by
            have hle := hN hz n _ _ henc
            omega
          have hle : enc.length ≤ data.length := (hshort.trans_eq hlen).le
          refine ⟨good_normal ht hpos htype rfl _, rfl, hle,
            fun m offset hm => ⟨_, ?_, good_normal ht hpos none_lt_max rfl offset, ?_⟩,
            fun m offset hm => ⟨"Uncompressor", ?_⟩⟩
          · rw [PackUncompressor.convertIo, if_pos ht, PackUncompressor.convertRecord, if_neg hne,
              if_neg (not_not.2 rfl),
              hD n _ _ henc, if_pos hm]
          · rw [← hlen]
          · rw [PackUncompressor.convertIo, if_pos ht, PackUncompressor.convertRecord, if_neg hne,
              if_neg (not_not.2 rfl),
              hD n _ _ henc, if_neg (not_le.2 hm)]
        · exact packed_raw hr ht hlen
  · have hzero := hr.dataSize_zero ht
    obtain rfl : data = [] := List.length_eq_zero_iff.1 (hlen.symm.trans hzero)
    rw [PackCompressor.convertIo, if_neg ht, hzero, List.replicate_zero]
    have hgood : ∀ offset, Good { r with dataOffset := offset } [] := fun _ =>
      ⟨if_pos ht, fun _ => hzero, hzero, fun hn => absurd hn ht⟩
    refine ⟨hgood r.dataOffset, rfl, le_rfl, fun m offset _ => ⟨_, ?_, hgood offset, rfl⟩,
      fun m _ hm => absurd hm (Nat.not_lt_zero m)⟩
    rw [PackUncompressor.convertIo, if_neg ht]
    dsimp only
    rw [hzero, List.replicate_zero]

theorem Good.checked (h : Good r out) (done rest : Bytes) :
    Checked (done ++ (out ++ rest)) { r with dataOffset := done.length } := by
  refine ⟨h.verify, h.dataSize_zero, ?_, fun ht => ?_⟩
  · simp only [List.length_append, h.dataSize]
    omega
  · rw [← h.checksum ht, List.drop_left, h.dataSize, List.take_left]

theorem room_eq {m off : Nat} (hm : m < 2 ^ 64) (hoff : off ≤ m) :
    (m + 2 ^ 64 - off) % 2 ^ 64 = m - off := by omega

/-- Both conversions, each behind the data that it has written so far: the second gives the data
back where it fits in the buffer, and else it fails. -/
theorem loops_spec (hD : D.Inverts C) (htype : type < WALB_DIFF_CMPR_MAX) (hN : C.Copies type)
    {rs : List PackRecord}
    (hrs : ∀ r ∈ rs, r.Raw) (hsum : (rs.map fun r => r.dataSize).sum = data.length)
    (maxOutSize : Nat) (done : Bytes)
    (hfits : done.length + data.length < 2 ^ 32) :
    ∃ rs' out, PackCompressor.convertLoop C type maxOutSize done.length rs data = (rs', out) ∧
      (rs'.map fun r => r.ioBlocks) = (rs.map fun r => r.ioBlocks) ∧ out.length ≤ data.length ∧
      (∀ r ∈ rs', Checked (done ++ out) r) ∧ Placed (done ++ out).length done.length rs' ∧
      ∀ m (written : Bytes), m < 2 ^ 32 → written.length ≤ m →
        (written.length + data.length ≤ m → ∃ us, PackUncompressor.convertLoop D type m
        written.length rs' out = .ok (us, data) ∧
          us.map PackRecord.toDiffRecord = rs.map PackRecord.toDiffRecord ∧
          (∀ r ∈ us, Checked (written ++ data) r) ∧
          Placed (written ++ data).length written.length us) ∧
        (m < written.length + data.length → ∃ e, PackUncompressor.convertLoop D type m
        written.length rs' out = .error e) := by
  induction rs generalizing data done with
  | nil =>
      obtain rfl : data = [] := List.length_eq_zero_iff.1 hsum.symm
      refine ⟨[], [], rfl, rfl, le_rfl, nofun, by simp [Placed],
        fun m written _ hle => ⟨fun _ => ⟨[], rfl, rfl, nofun, by simp [Placed]⟩, fun h => ?_⟩⟩
      exact absurd h (not_lt.2 hle)
  | cons r rs ih =>
      obtain ⟨hr, hrs⟩ := List.forall_mem_cons.1 hrs
      rw [List.map_cons, List.sum_cons] at hsum
      have htake : r.dataSize = (data.take r.dataSize).length := by
        rw [List.length_take]
        omega
      have hdrop : (rs.map fun r => r.dataSize).sum = (data.drop r.dataSize).length := by
        rw [List.length_drop]
        omega
      have hpacked := @packed_spec C D _ _ _ hD htype hN hr htake (maxOutSize - done.length)
      rw [PackCompressor.convertLoop]
      generalize PackCompressor.convertIo C type (maxOutSize - done.length) r
        (data.take r.dataSize) = conv at hpacked
      obtain ⟨r', out⟩ := conv
      dsimp only at hpacked ⊢
      have hgood := hpacked.good
      have hle := hpacked.length_le
      rw [List.length_take] at hle
      have hmod : (done.length + r'.dataSize) % 2 ^ 32 = (done ++ out).length := by
        rw [hgood.dataSize, List.length_append]
        exact Nat.mod_eq_of_lt (by omega)
      obtain ⟨rs', outs, hloop, hblocks, hout, hchecked, hplaced, hback⟩ :=
        ih hrs hdrop (done ++ out) (by
        rw [List.length_append, List.length_drop]
        omega)
      rw [List.length_drop] at hout
      rw [hmod, hloop]
      dsimp only
      refine ⟨_, _, rfl, ?_, ?_, ?_, ⟨rfl, ?_⟩, fun m written hm hwritten => ?_⟩
      · rw [List.map_cons, List.map_cons, hblocks, hpacked.ioBlocks]
      · rw [List.length_append]
        omega
      · refine List.forall_mem_cons.2 ⟨hgood.checked done outs, ?_⟩
        rw [← List.append_assoc]
        exact hchecked
      · dsimp only
        rwa [hgood.dataSize, ← List.length_append, ← List.append_assoc]
      · have htook : (out ++ outs).take r'.dataSize = out := by rw [hgood.dataSize, List.take_left]
        have hleft : (out ++ outs).drop r'.dataSize = outs := by rw [hgood.dataSize, List.drop_left]
        rw [PackUncompressor.convertLoop, room_eq (by omega) hwritten, htook, hleft]
        by_cases hfirst : r.dataSize ≤ m - written.length
        · obtain ⟨r'', hconv, hgood', hcore⟩ :=
            hpacked.back (m - written.length) done.length (by rwa [← htake])
          have hnext : (written.length + r''.dataSize) % 2 ^ 32 =
              (written ++ data.take r.dataSize).length := by
            rw [hgood'.dataSize, ← htake, List.length_append, ← htake]
            exact Nat.mod_eq_of_lt (by omega)
          have hlen : (written ++ data.take r.dataSize).length = written.length + r.dataSize := by
            rw [List.length_append, ← htake]
          obtain ⟨hall, hsmall⟩ := hback m (written ++ data.take r.dataSize) hm (by omega)
          rw [hlen, List.length_drop] at hall hsmall
          rw [hlen] at hnext
          rw [hconv, ok_bind]
          dsimp only
          rw [hnext]
          refine ⟨fun hroom => ?_, fun hroom => ?_⟩
          · obtain ⟨us, hus, hcores, huchecked, huplaced⟩ := hall (by omega)
            rw [List.append_assoc, List.take_append_drop] at huchecked huplaced
            refine ⟨{ r'' with dataOffset := written.length } :: us, ?_, ?_, ?_, rfl, ?_⟩
            · rw [hus, ok_bind, List.take_append_drop]
            · rw [List.map_cons, List.map_cons, hcores, ← hcore]
            · have hhead := hgood'.checked written (data.drop r.dataSize)
              rw [List.take_append_drop] at hhead
              exact List.forall_mem_cons.2 ⟨hhead, huchecked⟩
            · dsimp only
              rwa [hgood'.dataSize, ← htake]
          · obtain ⟨e, he⟩ := hsmall (by omega)
            exact ⟨e, by rw [he]; rfl⟩
        · obtain ⟨e, he⟩ := hpacked.small (m - written.length) done.length (by rw [← htake]; omega)
          refine ⟨fun hroom => absurd hroom (by omega), fun _ => ⟨e, ?_⟩⟩
          rw [he]
          rfl

theorem placed_sum {e off : Nat} {rs : List PackRecord} (h : Placed e off rs) :
    off + (rs.map fun r => r.dataSize).sum = e := by
  induction rs generalizing off with
  | nil => exact h
  | cons r rs ih => rw [List.map_cons, List.sum_cons, ← Nat.add_assoc, ih h.2]

theorem calcTotalBlockNum_eq (rs : List PackRecord) :
    PackUncompressor.calcTotalBlockNum rs = (rs.map fun r => r.ioBlocks).sum % 2 ^ 32 := by
  have hfold : ∀ num, rs.foldl (fun num r => (num + r.ioBlocks) % 2 ^ 32) (num % 2 ^ 32) =
      (num + (rs.map fun r => r.ioBlocks).sum) % 2 ^ 32 := by
    induction rs with
    | nil => exact fun num => rfl
    | cons r rs ih =>
        intro num
        rw [List.foldl_cons, Nat.mod_add_mod, ih, List.map_cons, List.sum_cons, Nat.add_assoc]
  rw [PackUncompressor.calcTotalBlockNum, ← Nat.zero_add (List.sum _), ← hfold, Nat.zero_mod]

theorem uncompressedSize_eq (p : Pack) :
    PackUncompressor.uncompressedSize p = (p.records.map fun r => r.ioBlocks).sum * 512 % 2 ^ 32 := by
  rw [PackUncompressor.uncompressedSize, calcTotalBlockNum_eq, Nat.mod_mul_mod]

/-- A pack comes back exactly when its data fits in the buffer that the uncompressor allocates. -/
theorem roundTrips_of_raw (hD : D.Inverts C) (htype : type < WALB_DIFF_CMPR_MAX)
    (hN : C.Copies type) {p : Pack} (hp : Raw p) :
    RoundTrips C D type p ↔ p.totalSize ≤ PackUncompressor.uncompressedSize p := by
  have hsum : (p.records.map fun r => r.dataSize).sum = p.data.length := by
    rw [← hp.totalSize, ← placed_sum hp.placed, Nat.zero_add]
  obtain ⟨rs', out, hloop, hblocks, hout, hchecked, hplaced, hback⟩ :=
    loops_spec hD htype hN hp.raw hsum (p.totalSize + 4096) [] (by simpa using hp.fits)
  have hfits := hp.fits
  have hconv : PackCompressor.convertAs C type p = ⟨rs', out.length, out⟩ := by
    rw [List.length_nil] at hloop
    rw [PackCompressor.convertAs, hloop]
    dsimp only
    rw [Nat.mod_eq_of_lt (by omega)]
  have hcount : rs'.length = p.records.length := by
    have hlen := congrArg List.length hblocks
    rwa [List.length_map, List.length_map] at hlen
  have hsize : PackUncompressor.uncompressedSize ⟨rs', out.length, out⟩ =
      PackUncompressor.uncompressedSize p := by
    rw [uncompressedSize_eq, uncompressedSize_eq, hblocks]
  have hlaid : Laid ⟨rs', out.length, out⟩ :=
    ⟨hplaced, rfl, verifyDiffPack_eq_ok rfl (hcount.le.trans hp.count) hchecked⟩
  have hm : PackUncompressor.uncompressedSize p < 2 ^ 32 := Nat.mod_lt _ (by decide)
  obtain ⟨hall, hsmall⟩ := hback (PackUncompressor.uncompressedSize p) [] hm (Nat.zero_le _)
  rw [List.length_nil, Nat.zero_add, ← hp.totalSize] at hall hsmall
  rw [RoundTrips, hconv, PackUncompressor.convertAs, hsize]
  constructor
  · rintro ⟨-, u, hu, -⟩
    by_contra hbig
    obtain ⟨e, he⟩ := hsmall (not_le.1 hbig)
    rw [he] at hu
    cases hu
  · intro hroom
    obtain ⟨us, hus, hcores, huchecked, huplaced⟩ := hall hroom
    have hucount : us.length = p.records.length := by
      have hlen := congrArg List.length hcores
      rwa [List.length_map, List.length_map] at hlen
    refine ⟨hlaid, ⟨us, p.data.length, p.data⟩, ?_, ?_, hcores, rfl⟩
    · rw [hus]
      exact congrArg (fun n => Except.ok (Pack.mk us n p.data)) (Nat.mod_eq_of_lt hfits)
    · exact ⟨huplaced, rfl, verifyDiffPack_eq_ok rfl (hucount.le.trans hp.count) huchecked⟩

/-- A pack makes the round trip exactly when its data is not larger than 512 bytes for each
block of each record, also of those without data, modulo 2³². -/
theorem pack_round_trips_iff (hD : D.Inverts C) (htype : type < WALB_DIFF_CMPR_MAX)
    (hN : C.Copies type) {p : Pack} (hp : Raw p) :
    RoundTrips C D type p ↔ p.data.length ≤ (p.records.map fun r => r.ioBlocks).sum * 512 % 2 ^ 32 := by
  rw [roundTrips_of_raw hD htype hN hp, uncompressedSize_eq, hp.totalSize]

end

def decliningCodec : Codec := ⟨fun _ _ => none, some⟩

/-- A block of data, and a discard of the given number of blocks. -/
def blockAndDiscard (b : LogicalBlock) (n : Nat) : Pack :=
  ⟨[⟨⟨0, 1, 512, .normal⟩, WALB_DIFF_CMPR_NONE, 0, 0⟩, ⟨⟨8, n, 0, .discard⟩, WALB_DIFF_CMPR_NONE,
    512, 0⟩], 512, b.bytes⟩

theorem raw_blockAndDiscard (b : LogicalBlock) (n : Nat) : Raw (blockAndDiscard b n) where
  raw := List.forall_mem_cons.2 ⟨⟨fun _ => ⟨rfl, Nat.one_pos, rfl⟩, fun h => absurd rfl h⟩,
    List.forall_mem_singleton.2 ⟨nofun, fun _ => rfl⟩⟩
  placed := ⟨rfl, rfl, rfl⟩
  totalSize := b.length_bytes.symm
  fits := b.length_bytes.trans_lt (by decide)
  count := show 2 ≤ MAX_N_RECORDS_IN_WALB_DIFF_PACK by decide

theorem inverts_declining : Uncompress.Inverts (fun _ e => some e) decliningCodec := nofun

theorem pack_round_trips_iff_eight : ∃ b : LogicalBlock,
    RoundTrips decliningCodec (fun _ e => some e) 2 (blockAndDiscard b 8) := by
  refine ⟨⟨List.replicate lbs 7, List.length_replicate⟩, ?_⟩
  rw [pack_round_trips_iff inverts_declining (by decide) (fun h => absurd h (by decide))
    (raw_blockAndDiscard _ 8)]
  exact le_of_eq_of_le List.length_replicate (by decide)

/-- One block, and a discard of all but one of the blocks of 4 GiB. -/
theorem not_round_trips : ¬∀ (C : Codec) (D : Uncompress) (type : Nat)
    (p : Pack), D.Inverts C → type < WALB_DIFF_CMPR_MAX →
    C.Copies type → Raw p → RoundTrips C D type p := by
  intro h
  have b : LogicalBlock := ⟨List.replicate lbs 7, List.length_replicate⟩
  have hback := h decliningCodec (fun _ e => some e) 2 (blockAndDiscard b (2 ^ 23 - 1))
    inverts_declining (by decide)
    (fun hz => absurd hz (by decide)) (raw_blockAndDiscard b _)
  rw [roundTrips_of_raw inverts_declining (by decide) (fun hz => absurd hz (by decide))
    (raw_blockAndDiscard b _),
    uncompressedSize_eq] at hback
  exact absurd hback (by simp [blockAndDiscard])

end WalbTools.DiffPack
