import WalbTools.LogPackEdit

namespace WalbTools.LogPack

open DiffIo (lbs)
open LogPackHeader (moved maxNLogRecordInSector)

/-- Each record begins where the data of those before it ends, the first one at `start`. -/
def Chained (pbs : Nat) : Nat → List WlogRecord → Prop
  | _, [] => True
  | start, r :: records => r.lsidLocal = start ∧ Chained pbs (start + r.dataPb pbs) records

section

variable {pbs start : Nat} {r : WlogRecord} {records records' : List WlogRecord}

@[simp] theorem dataPb_nil : dataPb pbs [] = 0 := rfl

@[simp] theorem dataPb_cons : dataPb pbs (r :: records) = r.dataPb pbs + dataPb pbs records :=
  List.sum_cons

@[simp] theorem dataPb_append : dataPb pbs (records ++ records') = dataPb pbs records +
    dataPb pbs records' := by
  simp only [dataPb, List.map_append, List.sum_append]

theorem chained_append : Chained pbs start (records ++ records') ↔
    Chained pbs start records ∧ Chained pbs (start + dataPb pbs records) records' := by
  induction records generalizing start with
  | nil => simp only [List.nil_append, Chained, dataPb_nil, Nat.add_zero, true_and]
  | cons r records ih => simp only [List.cons_append, Chained, ih, dataPb_cons, and_assoc, Nat.add_assoc]

theorem Chained.lsidLocal_getElem {i : Nat} (h : Chained pbs start records) (hi : i < records.length) :
    records[i].lsidLocal = start + dataPb pbs (records.take i) := by
  have hsplit := List.take_append_drop i records
  rw [← hsplit, chained_append, List.drop_eq_getElem_cons hi] at h
  exact h.2.1

theorem dataPb_take_le (n : Nat) : dataPb pbs (records.take n) ≤ dataPb pbs records := by
  calc dataPb pbs (records.take n) ≤ dataPb pbs (records.take n) + dataPb pbs (records.drop n) :=
    Nat.le_add_right _ _
    _ = dataPb pbs records := by rw [← dataPb_append, List.take_append_drop]

theorem dataPb_of_discard (hd : r.isDiscard = true) : r.dataPb pbs = 0 := by
  rw [WlogRecord.dataPb, WlogRecord.hasData, hd, Bool.not_true, Bool.and_false]
  rfl

theorem countedPb_eq (h : ∀ r ∈ records, r.isValid = true) :
    countedPb pbs records = dataPb pbs records := by
  refine congrArg List.sum (List.map_congr_left fun r hr => ?_)
  have hvalid := h r hr
  simp only [WlogRecord.isValid, Bool.and_eq_true] at hvalid
  rw [WlogRecord.dataPb, WlogRecord.hasData, hvalid.1.1.1.1, Bool.true_and]
  cases r.isDiscard <;> rfl

/-- The record doubled and the record lost are discards, or there is only one record to move. -/
def Moves (records : List WlogRecord) : Prop :=
  records.length ≤ 1 ∨ ∀ r, r ∈ records.head? ∨ r ∈ records.getLast? → r.isDiscard = true

theorem mem_of_mem_moved (h : r ∈ moved records) : r ∈ records := by
  cases records with
  | nil => exact h
  | cons a rest =>
      obtain rfl | hr := List.mem_cons.1 h
      · exact List.mem_cons_self
      · exact List.mem_of_mem_dropLast hr

theorem moved_of_moves (h : Moves records) : moved records = records ∨
    ∃ a mid z, records = a :: (mid ++ [z]) ∧ moved records = a :: a :: mid ∧ a.isDiscard = true ∧
    z.isDiscard = true := by
  cases records with
  | nil => exact .inl rfl
  | cons a rest =>
      obtain rfl | ⟨mid, z, rfl⟩ := List.eq_nil_or_concat' rest
      · exact .inl rfl
      · refine .inr ⟨a, mid, z, rfl, ?_, ?_⟩
        · rw [moved, ← List.cons_append, List.dropLast_concat]
        · obtain hlen | hdiscard := h
          · rw [List.length_cons, List.length_append, List.length_singleton] at hlen
            omega
          · refine ⟨hdiscard a (.inl rfl), hdiscard z (.inr ?_)⟩
            rw [← List.cons_append, List.getLast?_concat]
            rfl

theorem dataPb_moved (h : Moves records) : dataPb pbs (moved records) = dataPb pbs records := by
  obtain hsame | ⟨a, mid, z, rfl, hmoved, ha, hz⟩ := moved_of_moves h
  · rw [hsame]
  · rw [hmoved]
    simp only [dataPb_cons, dataPb_append, dataPb_nil, dataPb_of_discard ha, dataPb_of_discard hz]
    omega

theorem chained_moved (h : Moves records) (hc : Chained pbs start records) :
    Chained pbs start (moved records) := by
  obtain hsame | ⟨a, mid, z, rfl, hmoved, ha, -⟩ := moved_of_moves h
  · rwa [hsame]
  · rw [hmoved]
    rw [← List.cons_append, chained_append] at hc
    refine ⟨hc.1.1, ?_⟩
    rw [dataPb_of_discard ha]
    exact hc.1

theorem countP_moved {p : WlogRecord → Bool} (h : Moves records)
    (hp : ∀ r, r ∈ records → r.isDiscard = true → p r = false) :
    (moved records).countP p = records.countP p := by
  obtain hsame | ⟨a, mid, z, rfl, hmoved, ha, hz⟩ := moved_of_moves h
  · rw [hsame]
  · have hpa := hp a List.mem_cons_self ha
    have hpz := hp z (List.mem_cons_of_mem _ (List.mem_append_right _ (List.mem_singleton_self z))) hz
    rw [hmoved]
    simp [List.countP_append, hpa, hpz]

end

namespace LogPackHeader

structure LaidOut (h : LogPackHeader) : Prop where
  lsid : ∀ r ∈ h.records, r.lsid = h.logpackLsid + r.lsidLocal
  lsidLocal : ∀ (i : Nat) (hi : i < h.records.length), h.records[i].lsidLocal = 1 +
    dataPb h.pbs (h.records.take i)
  totalIoSize : h.totalIoSize = dataPb h.pbs h.records
  nPadding : h.nPadding = h.records.countP WlogRecord.isPadding
  isValid : h.isValidNoChecksum = true

structure Kept (h : LogPackHeader) : Prop where
  blockSize : BlockSize h.pbs
  capacity : h.nRecords ≤ maxNLogRecordInSector h.pbs
  sectorType : h.sectorType = SECTOR_TYPE_LOGPACK
  valid : ∀ r ∈ h.records, r.isValid = true
  plain : ∀ r ∈ h.records, r.isDiscard = true → r.isPadding = false
  lsid : ∀ r ∈ h.records, r.lsid = h.logpackLsid + r.lsidLocal
  chained : Chained h.pbs 1 h.records
  totalIoSize : h.totalIoSize = dataPb h.pbs h.records
  nPadding : h.nPadding = h.records.countP WlogRecord.isPadding
  nPadding_le : h.nPadding ≤ 1
  end_lt : h.records ≠ [] → h.logpackLsid + 1 + h.totalIoSize < 2 ^ 64

section

variable {h : LogPackHeader}

theorem size_le_pbs {pbs : Nat} (hb : BlockSize pbs) : size ≤ pbs := by
  have hle := Nat.le_of_dvd hb.pos hb.dvd
  rw [lbs] at hle
  rw [size]
  omega

theorem packLsid_eq {r : WlogRecord} (hr : r.lsid = h.logpackLsid + r.lsidLocal)
    (hlocal : r.lsidLocal < 2 ^ 64) :
    (r.lsid + (2 ^ 64 - r.lsidLocal)) % 2 ^ 64 = h.logpackLsid := by
  have hlt := logpackLsid_lt (h := h)
  omega

theorem Kept.isValid (hk : Kept h) : h.isValidNoChecksum = true := by
  have hpbs : h.pbs ≠ 0 := hk.blockSize.pos.ne'
  have hheader : h.isValidHeader = true := by
    rw [isValidHeader, hk.sectorType]
    by_cases hn : h.nRecords = 0
    · have hnil : h.records = [] := List.eq_nil_of_length_eq_zero (by rw [length_records, hn])
      have htotal : h.totalIoSize = 0 := by rw [hk.totalIoSize, hnil, dataPb_nil]
      have hpadding : h.nPadding = 0 := by rw [hk.nPadding, hnil, List.countP_nil]
      rw [if_pos hn, htotal, hpadding]
      rfl
    · have hne : h.records ≠ [] := fun hnil => hn (by rw [← length_records, hnil, List.length_nil])
      have hend := hk.end_lt hne
      have hle := hk.nPadding_le
      have hcount : h.nPadding ≤ h.nRecords := by
        rw [hk.nPadding, ← length_records]
        exact List.countP_le_length
      rw [if_neg hn, Nat.mod_eq_of_lt hend]
      simp only [decide_true, Bool.true_and, Bool.and_eq_true, decide_eq_true_eq]
      omega
  have hrecords : ∀ r ∈ h.records, (r.isValid && decide ((r.lsid +
      (2 ^ 64 - r.lsidLocal)) % 2 ^ 64 = h.logpackLsid)) = true := by
    intro r hr
    have hlocal : r.lsidLocal < 2 ^ 64 := by
      obtain ⟨i, -, rfl⟩ := List.mem_map.1 hr
      exact fits_record.lsidLocal.trans (by decide)
    rw [hk.valid r hr, packLsid_eq (hk.lsid r hr) hlocal, decide_eq_true rfl]
    rfl
  rw [isValidNoChecksum, isValidHeaderAndRecords, hheader, decide_eq_true hpbs,
    List.all_eq_true.2 hrecords]
  rfl

theorem Kept.laidOut (hk : Kept h) : LaidOut h :=
  ⟨hk.lsid, fun _ hi => hk.chained.lsidLocal_getElem hi, hk.totalIoSize, hk.nPadding, hk.isValid⟩

/-- There is room for one more record, with data of `sizePb` blocks, unless the addition is
refused. -/
def Room (h : LogPackHeader) (sizePb : Nat) : Prop :=
  h.nRecords < maxNLogRecordInSector h.pbs → h.totalIoSize + sizePb ≤
    MAX_TOTAL_IO_SIZE_IN_LOGPACK_HEADER →
    h.nRecords + 1 < 2 ^ 16 ∧ h.totalIoSize + 1 < 2 ^ 16 ∧
    h.logpackLsid + (h.totalIoSize + 1) ≤ MAX_LSID ∧
      h.logpackLsid + 1 + (h.totalIoSize + sizePb) < 2 ^ 64

inductive Edit
  | addNormalIo (offset size : Nat)
  | addDiscardIo (offset size : Nat)
  | addPadding (size : Nat)
  | shrink (invalidIdx : Nat)
  | invalidate (idx : Nat)
  | updateLsid (newLsid : Nat)

namespace Edit

def apply (h : LogPackHeader) : Edit → LogPackHeader
  | addNormalIo offset size => (h.addNormalIo offset size).2
  | addDiscardIo offset size => (h.addDiscardIo offset size).2
  | addPadding size => (h.addPadding size).2
  | shrink invalidIdx => h.shrink invalidIdx
  | invalidate idx => (h.invalidate idx).2
  | updateLsid newLsid => (h.updateLsid newLsid).2

/-- The arguments have their types, and what the code asserts of them holds. -/
def Allowed (h : LogPackHeader) : Edit → Prop
  | addNormalIo offset size => offset < 2 ^ 64 ∧ size < 2 ^ 16
  | addDiscardIo offset size => offset < 2 ^ 64 ∧ size < 2 ^ 32
  | addPadding size => size < 2 ^ 16
  | shrink invalidIdx => invalidIdx < h.nRecords
  | invalidate idx => idx < h.nRecords
  | updateLsid newLsid => newLsid < 2 ^ 64 - 1 ∧ h.isValidNoChecksum = true

/-- An addition that the code refuses, with `false` or with an exception. -/
def Rejected (h : LogPackHeader) : Edit → Prop
  | addNormalIo offset size => (h.addNormalIo offset size).1.toOption ≠ some true
  | addDiscardIo offset size => (h.addDiscardIo offset size).1.toOption ≠ some true
  | addPadding size => (h.addPadding size).1.toOption ≠ some true
  | _ => False

/-- The edit has the room it needs, and `invalidate` meets no normal record and has no more than
one to move, unless the one it doubles and the one it loses are both discards. -/
def Clear (h : LogPackHeader) : Edit → Prop
  | addNormalIo _ size => 0 < size → h.Room (capacityPb h.pbs size)
  | addDiscardIo _ size => 0 < size → h.Room 0
  | addPadding size => h.nPadding = 0 → size % (h.pbs / lbs) = 0 → h.Room (capacityPb h.pbs size)
  | shrink _ => True
  | invalidate idx =>
      (h.record idx).isPadding = true ∨ (h.record idx).isDiscard = true ∧
        Moves (h.records.drop (idx + 1))
  | updateLsid newLsid => (∀ r ∈ h.records, newLsid + r.lsidLocal ≤ MAX_LSID) ∧
      (h.records ≠ [] → newLsid + 1 + h.totalIoSize < 2 ^ 64)

end Edit

theorem Kept.push {h' : LogPackHeader} {r : WlogRecord} {p : Nat} (hk : Kept h) (hpbs : h'.pbs = h.pbs)
    (hcontents : h'.contents =
      { h.contents with
        totalIoSize := h.totalIoSize + r.dataPb h.pbs
        nPadding := h.nPadding + p
        records := h.records ++ [r] })
    (hpad : p = if r.isPadding then 1 else 0) (hcap : h.nRecords < maxNLogRecordInSector h.pbs)
      (hvalid : r.isValid = true)
    (hplain : r.isDiscard = true → r.isPadding = false) (hlocal : r.lsidLocal = h.totalIoSize + 1)
    (hlsid : r.lsid = h.logpackLsid + r.lsidLocal) (hone : h.nPadding + p ≤ 1)
    (hend : h.logpackLsid + 1 + (h.totalIoSize + r.dataPb h.pbs) < 2 ^ 64) : Kept h' := by
  have hsector : h'.sectorType = h.sectorType := congrArg Contents.sectorType hcontents
  have htotal : h'.totalIoSize = h.totalIoSize + r.dataPb h.pbs :=
    congrArg Contents.totalIoSize hcontents
  have hpack : h'.logpackLsid = h.logpackLsid := congrArg Contents.logpackLsid hcontents
  have hpadding : h'.nPadding = h.nPadding + p := congrArg Contents.nPadding hcontents
  have hrecords : h'.records = h.records ++ [r] := congrArg Contents.records hcontents
  refine ⟨by rw [hpbs]; exact hk.blockSize, ?_, hsector.trans hk.sectorType, ?_, ?_, ?_, ?_, ?_, ?_,
    ?_, ?_⟩
  · rw [← length_records, hrecords, List.length_append, length_records, hpbs]
    exact hcap
  · rw [hrecords, List.forall_mem_append]
    exact ⟨hk.valid, List.forall_mem_singleton.2 hvalid⟩
  · rw [hrecords, List.forall_mem_append]
    exact ⟨hk.plain, List.forall_mem_singleton.2 hplain⟩
  · rw [hrecords, List.forall_mem_append, hpack]
    exact ⟨hk.lsid, List.forall_mem_singleton.2 hlsid⟩
  · rw [hrecords, hpbs, chained_append, ← hk.totalIoSize]
    exact ⟨hk.chained, hlocal.trans (Nat.add_comm _ 1), trivial⟩
  · rw [htotal, hrecords, hpbs, dataPb_append, dataPb_cons, dataPb_nil, hk.totalIoSize, Nat.add_zero]
  · rw [hpadding, hrecords, List.countP_append, ← hk.nPadding, hpad, List.countP_cons,
      List.countP_nil, Nat.zero_add]
  · rwa [hpadding]
  · intro _
    rwa [hpack, htotal]

theorem newRecord_lsidLocal {flags offset ioSize : Nat} (hlocal : h.totalIoSize + 1 < 2 ^ 16) :
    (h.newRecord flags offset ioSize).lsidLocal = h.totalIoSize + 1 := Nat.mod_eq_of_lt hlocal

theorem newRecord_lsid {flags offset ioSize : Nat} (hlocal : h.totalIoSize + 1 < 2 ^ 16)
    (hlsid : h.logpackLsid + (h.totalIoSize + 1) ≤ MAX_LSID) :
    (h.newRecord flags offset ioSize).lsid = h.logpackLsid + (h.totalIoSize + 1) := by
  rw [MAX_LSID] at hlsid
  rw [newRecord, Nat.mod_eq_of_lt hlocal, Nat.mod_eq_of_lt (by omega)]

theorem newRecord_isValid {flags offset ioSize : Nat} (hlocal : h.totalIoSize + 1 < 2 ^ 16)
    (hlsid : h.logpackLsid + (h.totalIoSize + 1) ≤ MAX_LSID) (hexist : flags.testBit 0 = true)
    (hsize : flags.testBit 1 = true ∨ 0 < ioSize)
    (hmax : flags.testBit 2 = true ∨ ioSize ≤ WALB_MAX_NORMAL_IO_SECTORS) :
    (h.newRecord flags offset ioSize).isValid = true := by
  simp only [WlogRecord.isValid, Bool.and_eq_true, Bool.or_eq_true, decide_eq_true_eq,
    newRecord_lsidLocal hlocal,
    newRecord_lsid hlocal hlsid]
  exact ⟨⟨⟨⟨hexist, hsize⟩, hmax⟩, Nat.succ_pos _⟩, hlsid⟩

theorem newRecord_dataPb {flags offset ioSize : Nat} (hexist : flags.testBit 0 = true)
    (hdiscard : flags.testBit 2 = false) :
    (h.newRecord flags offset ioSize).dataPb h.pbs = capacityPb h.pbs ioSize := by
  simp only [WlogRecord.dataPb, WlogRecord.hasData, WlogRecord.isExist, WlogRecord.isDiscard,
    newRecord, hexist, hdiscard]
  rfl

theorem contents_addNormalIo {offset size : Nat} (hb : BlockSize h.pbs)
    (hfull : h.nRecords < maxNLogRecordInSector h.pbs)
    (hbig : h.totalIoSize + capacityPb h.pbs size ≤ MAX_TOTAL_IO_SIZE_IN_LOGPACK_HEADER)
    (hzero : 0 < size)
    (hn : h.nRecords + 1 < 2 ^ 16) (ho : offset < 2 ^ 64) (hs : size < 2 ^ 16) :
    (h.addNormalIo offset size).2.contents =
      { h.contents with
        totalIoSize := h.totalIoSize + capacityPb h.pbs size
        records := h.records ++ [h.newRecord 1 offset size] } := by
  have htotal : h.totalIoSize + capacityPb h.pbs size < 2 ^ 16 := Nat.lt_succ_of_le hbig
  rw [LogPackHeader.addNormalIo, if_neg hfull.not_ge, if_neg hbig.not_gt, if_neg hzero.ne',
    contents_setTotalIoSize (by simpa using size_le_pbs hb),
    contents_pushRecord hfull hn (fits_newRecord (by decide) ho (by omega)),
    Nat.mod_eq_of_lt htotal]

theorem contents_addDiscardIo {offset size : Nat} (hfull : h.nRecords < maxNLogRecordInSector h.pbs)
    (hzero : 0 < size)
    (hn : h.nRecords + 1 < 2 ^ 16) (ho : offset < 2 ^ 64) (hs : size < 2 ^ 32) :
    (h.addDiscardIo offset size).2.contents = { h.contents with
      records := h.records ++ [h.newRecord 5 offset size] } := by
  rw [LogPackHeader.addDiscardIo, if_neg hfull.not_ge, if_neg hzero.ne',
    contents_pushRecord hfull hn (fits_newRecord (by decide) ho hs)]

theorem contents_addPadding {size : Nat} (hb : BlockSize h.pbs)
    (hfull : h.nRecords < maxNLogRecordInSector h.pbs)
    (hbig : h.totalIoSize + capacityPb h.pbs size ≤ MAX_TOTAL_IO_SIZE_IN_LOGPACK_HEADER)
    (hnone : h.nPadding = 0)
    (halign : size % (h.pbs / lbs) = 0) (hn : h.nRecords + 1 < 2 ^ 16) (hs : size < 2 ^ 16) :
    (h.addPadding size).2.contents =
      { h.contents with
        totalIoSize := h.totalIoSize + capacityPb h.pbs size
        nPadding := h.nPadding + 1
        records := h.records ++ [h.newRecord 3 0 size] } := by
  have htotal : h.totalIoSize + capacityPb h.pbs size < 2 ^ 16 := Nat.lt_succ_of_le hbig
  rw [LogPackHeader.addPadding, if_neg hfull.not_ge, if_neg hbig.not_gt, if_neg hnone.not_gt,
    if_neg (not_not.2 halign),
    contents_setNPadding (by simpa using size_le_pbs hb),
    contents_setTotalIoSize (by simpa using size_le_pbs hb),
    contents_pushRecord hfull hn (fits_newRecord (by decide) (by decide) (by omega)),
    Nat.mod_eq_of_lt htotal, hnone]
  rfl

theorem Kept.addNormalIo {offset size : Nat} (hk : Kept h) (ho : offset < 2 ^ 64) (hs : size < 2 ^ 16)
    (hroom : 0 < size → h.Room (capacityPb h.pbs size)) : Kept (h.addNormalIo offset size).2 := by
  rw [LogPackHeader.addNormalIo]
  split_ifs with hfull hbig hzero
  · exact hk
  · exact hk
  · exact hk
  · have hcap := Nat.lt_of_not_le hfull
    obtain ⟨hn, hlocal, hlsid, hend⟩ := hroom (Nat.pos_of_ne_zero hzero) hcap (Nat.le_of_not_lt hbig)
    have hdata : (h.newRecord 1 offset size).dataPb h.pbs = capacityPb h.pbs size :=
      newRecord_dataPb (by decide) (by decide)
    have hvalid : (h.newRecord 1 offset size).isValid = true :=
      newRecord_isValid hlocal hlsid (by decide)
      (.inr (Nat.pos_of_ne_zero hzero)) (.inr (Nat.le_of_lt_succ hs))
    have hplain : (h.newRecord 1 offset size).isPadding = false := show Nat.testBit 1 1 = false by decide
    refine hk.push (p := 0) (r := h.newRecord 1 offset size) (by simp) ?_ ?_ hcap hvalid
      (fun _ => hplain)
      (newRecord_lsidLocal hlocal) ((newRecord_lsid hlocal hlsid).trans ?_) hk.nPadding_le
        (by rwa [hdata])
    · have hcontents := contents_addNormalIo hk.blockSize hcap (Nat.le_of_not_lt hbig)
        (Nat.pos_of_ne_zero hzero) hn ho hs
      rw [LogPackHeader.addNormalIo, if_neg hfull, if_neg hbig, if_neg hzero] at hcontents
      rw [hcontents, hdata]
      rfl
    · rw [hplain]
      rfl
    · rw [newRecord_lsidLocal hlocal]

theorem Kept.addDiscardIo {offset size : Nat} (hk : Kept h) (ho : offset < 2 ^ 64) (hs : size < 2 ^ 32)
    (hroom : 0 < size → h.Room 0) : Kept (h.addDiscardIo offset size).2 := by
  rw [LogPackHeader.addDiscardIo]
  split_ifs with hfull hzero
  · exact hk
  · exact hk
  · have hcap := Nat.lt_of_not_le hfull
    have htotal : h.totalIoSize + 0 ≤ MAX_TOTAL_IO_SIZE_IN_LOGPACK_HEADER :=
      Nat.le_of_lt_succ totalIoSize_lt
    obtain ⟨hn, hlocal, hlsid, hend⟩ := hroom (Nat.pos_of_ne_zero hzero) hcap htotal
    have hvalid : (h.newRecord 5 offset size).isValid = true :=
      newRecord_isValid hlocal hlsid (by decide)
      (.inr (Nat.pos_of_ne_zero hzero)) (.inl (by decide))
    have hdata : (h.newRecord 5 offset size).dataPb h.pbs = 0 :=
      dataPb_of_discard (show Nat.testBit 5 2 = true by decide)
    have hplain : (h.newRecord 5 offset size).isPadding = false := show Nat.testBit 5 1 = false by decide
    refine hk.push (p := 0) (r := h.newRecord 5 offset size) (by simp) ?_ ?_ hcap hvalid
      (fun _ => hplain)
      (newRecord_lsidLocal hlocal) ((newRecord_lsid hlocal hlsid).trans ?_) hk.nPadding_le
        (by rwa [hdata])
    · have hcontents := contents_addDiscardIo hcap (Nat.pos_of_ne_zero hzero) hn ho hs
      rw [LogPackHeader.addDiscardIo, if_neg hfull, if_neg hzero] at hcontents
      rw [hcontents, hdata]
      rfl
    · rw [hplain]
      rfl
    · rw [newRecord_lsidLocal hlocal]

theorem Kept.addPadding {size : Nat} (hk : Kept h) (hs : size < 2 ^ 16)
    (hroom : h.nPadding = 0 → size % (h.pbs / lbs) = 0 → h.Room (capacityPb h.pbs size)) :
    Kept (h.addPadding size).2 := by
  rw [LogPackHeader.addPadding]
  split_ifs with hfull hbig hpadding halign
  · exact hk
  · exact hk
  · exact hk
  · exact hk
  · have hcap := Nat.lt_of_not_le hfull
    have hnone : h.nPadding = 0 := Nat.eq_zero_of_not_pos hpadding
    obtain ⟨hn, hlocal, hlsid, hend⟩ := hroom hnone (not_not.1 halign) hcap (Nat.le_of_not_lt hbig)
    have hdata : (h.newRecord 3 0 size).dataPb h.pbs = capacityPb h.pbs size :=
      newRecord_dataPb (by decide) (by decide)
    have hvalid : (h.newRecord 3 0 size).isValid = true := newRecord_isValid hlocal hlsid (by decide)
      (.inl (by decide)) (.inr (Nat.le_of_lt_succ hs))
    have hpad : (h.newRecord 3 0 size).isPadding = true := show Nat.testBit 3 1 = true by decide
    refine hk.push (p := 1) (r := h.newRecord 3 0 size) (by simp) ?_ (if_pos hpad).symm hcap hvalid
      (fun hd => ?_)
      (newRecord_lsidLocal hlocal) ((newRecord_lsid hlocal hlsid).trans ?_) (by rw [hnone])
        (by rwa [hdata])
    · have hcontents :=
        contents_addPadding hk.blockSize hcap (Nat.le_of_not_lt hbig) hnone (not_not.1 halign) hn hs
      rw [LogPackHeader.addPadding, if_neg hfull, if_neg hbig, if_neg hpadding, if_neg halign]
        at hcontents
      rw [hcontents, hdata]
    · exact absurd hd (show ¬Nat.testBit 3 2 = true by decide)
    · rw [newRecord_lsidLocal hlocal]

theorem pbs_foldl {f : LogPackHeader → Nat → LogPackHeader} (hf : ∀ g i, (f g i).pbs = g.pbs)
    (l : List Nat) :
    (l.foldl f h).pbs = h.pbs := by
  induction l generalizing h with
  | nil => rfl
  | cons i l ih => rw [List.foldl_cons, ih, hf]

theorem Kept.shrink {invalidIdx : Nat} (hk : Kept h) (hidx : invalidIdx < h.nRecords) :
    Kept (h.shrink invalidIdx) := by
  have hpbs : (h.shrink invalidIdx).pbs = h.pbs := by
    simp only [LogPackHeader.shrink, pbs_updateChecksum, pbs_foldl fun _ _ => (pbs_countRecord _).1,
      pbs_setNPadding,
      pbs_setTotalIoSize, pbs_setNRecords, pbs_foldl fun _ _ => pbs_clearRecord]
  have hcontents := contents_shrink (size_le_pbs hk.blockSize) hidx.le hk.capacity
  have hsub : ∀ r, r ∈ h.records.take invalidIdx → r ∈ h.records := fun r hr => List.mem_of_mem_take hr
  have hle : dataPb h.pbs (h.records.take invalidIdx) ≤ dataPb h.pbs h.records :=
    dataPb_take_le invalidIdx
  rw [← hk.totalIoSize] at hle
  have hcount : (h.records.take invalidIdx).countP WlogRecord.isPadding ≤ h.nPadding := by
    rw [hk.nPadding]
    exact (List.take_sublist _ _).countP_le
  have hsmall := hk.nPadding_le
  have hlt := totalIoSize_lt (h := h)
  rw [countedPb_eq fun r hr => hk.valid r (hsub r hr), Nat.mod_eq_of_lt (hle.trans_lt hlt),
    Nat.mod_eq_of_lt (by omega)] at hcontents
  have hsector : (h.shrink invalidIdx).sectorType = h.sectorType :=
    congrArg Contents.sectorType hcontents
  have htotal : (h.shrink invalidIdx).totalIoSize = dataPb h.pbs (h.records.take invalidIdx) :=
    congrArg Contents.totalIoSize hcontents
  have hpack : (h.shrink invalidIdx).logpackLsid = h.logpackLsid :=
    congrArg Contents.logpackLsid hcontents
  have hpadding : (h.shrink invalidIdx).nPadding = (h.records.take invalidIdx).countP
      WlogRecord.isPadding :=
    congrArg Contents.nPadding hcontents
  have hrecords : (h.shrink invalidIdx).records = h.records.take invalidIdx :=
    congrArg Contents.records hcontents
  refine ⟨by rw [hpbs]; exact hk.blockSize, ?_, hsector.trans hk.sectorType, ?_, ?_, ?_, ?_, ?_, ?_,
    ?_, ?_⟩
  · rw [← length_records, hrecords, hpbs]
    exact (List.length_take_le _ _).trans (hidx.le.trans hk.capacity)
  · rw [hrecords]
    exact fun r hr => hk.valid r (hsub r hr)
  · rw [hrecords]
    exact fun r hr => hk.plain r (hsub r hr)
  · rw [hrecords, hpack]
    exact fun r hr => hk.lsid r (hsub r hr)
  · have hchained := hk.chained
    rw [← List.take_append_drop invalidIdx h.records, chained_append] at hchained
    rw [hrecords, hpbs]
    exact hchained.1
  · rw [htotal, hrecords, hpbs]
  · rw [hpadding, hrecords]
  · rw [hpadding]
    exact hcount.trans hsmall
  · intro hne
    rw [hrecords] at hne
    have hend := hk.end_lt fun hnil => hne (by rw [hnil, List.take_nil])
    rw [hpack, htotal]
    omega

theorem Kept.updateLsid {newLsid : Nat} (hk : Kept h) (hlsid : newLsid < 2 ^ 64 - 1)
    (hrec : ∀ r ∈ h.records, newLsid + r.lsidLocal ≤ MAX_LSID)
    (hend : h.records ≠ [] → newLsid + 1 + h.totalIoSize < 2 ^ 64) :
    Kept (h.updateLsid newLsid).2 := by
  by_cases hsame : h.logpackLsid = newLsid
  · rw [LogPackHeader.updateLsid, if_pos hsame]
    exact hk
  have hcontents := contents_updateLsid (size_le_pbs hk.blockSize) hk.capacity hsame
  have hpbs : (h.updateLsid newLsid).2.pbs = h.pbs := by
    rw [LogPackHeader.updateLsid, if_neg hsame]
    exact pbs_foldl (f := updateRecordLsid newLsid) (fun _ _ => rfl) _
  generalize (h.updateLsid newLsid).2 = g at hcontents hpbs ⊢
  rw [Nat.mod_eq_of_lt (by omega)] at hcontents
  have hmoved : (h.records.map fun r => { r with lsid := (newLsid + r.lsidLocal) % 2 ^ 64 }) =
      h.records.map fun r => { r with lsid := newLsid + r.lsidLocal } :=
    List.map_congr_left fun r hr => by
      have hle := hrec r hr
      rw [MAX_LSID] at hle
      rw [Nat.mod_eq_of_lt (by omega)]
  rw [hmoved] at hcontents
  have hsector : g.sectorType = h.sectorType := congrArg Contents.sectorType hcontents
  have htotal : g.totalIoSize = h.totalIoSize := congrArg Contents.totalIoSize hcontents
  have hpack : g.logpackLsid = newLsid := congrArg Contents.logpackLsid hcontents
  have hpadding : g.nPadding = h.nPadding := congrArg Contents.nPadding hcontents
  have hrecords : g.records = h.records.map fun r => { r with lsid := newLsid + r.lsidLocal } :=
    congrArg Contents.records hcontents
  have hdata : ∀ l : List WlogRecord, dataPb h.pbs (l.map fun r =>
      { r with lsid := newLsid + r.lsidLocal }) = dataPb h.pbs l := by
    intro l
    rw [dataPb, List.map_map]
    rfl
  have hchained : ∀ (l : List WlogRecord) start, Chained h.pbs start l →
      Chained h.pbs start (l.map fun r => { r with lsid := newLsid + r.lsidLocal }) := by
    intro l
    induction l with
    | nil => exact fun _ _ => trivial
    | cons r l ih => exact fun start hc => ⟨hc.1, ih _ hc.2⟩
  have hlen : g.nRecords = h.nRecords := by
    rw [← length_records, hrecords, List.length_map, length_records]
  refine ⟨by rw [hpbs]; exact hk.blockSize, by rw [hlen, hpbs]; exact hk.capacity,
    hsector.trans hk.sectorType,
    ?_, ?_, ?_, ?_, ?_, ?_, by rw [hpadding]; exact hk.nPadding_le, ?_⟩
  · rw [hrecords, List.forall_mem_map]
    intro r hr
    have hvalid := hk.valid r hr
    rw [WlogRecord.isValid, Bool.and_eq_true] at hvalid ⊢
    exact ⟨hvalid.1, decide_eq_true (hrec r hr)⟩
  · rw [hrecords, List.forall_mem_map]
    exact hk.plain
  · rw [hrecords, List.forall_mem_map, hpack]
    exact fun _ _ => rfl
  · rw [hrecords, hpbs]
    exact hchained _ _ hk.chained
  · rw [htotal, hrecords, hpbs, hdata, hk.totalIoSize]
  · rw [hpadding, hrecords, List.countP_map, hk.nPadding]
    rfl
  · intro hne
    rw [hpack, htotal]
    refine hend fun hnil => hne ?_
    rw [hrecords, hnil, List.map_nil]

theorem records_split {idx : Nat} (hidx : idx < h.nRecords) :
    h.records = h.records.take idx ++ h.record idx :: h.records.drop (idx + 1) ∧
      (h.records.take idx).length = idx := by
  have hlt : idx < h.records.length := by rwa [length_records]
  refine ⟨?_, by rw [List.length_take, Nat.min_eq_left hlt.le]⟩
  rw [← getElem_records hlt, ← List.drop_eq_getElem_cons hlt, List.take_append_drop]

theorem pbs_invalidate {idx : Nat} : (h.invalidate idx).2.pbs = h.pbs := by
  rw [LogPackHeader.invalidate]
  dsimp only
  split_ifs
  · exact pbs_foldl (f := fun h _ => h.copyRecord idx (idx + 1)) (fun _ _ => rfl) _
  · rfl
  · rfl

theorem Kept.invalidate_discard {idx : Nat} (hk : Kept h) (hidx : idx < h.nRecords)
    (hd : (h.record idx).isDiscard = true)
    (hm : Moves (h.records.drop (idx + 1))) : Kept (h.invalidate idx).2 := by
  obtain ⟨hsplit, hlen⟩ := records_split hidx
  have hcontents := records_invalidate_discard hk.capacity hsplit hd
  rw [hlen] at hcontents
  have hpbs : (h.invalidate idx).2.pbs = h.pbs := pbs_invalidate
  generalize h.records.take idx = pre at hsplit hlen hcontents
  generalize h.records.drop (idx + 1) = rest at hsplit hm hcontents
  generalize h.record idx = r at hd hsplit
  generalize (h.invalidate idx).2 = g at hcontents hpbs ⊢
  have hsector : g.sectorType = h.sectorType := congrArg Contents.sectorType hcontents
  have htotal : g.totalIoSize = h.totalIoSize := congrArg Contents.totalIoSize hcontents
  have hpack : g.logpackLsid = h.logpackLsid := congrArg Contents.logpackLsid hcontents
  have hpadding : g.nPadding = h.nPadding := congrArg Contents.nPadding hcontents
  have hrecords : g.records = pre ++ moved rest := congrArg Contents.records hcontents
  have hsub : ∀ x, x ∈ pre ++ moved rest → x ∈ h.records := fun x hx => by
    rw [hsplit]
    exact (List.mem_append.1 hx).elim (List.mem_append_left _)
      fun hx => List.mem_append_right _ (List.mem_cons_of_mem _ (mem_of_mem_moved hx))
  have hplain := hk.plain r (by rw [hsplit]; exact List.mem_append_right _ List.mem_cons_self) hd
  have hcount : (moved rest).countP WlogRecord.isPadding = rest.countP WlogRecord.isPadding :=
    countP_moved hm fun x hx =>
      hk.plain x (by rw [hsplit]; exact List.mem_append_right _ (List.mem_cons_of_mem _ hx))
  refine ⟨by rw [hpbs]; exact hk.blockSize, ?_, hsector.trans hk.sectorType, ?_, ?_, ?_, ?_, ?_, ?_,
    by rw [hpadding]; exact hk.nPadding_le, ?_⟩
  · have hle := hk.capacity
    rw [← length_records, hsplit, List.length_append, List.length_cons] at hle
    rw [← length_records, hrecords, hpbs, List.length_append]
    have hmoved : (moved rest).length ≤ rest.length := by
      cases rest with
      | nil => exact Nat.le_refl 0
      | cons a rest =>
          rw [moved, List.length_cons, List.length_dropLast, List.length_cons, Nat.add_sub_cancel]
    omega
  · rw [hrecords]
    exact fun x hx => hk.valid x (hsub x hx)
  · rw [hrecords]
    exact fun x hx => hk.plain x (hsub x hx)
  · rw [hrecords, hpack]
    exact fun x hx => hk.lsid x (hsub x hx)
  · have hchained := hk.chained
    rw [hsplit, chained_append] at hchained
    rw [hrecords, hpbs, chained_append]
    refine ⟨hchained.1, chained_moved hm ?_⟩
    -- The removed record has no data.
    have hrest := hchained.2.2
    rwa [dataPb_of_discard hd] at hrest
  · rw [htotal, hrecords, hpbs, hk.totalIoSize, hsplit, dataPb_append, dataPb_append, dataPb_cons,
      dataPb_moved hm,
      dataPb_of_discard hd, Nat.zero_add]
  · rw [hpadding, hrecords, hk.nPadding, hsplit, List.countP_append, List.countP_append, hcount,
      List.countP_cons_of_neg (by rw [hplain]; exact Bool.false_ne_true)]
  · intro _
    rw [hpack, htotal]
    exact hk.end_lt (by rw [hsplit]; exact List.append_ne_nil_of_right_ne_nil _ (List.cons_ne_nil _ _))

theorem Kept.invalidate {idx : Nat} (hk : Kept h) (hidx : idx < h.nRecords)
    (hclear : (h.record idx).isPadding = true ∨ (h.record idx).isDiscard = true ∧
      Moves (h.records.drop (idx + 1))) :
    Kept (h.invalidate idx).2 := by
  by_cases hd : (h.record idx).isDiscard = true
  · have hmem : h.record idx ∈ h.records := List.mem_map_of_mem (List.mem_range.2 hidx)
    obtain hpad | ⟨-, hm⟩ := hclear
    · rw [hk.plain _ hmem hd] at hpad
      cases hpad
    · exact hk.invalidate_discard hidx hd hm
  · have hpad := hclear.resolve_right fun hc => hd hc.1
    rw [LogPackHeader.invalidate]
    dsimp only
    rw [if_neg hd, if_pos hpad]
    exact hk

theorem Kept.apply {e : Edit} (hk : Kept h) (hallowed : e.Allowed h) (hclear : e.Clear h) :
    Kept (e.apply h) := by
  cases e with
  | addNormalIo offset size => exact hk.addNormalIo hallowed.1 hallowed.2 hclear
  | addDiscardIo offset size => exact hk.addDiscardIo hallowed.1 hallowed.2 hclear
  | addPadding size => exact hk.addPadding hallowed hclear
  | shrink invalidIdx => exact hk.shrink hallowed
  | invalidate idx => exact hk.invalidate hallowed hclear
  | updateLsid newLsid => exact hk.updateLsid hallowed.1 hclear.1 hclear.2

theorem Edit.apply_of_rejected {e : Edit} (hr : e.Rejected h) : e.apply h = h := by
  cases e with
  | addNormalIo offset size =>
      simp only [Edit.Rejected, Edit.apply, LogPackHeader.addNormalIo] at hr ⊢
      split_ifs at hr ⊢
      · rfl
      · rfl
      · rfl
      · exact absurd rfl hr
  | addDiscardIo offset size =>
      simp only [Edit.Rejected, Edit.apply, LogPackHeader.addDiscardIo] at hr ⊢
      split_ifs at hr ⊢
      · rfl
      · rfl
      · exact absurd rfl hr
  | addPadding size =>
      simp only [Edit.Rejected, Edit.apply, LogPackHeader.addPadding] at hr ⊢
      split_ifs at hr ⊢
      · rfl
      · rfl
      · rfl
      · rfl
      · exact absurd rfl hr
  | shrink | invalidate | updateLsid => exact hr.elim

theorem fields_replicate (ws : List Nat) (n : Nat) :
    Layout.fields ws (List.replicate n 0) = List.replicate ws.length 0 := by
  have hzero : ∀ m, ByteMemory.ofLE (List.replicate m 0) = 0 := fun m => by
    induction m with
    | zero => rfl
    | succ m ih =>
        rw [List.replicate_succ, ByteMemory.ofLE, ih]
        rfl
  induction ws generalizing n with
  | nil => rfl
  | cons w ws ih =>
      rw [Layout.fields, List.take_replicate, List.drop_replicate, hzero, ih, List.length_cons,
        List.replicate_succ]

theorem contents_init {pbs salt lsid : Nat} (hp : size ≤ pbs) :
    (init pbs salt lsid).contents = ⟨SECTOR_TYPE_LOGPACK, 0, lsid % 2 ^ 64, 0, []⟩ := by
  have hfield : ∀ i, (⟨pbs, salt, List.replicate pbs 0,
      List.length_replicate⟩ : LogPackHeader).field i = 0 := by
    intro i
    change (Layout.fields widths (List.replicate pbs 0)).getD i 0 = 0
    rw [fields_replicate, List.getD_eq_getElem?_getD]
    by_cases hi : i < widths.length
    · rw [List.getElem?_replicate_of_lt hi]
      rfl
    · rw [List.getElem?_eq_none (by rw [List.length_replicate]; exact Nat.le_of_not_lt hi)]
      rfl
  rw [init, contents_setSectorType (by simpa using hp), contents_setLogpackLsid (by simpa using hp)]
  simp only [contents, totalIoSize, nPadding, records, nRecords, hfield]
  rfl

theorem kept_init {pbs salt lsid : Nat} (hb : BlockSize pbs) : Kept (init pbs salt lsid) := by
  have hcontents : (init pbs salt lsid).contents = ⟨SECTOR_TYPE_LOGPACK, 0, lsid % 2 ^ 64, 0, []⟩ :=
    contents_init (size_le_pbs hb)
  obtain ⟨g, hg⟩ : ∃ g, init pbs salt lsid = g := ⟨_, rfl⟩
  have hpbs : g.pbs = pbs := by
    rw [← hg]
    rfl
  rw [hg] at hcontents ⊢
  have htotal : g.totalIoSize = 0 := congrArg Contents.totalIoSize hcontents
  have hpadding : g.nPadding = 0 := congrArg Contents.nPadding hcontents
  have hrecords : g.records = [] := congrArg Contents.records hcontents
  have hnr : g.nRecords = 0 := by rw [← length_records, hrecords, List.length_nil]
  refine ⟨by rwa [hpbs], by rw [hnr]; exact Nat.zero_le _, congrArg Contents.sectorType hcontents,
    ?_, ?_, ?_, ?_, ?_, ?_,
    by rw [hpadding]; exact Nat.zero_le 1, fun hne => absurd hrecords hne⟩
  · rw [hrecords]
    exact List.forall_mem_nil _
  · rw [hrecords]
    exact List.forall_mem_nil _
  · rw [hrecords]
    exact List.forall_mem_nil _
  · rw [hrecords]
    trivial
  · rw [htotal, hrecords, dataPb_nil]
  · rw [hpadding, hrecords, List.countP_nil]

def run (h : LogPackHeader) (edits : List Edit) : LogPackHeader := edits.foldl Edit.apply h

def Meets (P : LogPackHeader → Edit → Prop) : LogPackHeader → List Edit → Prop
  | _, [] => True
  | h, e :: edits => P h e ∧ Meets P (e.apply h) edits

theorem Kept.run {edits : List Edit} (hk : Kept h)
    (hrun : Meets (fun h e => e.Allowed h ∧ e.Clear h) h edits) :
    Kept (run h edits) := by
  induction edits generalizing h with
  | nil => exact hk
  | cons e edits ih => exact ih (hk.apply hrun.1.1 hrun.1.2) hrun.2

/-- Clear edits keep the layout of a pack, and an addition that is refused changes nothing. -/
theorem edits_keep_layout {pbs salt lsid : Nat} (hb : BlockSize pbs) (edits : List Edit)
    (hrun : Meets (fun h e => e.Allowed h ∧ e.Clear h) (init pbs salt lsid) edits) :
    LaidOut (run (init pbs salt lsid) edits) ∧
      ∀ e : Edit, e.Rejected (run (init pbs salt lsid) edits) →
        e.apply (run (init pbs salt lsid) edits) = run (init pbs salt lsid) edits :=
  ⟨((kept_init hb).run hrun).laidOut, fun _ hr => Edit.apply_of_rejected hr⟩

theorem blockSize_lbs : BlockSize lbs := ⟨Nat.dvd_refl lbs, by decide, by decide⟩

theorem nRecords_of_contents {c : Contents} (hc : h.contents = c) : h.nRecords = c.records.length := by
  rw [← hc, ← length_records]
  rfl

theorem newRecord_of_contents {c : Contents} {flags offset ioSize : Nat} (hc : h.contents = c) :
    h.newRecord flags offset ioSize = ⟨0, flags, offset, ioSize, (c.totalIoSize + 1) % 2 ^ 16,
      (c.logpackLsid + (c.totalIoSize + 1) % 2 ^ 16) % 2 ^ 64⟩ := by
  rw [← hc]
  rfl

theorem contents_addNormalIo_lbs {c : Contents} {offset size : Nat} (hpbs : h.pbs = lbs)
    (hc : h.contents = c)
    (hlen : c.records.length < 15) (hbig : c.totalIoSize + size < 2 ^ 16) (hzero : 0 < size)
    (ho : offset < 2 ^ 64) :
    (h.addNormalIo offset size).2.contents =
      { c with
        totalIoSize := c.totalIoSize + size
        records := c.records ++ [⟨0, 1, offset, size, (c.totalIoSize + 1) % 2 ^ 16,
          (c.logpackLsid + (c.totalIoSize + 1) % 2 ^ 16) % 2 ^ 64⟩] } := by
  have hn := nRecords_of_contents hc
  have htotal : h.totalIoSize = c.totalIoSize := congrArg Contents.totalIoSize hc
  have hrecords : h.records = c.records := congrArg Contents.records hc
  have hsize : capacityPb h.pbs size = size := by
    rw [capacityPb, hpbs]
    exact Nat.div_one size
  rw [contents_addNormalIo (hpbs ▸ blockSize_lbs) (by rw [hn, hpbs]; exact hlen)
    (by rw [htotal, hsize]; exact Nat.le_of_lt_succ hbig) hzero (by omega) ho (by omega),
      newRecord_of_contents hc, hsize, htotal,
    hrecords, hc]

theorem pbs_addNormalIo {offset size : Nat} : (h.addNormalIo offset size).2.pbs = h.pbs := by
  rw [LogPackHeader.addNormalIo]
  split_ifs <;> simp

theorem pbs_addDiscardIo {offset size : Nat} : (h.addDiscardIo offset size).2.pbs = h.pbs := by
  rw [LogPackHeader.addDiscardIo]
  split_ifs <;> simp

theorem contents_addDiscardIo_lbs {c : Contents} {offset size : Nat} (hpbs : h.pbs = lbs)
    (hc : h.contents = c)
    (hlen : c.records.length < 15) (hzero : 0 < size) (ho : offset < 2 ^ 64) (hs : size < 2 ^ 32) :
    (h.addDiscardIo offset size).2.contents =
      { c with
        records := c.records ++ [⟨0, 5, offset, size, (c.totalIoSize + 1) % 2 ^ 16,
          (c.logpackLsid + (c.totalIoSize + 1) % 2 ^ 16) % 2 ^ 64⟩] } := by
  have hn := nRecords_of_contents hc
  have hrecords : h.records = c.records := congrArg Contents.records hc
  rw [contents_addDiscardIo (by rw [hn, hpbs]; exact hlen) hzero (by omega) ho hs,
    newRecord_of_contents hc, hrecords, hc]

def threeEdits : List Edit := [.addDiscardIo 0 8, .addNormalIo 8 8, .addNormalIo 16 8]

theorem contents_threeEdits (hpbs : h.pbs = lbs) (hc : h.contents = ⟨SECTOR_TYPE_LOGPACK, 0, 7, 0, []⟩) :
    (run h threeEdits).contents =
      ⟨SECTOR_TYPE_LOGPACK, 16, 7, 0, [⟨0, 5, 0, 8, 1, 8⟩, ⟨0, 1, 8, 8, 1, 8⟩,
      ⟨0, 1, 16, 8, 9, 16⟩]⟩ := by
  have hfirst : (h.addDiscardIo 0 8).2.contents = ⟨SECTOR_TYPE_LOGPACK, 0, 7, 0, [⟨0, 5, 0, 8, 1, 8⟩]⟩ :=
    contents_addDiscardIo_lbs hpbs hc (by decide) (by decide) (by decide) (by decide)
  have hpbs₁ : (h.addDiscardIo 0 8).2.pbs = lbs := pbs_addDiscardIo.trans hpbs
  have hsecond : ((h.addDiscardIo 0 8).2.addNormalIo 8 8).2.contents =
      ⟨SECTOR_TYPE_LOGPACK, 8, 7, 0, [⟨0, 5, 0, 8, 1, 8⟩, ⟨0, 1, 8, 8, 1, 8⟩]⟩ :=
    contents_addNormalIo_lbs hpbs₁ hfirst (by decide) (by decide) (by decide) (by decide)
  exact contents_addNormalIo_lbs (pbs_addNormalIo.trans hpbs₁) hsecond (by decide) (by decide)
    (by decide) (by decide)

theorem meets_two (hpbs : h.pbs = lbs) (hc : h.contents = ⟨SECTOR_TYPE_LOGPACK, 0, 7, 0, []⟩) :
    Meets (fun h e => e.Allowed h ∧ e.Clear h) h [.addDiscardIo 0 8, .invalidate 0] := by
  have hadded : (h.addDiscardIo 0 8).2.contents = ⟨SECTOR_TYPE_LOGPACK, 0, 7, 0, [⟨0, 5, 0, 8, 1, 8⟩]⟩ :=
    contents_addDiscardIo_lbs hpbs hc (by decide) (by decide) (by decide) (by decide)
  have hroom : h.Room 0 := fun _ _ => by
    have htotal : h.totalIoSize = 0 := congrArg Contents.totalIoSize hc
    have hlsid : h.logpackLsid = 7 := congrArg Contents.logpackLsid hc
    rw [nRecords_of_contents hc, htotal, hlsid]
    decide
  have hrecords : (h.addDiscardIo 0 8).2.records = [⟨0, 5, 0, 8, 1, 8⟩] :=
    congrArg Contents.records hadded
  have hidx : 0 < (h.addDiscardIo 0 8).2.nRecords := by
    rw [nRecords_of_contents hadded]
    decide
  have hrecord : (h.addDiscardIo 0 8).2.record 0 = ⟨0, 5, 0, 8, 1, 8⟩ := by
    rw [← getElem_records (by rwa [length_records])]
    exact List.getElem_of_eq hrecords _
  have hclear : Edit.Clear (h.addDiscardIo 0 8).2 (.invalidate 0) := by
    refine .inr ⟨?_, .inl ?_⟩
    · rw [hrecord]
      decide
    · rw [hrecords]
      decide
  exact ⟨⟨⟨by decide, by decide⟩, fun _ => hroom⟩, ⟨hidx, hclear⟩, trivial⟩

theorem contents_init_lbs : (init lbs 0 7).contents = ⟨SECTOR_TYPE_LOGPACK, 0, 7, 0, []⟩ :=
  contents_init (by decide)

theorem edits_keep_layout_two : LaidOut (run (init lbs 0 7) [.addDiscardIo 0 8, .invalidate 0]) :=
  (edits_keep_layout blockSize_lbs _ (meets_two rfl contents_init_lbs)).1

theorem pbs_threeEdits (hpbs : h.pbs = lbs) : (run h threeEdits).pbs = lbs :=
  pbs_addNormalIo.trans (pbs_addNormalIo.trans (pbs_addDiscardIo.trans hpbs))

theorem records_threeEdits (hpbs : h.pbs = lbs) (hc : h.contents = ⟨SECTOR_TYPE_LOGPACK, 0, 7, 0, []⟩) :
    (run h threeEdits).records = [] ++ ⟨0, 5, 0, 8, 1, 8⟩ :: [⟨0, 1, 8, 8, 1, 8⟩, ⟨0, 1, 16, 8, 9, 16⟩] ∧
      ((run h threeEdits).invalidate 0).2.records = [⟨0, 1, 8, 8, 1, 8⟩, ⟨0, 1, 8, 8, 1, 8⟩] := by
  have hthree := contents_threeEdits hpbs hc
  have hpbs' := pbs_threeEdits hpbs
  generalize run h threeEdits = g at hthree hpbs' ⊢
  have hn := nRecords_of_contents hthree
  have hsplit : g.records = [] ++ ⟨0, 5, 0, 8, 1, 8⟩ :: [⟨0, 1, 8, 8, 1, 8⟩, ⟨0, 1, 16, 8, 9, 16⟩] :=
    congrArg Contents.records hthree
  exact ⟨hsplit, congrArg Contents.records (records_invalidate_discard (by rw [hn, hpbs']; decide)
    hsplit (by decide))⟩

theorem meets_threeEdits (hpbs : h.pbs = lbs) (hc : h.contents = ⟨SECTOR_TYPE_LOGPACK, 0, 7, 0, []⟩) :
    Meets (fun h e => e.Allowed h) h (threeEdits ++ [.invalidate 0]) := by
  have hidx : 0 < (run h threeEdits).nRecords := by
    rw [nRecords_of_contents (contents_threeEdits hpbs hc)]
    decide
  exact ⟨⟨by decide, by decide⟩, ⟨by decide, by decide⟩, ⟨by decide, by decide⟩, hidx, trivial⟩

theorem not_laidOut_threeEdits (hpbs : h.pbs = lbs)
    (hc : h.contents = ⟨SECTOR_TYPE_LOGPACK, 0, 7, 0, []⟩) :
    ¬LaidOut (run h (threeEdits ++ [.invalidate 0])) := by
  have hrecords := (records_threeEdits hpbs hc).2
  have hpbs' := pbs_threeEdits hpbs
  rw [run, List.foldl_append]
  change ¬LaidOut ((run h threeEdits).invalidate 0).2
  rw [← pbs_invalidate] at hpbs'
  generalize ((run h threeEdits).invalidate 0).2 = g at hrecords hpbs'
  intro hlaid
  have hlen : 1 < g.records.length := by
    rw [hrecords]
    decide
  have hlocal := hlaid.lsidLocal 1 hlen
  have hfirst : dataPb g.pbs (g.records.take 1) = 8 := by
    rw [hrecords, hpbs']
    decide
  rw [List.getElem_of_eq hrecords, hfirst] at hlocal
  exact absurd hlocal (show ¬1 = 1 + 8 by decide)

/-- A normal record behind a removed discard is doubled, and the second copy does not follow the
first. -/
theorem not_edits_keep_layout : ¬ ∀ (pbs salt lsid : Nat) (edits : List Edit), BlockSize pbs →
    Meets (fun h e => e.Allowed h) (init pbs salt lsid) edits →
    LaidOut (run (init pbs salt lsid) edits) :=
  fun hall => not_laidOut_threeEdits rfl contents_init_lbs
    (hall lbs 0 7 _ blockSize_lbs (meets_threeEdits rfl contents_init_lbs))

end

section

variable {h : LogPackHeader} {idx : Nat}

/-- A discard is dropped and the others stay in order; a normal record becomes padding in its
place. -/
structure DropsOnly (h : LogPackHeader) (idx : Nat) : Prop where
  discard : (h.record idx).isDiscard = true →
    (h.invalidate idx).2.records = h.records.eraseIdx idx ∧
    (h.invalidate idx).2.nRecords + 1 = h.nRecords
  normal : (h.record idx).isDiscard = false → (h.record idx).isPadding = false →
    (h.invalidate idx).2.records = h.records.set idx { (h.record idx).setPadding with
    offset := 0, checksum := 0 } ∧
      ((h.invalidate idx).2.record idx).isPadding = true

theorem isPadding_setPadding {r : WlogRecord} {offset checksum : Nat} :
    WlogRecord.isPadding { r.setPadding with offset := offset, checksum := checksum } = true := by
  rw [WlogRecord.isPadding, WlogRecord.setPadding, Nat.testBit_or, Nat.testBit_two_pow_self,
    Bool.or_true]

theorem moved_eq_self_iff {records : List WlogRecord} :
    moved records = records ↔ ∀ j, j + 1 < records.length → records[j]? = records[j + 1]? := by
  cases records with
  | nil => exact ⟨fun _ _ hj => absurd hj (Nat.not_lt_zero _), fun _ => rfl⟩
  | cons r rest =>
      constructor
      · intro heq j hj
        have hget := congrArg (fun l => l[j + 1]?) heq
        simp only [moved, List.getElem?_cons_succ] at hget
        rw [List.getElem?_cons_succ, ← hget, List.dropLast_eq_take, List.getElem?_take_of_lt]
        rw [List.length_cons, Nat.add_sub_cancel]
        exact Nat.lt_of_succ_lt_succ hj
      · intro hall
        apply List.ext_getElem?
        intro j
        cases j with
        | zero => rfl
        | succ j =>
            rw [moved, List.getElem?_cons_succ, List.dropLast_eq_take, List.length_cons,
              Nat.add_sub_cancel]
            by_cases hj : j < rest.length
            · rw [List.getElem?_take_of_lt hj]
              exact hall j (Nat.succ_lt_succ hj)
            · rw [List.getElem?_eq_none (by rw [List.length_take]; omega), List.getElem?_cons_succ,
                List.getElem?_eq_none (Nat.le_of_not_lt hj)]

theorem dropsOnly_iff (hb : BlockSize h.pbs) (hv : h.isValidNoChecksum = true)
    (hidx : idx < h.nRecords) :
    DropsOnly h idx ↔
      ((h.record idx).isDiscard = true → ∀ j, idx < j → j + 1 < h.nRecords →
      h.record j = h.record (j + 1)) := by
  rw [isValidNoChecksum, Bool.and_eq_true] at hv
  have hn := nRecords_le hb hv.2
  obtain ⟨hsplit, hlen⟩ := records_split hidx
  have hrest : (h.records.drop (idx + 1)).length = h.nRecords - (idx + 1) := by
    rw [List.length_drop, length_records]
  have herase : h.records.eraseIdx idx = h.records.take idx ++ h.records.drop (idx + 1) :=
    List.eraseIdx_eq_take_drop_succ h.records idx
  -- The records behind a dropped discard are right when moving them changes nothing.
  have hiff : moved (h.records.drop (idx + 1)) = h.records.drop (idx + 1) ↔
      ∀ j, idx < j → j + 1 < h.nRecords → h.record j = h.record (j + 1) := by
    have hget : ∀ j, j < h.nRecords - (idx + 1) → (h.records.drop (idx + 1))[j]? =
        some (h.record (idx + 1 + j)) := fun j hj => by
      rw [List.getElem?_drop, List.getElem?_eq_getElem (by rw [length_records]; omega), getElem_records]
    rw [moved_eq_self_iff, hrest]
    constructor
    · intro hall j hj hlast
      have heq := hall (j - (idx + 1)) (by omega)
      rw [hget _ (by omega), hget _ (by omega), Option.some_inj, ← Nat.add_assoc,
        Nat.add_sub_cancel' hj] at heq
      exact heq
    · intro hall j hj
      rw [hget j (by omega), hget (j + 1) hj]
      exact congrArg some (hall (idx + 1 + j) (by omega) (by omega))
  constructor
  · intro hdrops hd
    rw [← hiff]
    have hmoved := congrArg Contents.records (records_invalidate_discard hn hsplit hd)
    rw [hlen] at hmoved
    have herased := (hdrops.discard hd).1
    rw [herase] at herased
    exact List.append_cancel_left (hmoved.symm.trans herased)
  · intro hall
    refine ⟨fun hd => ?_, fun hd hpad => ?_⟩
    · have hmoved : (h.invalidate idx).2.records = h.records.take idx ++
          moved (h.records.drop (idx + 1)) := by
        have hcontents := congrArg Contents.records (records_invalidate_discard hn hsplit hd)
        rwa [hlen] at hcontents
      rw [hiff.2 (hall hd), ← herase] at hmoved
      refine ⟨hmoved, ?_⟩
      rw [← length_records, hmoved, List.length_eraseIdx_of_lt (by rwa [length_records]), length_records]
      omega
    · have hset : (h.invalidate idx).2.records = h.records.set idx
          { (h.record idx).setPadding with offset := 0, checksum := 0 } :=
        congrArg Contents.records (contents_invalidate_normal hn hidx hd hpad)
      have hlt : idx < (h.invalidate idx).2.records.length := by
        rwa [hset, List.length_set, length_records]
      refine ⟨hset, ?_⟩
      rw [← getElem_records hlt, List.getElem_of_eq hset, List.getElem_set_self]
      exact isPadding_setPadding

theorem isValid_threeEdits (hpbs : h.pbs = lbs) (hc : h.contents = ⟨SECTOR_TYPE_LOGPACK, 0, 7, 0, []⟩) :
    (run h threeEdits).isValidNoChecksum = true ∧ (run h threeEdits).nRecords = 3 := by
  have hthree := contents_threeEdits hpbs hc
  have hpbs' := pbs_threeEdits hpbs
  generalize run h threeEdits = g at hthree hpbs' ⊢
  have hn := nRecords_of_contents hthree
  have hsector : g.sectorType = SECTOR_TYPE_LOGPACK := congrArg Contents.sectorType hthree
  have htotal : g.totalIoSize = 16 := congrArg Contents.totalIoSize hthree
  have hlsid : g.logpackLsid = 7 := congrArg Contents.logpackLsid hthree
  have hpadding : g.nPadding = 0 := congrArg Contents.nPadding hthree
  have hrecords : g.records = [⟨0, 5, 0, 8, 1, 8⟩, ⟨0, 1, 8, 8, 1, 8⟩, ⟨0, 1, 16, 8, 9, 16⟩] :=
    congrArg Contents.records hthree
  refine ⟨?_, hn⟩
  rw [isValidNoChecksum, isValidHeaderAndRecords, isValidHeader, hsector, hn, htotal, hlsid,
    hpadding, hrecords, hpbs']
  decide

theorem dropsOnly_iff_two : DropsOnly (run (init lbs 0 7) threeEdits) 1 ↔
    (((run (init lbs 0 7) threeEdits).record 1).isDiscard = true → ∀ j, 1 < j →
    j + 1 < (run (init lbs 0 7) threeEdits).nRecords →
      (run (init lbs 0 7) threeEdits).record j = (run (init lbs 0 7) threeEdits).record (j + 1)) := by
  obtain ⟨hvalid, hn⟩ := isValid_threeEdits rfl contents_init_lbs
  have hpbs : BlockSize (run (init lbs 0 7) threeEdits).pbs := by
    rw [pbs_threeEdits rfl]
    exact blockSize_lbs
  exact dropsOnly_iff hpbs hvalid (by rw [hn]; decide)

theorem not_dropsOnly_threeEdits (hpbs : h.pbs = lbs)
    (hc : h.contents = ⟨SECTOR_TYPE_LOGPACK, 0, 7, 0, []⟩) :
    ¬DropsOnly (run h threeEdits) 0 := by
  obtain ⟨hbefore, hafter⟩ := records_threeEdits hpbs hc
  intro hdrops
  have hlen : 0 < (run h threeEdits).records.length := by
    rw [hbefore]
    decide
  have hdiscard : ((run h threeEdits).record 0).isDiscard = true := by
    rw [← getElem_records hlen, List.getElem_of_eq hbefore]
    exact show Nat.testBit 5 2 = true by decide
  have herased := (hdrops.discard hdiscard).1
  rw [hafter, hbefore] at herased
  revert herased
  decide

/-- With two records behind the discard, the first of them is doubled and the second is lost. -/
theorem not_dropsOnly : ¬ ∀ (h : LogPackHeader)
    (idx : Nat), BlockSize h.pbs → h.isValidNoChecksum = true → idx < h.nRecords →
    DropsOnly h idx := by
  intro hall
  obtain ⟨hvalid, hn⟩ := isValid_threeEdits rfl contents_init_lbs
  have hpbs : BlockSize (run (init lbs 0 7) threeEdits).pbs := by
    rw [pbs_threeEdits rfl]
    exact blockSize_lbs
  exact not_dropsOnly_threeEdits rfl contents_init_lbs (hall _ 0 hpbs hvalid (by rw [hn]; decide))

end

end LogPackHeader

end WalbTools.LogPack
