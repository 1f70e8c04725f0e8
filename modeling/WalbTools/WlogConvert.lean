import WalbTools.DiffRedo

namespace WalbTools.WlogConvert

open ByteMemory LogPack LogPackHeader WlogFile DiffIo DiffMem DiffHeader Compression Overlay
  BdevWriter IndexedRecord
open DiffPack hiding Pack
open IndexedWriter (IndexedDiffWriter)
open PackFile (flagsOf typeOf flagsOf_lt)
open DiffRedo (recordOf writeCall bytesAt writeOf)
open WlogRedo (logsOf iosOf Applicable)

def setAllZero (flags : Nat) : Nat := (flags ||| 2 ^ 1) &&& (2 ^ 8 - 1 - 2 ^ 2)

def setDiscard (flags : Nat) : Nat := (flags &&& (2 ^ 8 - 1 - 2 ^ 1)) ||| 2 ^ 2

/-- To a record of a sorted diff; its checksum is not calculated. -/
def convertLogToDiff (lrec : WlogRecord) (data : Bytes) : Option SortedReader.DiffRecord :=
  if lrec.isPadding then none
  else
    let drec := { SortedReader.DiffRecord.init with ioAddress := lrec.offset, ioBlocks := lrec.ioSize }
    if lrec.isDiscard then some { drec with flags := setDiscard drec.flags, dataSize := 0 }
    else
      let ioSizeB := lrec.ioSize * lbs % 2 ^ 32
      if DiffPack.Pack.isAllZero (data.take ioSizeB) then some
        { drec with flags := setAllZero drec.flags, dataSize := 0 }
      else some { drec with
        compressionType := WALB_DIFF_CMPR_NONE, dataOffset := 0, dataSize := ioSizeB,
        checksum := 0 }

def convertLogToIndexedDiff (lrec : WlogRecord) (data : Bytes) : Option IndexedDiffRecord :=
  if lrec.isPadding then none
  else
    let drec : IndexedDiffRecord := ⟨lrec.offset, lrec.ioSize, 0, 0, 0, 0, 0, 0, 0, 0⟩
    if lrec.isDiscard then some { drec with
      flags := setDiscard drec.flags, dataSize := 0, origBlocks := 0 }
    else
      let ioSizeB := lrec.ioSize * lbs % 2 ^ 32
      if DiffPack.Pack.isAllZero (data.take ioSizeB) then some
        { drec with flags := setAllZero drec.flags, dataSize := 0, origBlocks := 0 }
      else some { drec with
        origBlocks := lrec.ioSize, compressionType := WALB_DIFF_CMPR_NONE, dataOffset :=
          0, ioOffset := 0, dataSize := ioSizeB }

def uuidOf (h : WlogFileHeader) : Bytes := (h.data.drop 24).take UUID_SIZE

/-- What a converter does with the first header and with each log, whose buffer it may take away. -/
structure Sink (σ : Type) where
  start : Bytes → σ → Except String σ
  uuid : σ → Bytes
  put : WlogRecord → Bytes → σ → Except String (Bytes × σ)

section

variable {σ : Type} (S : Sink σ)

def logLoop : Nat → Bytes → WlogReader → σ → Except String (WlogReader × σ)
  | 0, _, _, _ => .error "out of fuel"
  | fuel + 1, buf, reader, s =>
      match reader.readLog buf with
      | .error e => .error e
      | .ok (none, reader) => .ok (reader, s)
      | .ok (some (lrec, _, buf), reader) =>
          match S.put lrec buf s with
          | .error e => .error e
          | .ok (buf, s) => logLoop fuel buf reader s

/-- The first wlog sets the UUID, and those after it must go on with it. -/
def checkHeader (lsid : Nat) (wlHeader : WlogFileHeader) (s : σ) : Except String σ :=
  if lsid = 2 ^ 64 - 1 then S.start (uuidOf wlHeader) s
  else if lsid ≠ wlHeader.beginLsid then .error "lsid mismatch."
  else if S.uuid s ≠ uuidOf wlHeader then .error "uuid differ"
  else .ok s

/-- `convertWlog`: the new lsid and what is left of the input, or nothing at its end. -/
def convertWlog (lsid : Nat) (fd : Bytes) (s : σ) : Except String (Option (Nat × Bytes × σ)) :=
  match (WlogReader.new fd).readHeader with
  | .error e => if e = "EofError" then .ok none else .error e
  | .ok (wlHeader, reader) => do
      let s ← checkHeader S lsid wlHeader s
      let (reader, s) ← logLoop S (2 ^ 16 * (fd.length + 1)) [] reader s
      let lsid ← reader.getEndLsid
      return some (lsid, reader.fileR, s)

def convertLoop : Nat → Nat → Bytes → σ → Except String (Nat × σ)
  | 0, _, _, _ => .error "out of fuel"
  | fuel + 1, lsid, fd, s =>
      match convertWlog S lsid fd s with
      | .error e => .error e
      | .ok none => .ok (lsid, s)
      | .ok (some (lsid, fd, s)) => convertLoop fuel lsid fd s

end

structure DiffConverter where
  diffMem : DiffMemory LogicalBlock
  fileH : DiffFileHeader

namespace DiffConverter

def memRecord (r : SortedReader.DiffRecord) : DiffRecord :=
  ⟨r.ioAddress, r.ioBlocks, r.dataSize, typeOf r⟩

/-- One log is converted and added; the buffer is taken or cleared. -/
def put (lrec : WlogRecord) (buf : Bytes) (s : DiffConverter) : Except String (Bytes × DiffConverter) :=
  match convertLogToDiff lrec buf with
  | none => .ok (buf, s)
  | some drec =>
      let buf := if drec.isNormal then buf else []
      match s.diffMem.add (memRecord drec) (LogicalBlock.ofBytes buf) with
      | .error e => .error e
      | .ok diffMem => .ok ([], { s with diffMem := diffMem })

def sink : Sink DiffConverter where
  start uuid s := .ok { s with fileH := s.fileH.setUuid uuid }
  uuid s := s.fileH.uuid
  put := put

def writeTo (Z : Codecs) (cmprType : Nat) (s : DiffConverter) : Except String Bytes :=
  SortedFile.writeFile Z s.fileH (s.diffMem.map.map fun r =>
    if cmprType ≠ WALB_DIFF_CMPR_NONE then writeCall cmprType r
    else .writeDiff { recordOf r.record with
      checksum := calcDiffIoChecksum (LogicalBlock.toBytes r.io) } (LogicalBlock.toBytes r.io))

def convert (Z : Codecs) (maxIoBlocks : Nat) (inputLog : Bytes) : Except String Bytes := do
  let (_, s) ← convertLoop sink (inputLog.length + 1) (2 ^ 64 - 1) inputLog ⟨.init maxIoBlocks, .init⟩
  s.writeTo Z WALB_DIFF_CMPR_SNAPPY

end DiffConverter

structure IndexedDiffConverter where
  writer : IndexedDiffWriter
  wdiffH : DiffFileHeader

namespace IndexedDiffConverter

def start (uuid : Bytes) (s : IndexedDiffConverter) : Except String IndexedDiffConverter :=
  let wdiffH := { s.wdiffH.setUuid uuid with type := WALB_DIFF_TYPE_INDEXED }
  match s.writer.writeHeader wdiffH with
  | .error e => .error e
  | .ok writer => .ok ⟨writer, wdiffH⟩

def put (Z : Codecs) (lrec : WlogRecord) (buf : Bytes) (s : IndexedDiffConverter) :
    Except String (Bytes × IndexedDiffConverter) :=
  match convertLogToIndexedDiff lrec buf with
  | none => .ok (buf, s)
  | some drec =>
      match s.writer.compressAndWriteDiff Z drec buf WALB_DIFF_CMPR_SNAPPY 0 with
      | .error e => .error e
      | .ok writer => .ok (buf, { s with writer := writer })

def sink (Z : Codecs) : Sink IndexedDiffConverter where
  start := start
  uuid s := s.wdiffH.uuid
  put := put Z

def convert (Z : Codecs) (maxIoBlocks : Nat) (inputLog : Bytes) : Except String Bytes := do
  let (_, s) ← convertLoop (sink Z) (inputLog.length + 1) (2 ^ 64 - 1) inputLog
    ⟨.setFile maxIoBlocks, .init⟩
  return s.writer.finalize.fileW

end IndexedDiffConverter

/-- A wlog: a valid header, packs that follow each other, and the end block. -/
structure Wlog where
  header : WlogFileHeader
  packs : List Pack

def Wlog.bytes (l : Wlog) : Bytes :=
  l.header.data ++ (packsBytes l.packs ++ (endHeader l.header.pbs l.header.salt).block)

def Wlog.endLsid (l : Wlog) : Nat := endLsidOf l.header.beginLsid l.packs

structure Wlog.Finished (l : Wlog) : Prop where
  header : l.header.isValid true = true
  blockSize : BlockSize l.header.pbs
  packs : ∀ p, p ∈ l.packs → Whole l.header.pbs l.header.salt p
  contiguous : Contiguous l.header.beginLsid l.packs

/-- Wlogs of one volume, each from the end of the one before it on. -/
def Chained (uuid : Bytes) : Nat → List Wlog → Prop
  | _, [] => True
  | lsid, l :: ls => l.header.beginLsid = lsid ∧ uuidOf l.header = uuid ∧ Chained uuid l.endLsid ls

def records (ls : List Wlog) : List (WlogRecord × Bytes) := ls.flatMap fun l => logsOf l.packs

/-- What a converter keeps: with the logs that were put, `P` holds. -/
structure Keeps {σ : Type} (S : Sink σ) (uuid : Bytes) (Ok : WlogRecord × Bytes → Prop)
    (P : List (WlogRecord × Bytes) → σ → Prop) : Prop where
  uuid : ∀ {logs s}, P logs s → S.uuid s = uuid
  put : ∀ {logs s l}, P logs s → Ok l → ∀ buf, (l.1.hasData = true → buf = l.2) →
    ∃ buf' s', S.put l.1 buf s = .ok (buf', s') ∧ P (logs ++ [l]) s'

section

variable {σ : Type} {S : Sink σ} {uuid : Bytes} {Ok : WlogRecord × Bytes → Prop}
  {P : List (WlogRecord × Bytes) → σ → Prop} {s : σ}
  {done : List (WlogRecord × Bytes)}

theorem readLogs_data (fuel : Nat) (data data' : Bytes) (r : WlogReader) :
    WlogReader.readLogs fuel data r = WlogReader.readLogs fuel data' r := by
  induction fuel generalizing data data' r with
  | zero => rfl
  | succ fuel ih =>
      rw [WlogReader.readLogs, WlogReader.readLogs, WlogReader.readLog, WlogReader.readLog]
      rcases r.fetchNextPackHeader with e | ⟨b, r₁⟩
      · rfl
      · cases b with
        | false => rfl
        | true =>
            dsimp only
            rw [readLogIo, readLogIo]
            cases hd : (r₁.packH.record r₁.recIdx).hasData with
            | true => rfl
            | false =>
                rw [if_pos (by decide), if_pos (by decide)]
                dsimp only
                rw [ih data data', hd]
                rfl

theorem Keeps.logLoop (hS : Keeps S uuid Ok P) {fuel : Nat} {r r' : WlogReader} {logs : List Log}
    (data buf : Bytes)
    (hread : WlogReader.readLogs fuel data r = .ok (logs, r')) (hs : P done s)
    (hok : ∀ l, l ∈ logs → Ok (l.record, l.io)) :
    ∃ s', WlogConvert.logLoop S fuel buf r s = .ok (r', s') ∧
      P (done ++ logs.map fun l => (l.record, l.io)) s' := by
  induction fuel generalizing r logs data buf s done with
  | zero => cases hread
  | succ fuel ih =>
      rw [readLogs_data (fuel + 1) data buf, WlogReader.readLogs] at hread
      rw [WlogConvert.logLoop]
      rcases hlog : r.readLog buf with e | ⟨_ | ⟨rec, idx, data'⟩, r₁⟩
      · rw [hlog] at hread
        cases hread
      · rw [hlog] at hread
        cases hread
        exact ⟨s, rfl, by rwa [List.map_nil, List.append_nil]⟩
      · rw [hlog] at hread
        dsimp only at hread ⊢
        rcases hrest : WlogReader.readLogs fuel data' r₁ with e | ⟨more, r₂⟩
        · rw [hrest] at hread
          cases hread
        · rw [hrest] at hread
          cases hread
          obtain ⟨hok₁, hok⟩ := List.forall_mem_cons.1 hok
          obtain ⟨buf', s₁, hput, hs₁⟩ := hS.put hs hok₁ data' fun hd => (if_pos hd).symm
          dsimp only at hput
          obtain ⟨s', hloop, hs'⟩ := ih data' buf' hrest hs₁ hok
          refine ⟨s', by rw [hput]; exact hloop, ?_⟩
          rwa [List.append_assoc] at hs'

/-- The packs of a wlog are read, and the reader stops behind the end block. -/
theorem readPacks_rest {pbs salt : Nat} (hb : BlockSize pbs) {packs : List Pack}
    (hp : ∀ p, p ∈ packs → p.Valid pbs salt) (rest : Bytes) :
    ∀ {r : WlogReader}, Between pbs salt r → r.fileR = packsBytes packs ++
      ((endHeader pbs salt).block ++ rest) →
      Contiguous r.endLsid packs → ∀ fuel, ∃ r', r'.getEndLsid = .ok (endLsidOf r.endLsid packs) ∧
      r'.fileR = rest ∧
        ∀ data, WlogReader.readLogs (fuel + 1 + recordCount packs) data r =
        .ok (packs.flatMap packLogs, r') := by
  induction packs with
  | nil =>
      intro r hr hfile _ fuel
      have hfetch := hr.fetch (isValid_endHeader hb) pbs_endHeader rfl hfile
      rw [if_pos (isEnd_endHeader hb)] at hfetch
      refine ⟨{ r with isBegun := true, isEnd := true, packH := endHeader pbs salt, fileR := rest },
        ?_, rfl, fun data => ?_⟩
      · rw [WlogReader.getEndLsid, WlogReader.fetchNextPackHeader,
          if_neg (by rw [hr.isReadHeader]; decide), if_pos rfl]
        rfl
      · rw [recordCount, List.map_nil, List.sum_nil, Nat.add_zero, WlogReader.readLogs,
          WlogReader.readLog, hfetch]
        rfl
  | cons p packs ih =>
      intro r hr hfile hc fuel
      obtain ⟨hhead, htail⟩ := List.forall_mem_cons.1 hp
      obtain ⟨hlsid, hrest⟩ := hc
      have hcount : recordCount (p :: packs) = p.header.nRecords + recordCount packs := List.sum_cons
      rw [packsBytes, List.flatMap_cons, List.append_assoc] at hfile
      rw [endLsidOf_cons, hcount, List.flatMap_cons]
      by_cases hn : p.header.nRecords = 0
      · have hnext : p.header.nextLogpackLsid = r.endLsid := by
          rw [nextLogpackLsid, if_neg (by omega), hlsid]
        rw [packBytes, if_pos hn, List.nil_append] at hfile
        rw [hnext] at hrest ⊢
        rw [hn, Nat.zero_add, packLogs_of_nRecords hn, List.nil_append]
        exact ih htail hr hfile hrest fuel
      · obtain ⟨r₁, hr₁, hfile₁, hlsid₁, hreads⟩ := hr.readPack hhead hn hfile
        rw [← hlsid₁] at hrest ⊢
        obtain ⟨r', hend, hfile', hall⟩ := ih htail hr₁ hfile₁ hrest fuel
        refine ⟨r', hend, hfile', fun data => ?_⟩
        rw [Nat.add_comm p.header.nRecords, ← Nat.add_assoc]
        exact hreads hall data

theorem map_logsFrom (h : LogPackHeader) (i : Nat) (ls : List (WlogRecord × Bytes)) :
    (logsFrom h i ls).map (fun l => (l.record, l.io)) = ls := by
  induction ls generalizing i with
  | nil => rfl
  | cons l ls ih => rw [logsFrom, List.map_cons, ih]

theorem map_packLogs (packs : List Pack) : (packs.flatMap packLogs).map
    (fun l => (l.record, l.io)) = logsOf packs := by
  rw [List.map_flatMap, logsOf]
  exact congrArg (fun f => packs.flatMap f) (funext fun p => map_logsFrom p.header 0 _)

theorem recordCount_lt (packs : List Pack) (file : Bytes) (h : (packsBytes packs).length ≤ file.length)
    (hp : ∀ p, p ∈ packs → 0 < p.header.pbs) : recordCount packs < 2 ^ 16 * (file.length + 1) := by
  have hle : recordCount packs ≤ 2 ^ 16 * (packsBytes packs).length := by
    clear h
    induction packs with
    | nil => exact Nat.zero_le _
    | cons p packs ih =>
        obtain ⟨hpos, htail⟩ := List.forall_mem_cons.1 hp
        have hcount : recordCount (p :: packs) = p.header.nRecords + recordCount packs := List.sum_cons
        have hn : p.header.nRecords < 2 ^ 16 := nRecords_lt
        have hlen : (packsBytes (p :: packs)).length = (packBytes p).length +
            (packsBytes packs).length := by
          rw [packsBytes, List.flatMap_cons, List.length_append, packsBytes]
        have hrest := ih htail
        rw [hcount, hlen, packBytes]
        split_ifs with hz
        · omega
        · rw [List.length_append, p.header.length_block]
          omega
  omega

theorem beginLsid_ne {h : WlogFileHeader} (hv : h.isValid true = true) : h.beginLsid ≠ 2 ^ 64 - 1 := by
  have hend : h.endLsid < 2 ^ 64 := by
    change (Layout.fields WlogFile.widths h.data).getD 10 0 < 256 ^ 8
    rw [List.getD_eq_getElem _ 0 (by rw [Splice.length_fields]; decide),
      Splice.getElem_fields _ (by decide)]
    exact Splice.ofLE_take_lt _ 8
  rw [WlogFileHeader.isValid, Bool.and_eq_true, Bool.and_eq_true, Bool.and_eq_true,
    decide_eq_true_eq] at hv
  have hlt := of_decide_eq_true hv.1.2
  omega

theorem Keeps.convertWlog (hS : Keeps S uuid Ok P) {l : Wlog} (hl : l.Finished) (rest : Bytes)
    {lsid : Nat} {s₁ : σ}
    (hcheck : checkHeader S lsid l.header s = .ok s₁) (hs : P done s₁)
    (hok : ∀ x, x ∈ logsOf l.packs → Ok x) :
    ∃ s', WlogConvert.convertWlog S lsid (l.bytes ++ rest) s = .ok (some (l.endLsid, rest, s')) ∧
      P (done ++ logsOf l.packs) s' := by
  have hfile : l.bytes ++ rest = l.header.data ++ (packsBytes l.packs ++
      ((endHeader l.header.pbs l.header.salt).block ++ rest)) := by
    rw [Wlog.bytes, List.append_assoc, List.append_assoc]
  have hcount : recordCount l.packs < 2 ^ 16 * ((l.bytes ++ rest).length + 1) := by
    refine recordCount_lt l.packs _ ?_ fun p hp => ?_
    · rw [hfile, List.length_append, List.length_append]
      omega
    · rw [(hl.packs p hp).valid.pbs_eq]
      exact hl.blockSize.pos
  obtain ⟨n, hn⟩ := Nat.exists_eq_add_of_lt hcount
  obtain ⟨r', hend, hfile', hreads⟩ :=
    readPacks_rest hl.blockSize (fun p hp => (hl.packs p hp).valid) rest
    (@between_started l.header _) rfl hl.contiguous n
  have hlogs : ∀ x, x ∈ l.packs.flatMap packLogs → Ok (x.record, x.io) := fun x hx =>
    hok _ (by rw [← map_packLogs]; exact List.mem_map_of_mem hx)
  rw [show n + 1 + recordCount l.packs = 2 ^ 16 * ((l.bytes ++ rest).length + 1) by omega] at hreads
  obtain ⟨s', hloop, hs'⟩ := hS.logLoop [] [] (hreads []) hs hlogs
  rw [map_packLogs] at hs'
  refine ⟨s', ?_, hs'⟩
  have hhead : (WlogReader.new (l.bytes ++ rest)).readHeader =
      .ok (l.header, started l.header (packsBytes l.packs ++
      ((endHeader l.header.pbs l.header.salt).block ++ rest))) := by
    rw [hfile]
    exact readHeader_eq hl.header _
  rw [WlogConvert.convertWlog, hhead]
  simp only [bind, Except.bind, hcheck, hloop, hend, hfile']
  rfl

theorem convertWlog_end {lsid : Nat} {junk : Bytes} (hjunk : junk.length < WALBLOG_HEADER_SIZE) (s : σ) :
    WlogConvert.convertWlog S lsid junk s = .ok none := by
  have hread : (WlogReader.new junk).readHeader = .error "EofError" := by
    have hlen : ¬(junk.take WALBLOG_HEADER_SIZE).length = WALBLOG_HEADER_SIZE := by
      rw [List.length_take]
      omega
    have hfrom : WlogFileHeader.readFrom (WlogReader.new junk).fileR = .error "EofError" := dif_neg hlen
    rw [WlogReader.readHeader, if_neg (by exact Bool.false_ne_true), hfrom]
    rfl
  rw [WlogConvert.convertWlog, hread]
  exact if_pos rfl

theorem Keeps.convertLoop (hS : Keeps S uuid Ok P) {ls : List Wlog} (hl : ∀ l, l ∈ ls → l.Finished)
    (hok : ∀ x, x ∈ records ls → Ok x)
    {junk : Bytes} (hjunk : junk.length < WALBLOG_HEADER_SIZE) {lsid : Nat}
    (hc : Chained uuid lsid ls) (hs : P done s) {fuel : Nat}
    (hfuel : ls.length < fuel) :
    ∃ lsid' s', WlogConvert.convertLoop S fuel lsid (ls.flatMap Wlog.bytes ++ junk) s =
      .ok (lsid', s') ∧ P (done ++ records ls) s' := by
  induction ls generalizing lsid s done fuel with
  | nil =>
      obtain ⟨fuel, rfl⟩ := Nat.exists_eq_succ_of_ne_zero (Nat.ne_zero_of_lt hfuel)
      refine ⟨lsid, s, ?_, by rwa [records, List.flatMap_nil, List.append_nil]⟩
      rw [WlogConvert.convertLoop, List.flatMap_nil, List.nil_append, convertWlog_end hjunk]
  | cons l ls ih =>
      obtain ⟨fuel, rfl⟩ := Nat.exists_eq_succ_of_ne_zero (Nat.ne_zero_of_lt hfuel)
      obtain ⟨hl₁, hl⟩ := List.forall_mem_cons.1 hl
      obtain ⟨hbegin, huuid, hc⟩ := hc
      have hcheck : checkHeader S lsid l.header s = .ok s := by
        rw [checkHeader, ← hbegin, if_neg (beginLsid_ne hl₁.header), if_neg (not_not.2 rfl), huuid,
          if_neg (not_not.2 (hS.uuid hs))]
      obtain ⟨s₁, hone, hs₁⟩ := hS.convertWlog hl₁ (ls.flatMap Wlog.bytes ++ junk) hcheck hs
        fun x hx => hok x (List.mem_append_left _ hx)
      obtain ⟨lsid', s', hloop, hs'⟩ :=
        ih hl (fun x hx => hok x (List.mem_append_right _ hx)) hc hs₁ (Nat.lt_of_succ_lt_succ hfuel)
      refine ⟨lsid', s', ?_, ?_⟩
      · rw [WlogConvert.convertLoop, List.flatMap_cons, List.append_assoc, hone]
        exact hloop
      · rwa [List.append_assoc] at hs'

theorem length_wlogs (ls : List Wlog) : ls.length ≤ (ls.flatMap Wlog.bytes).length := by
  induction ls with
  | nil => exact Nat.zero_le _
  | cons l ls ih =>
      have hdata : l.header.data.length = WALBLOG_HEADER_SIZE := l.header.length_data
      have hsize : WALBLOG_HEADER_SIZE = 4096 := rfl
      rw [List.flatMap_cons, List.length_append, List.length_cons, Wlog.bytes, List.length_append]
      omega

theorem Keeps.run (hS : Keeps S uuid Ok P) {l : Wlog} {ls : List Wlog}
    (hl : ∀ l', l' ∈ l :: ls → l'.Finished)
    (hc : Chained uuid l.header.beginLsid (l :: ls)) (hok : ∀ x, x ∈ records (l :: ls) → Ok x)
    {junk : Bytes}
    (hjunk : junk.length < WALBLOG_HEADER_SIZE) {s₁ : σ} (hstart : S.start uuid s = .ok s₁)
    (hs : P [] s₁) :
    ∃ lsid' s', WlogConvert.convertLoop S (((l :: ls).flatMap Wlog.bytes ++ junk).length + 1)
      (2 ^ 64 - 1)
      ((l :: ls).flatMap Wlog.bytes ++ junk) s = .ok (lsid', s') ∧ P (records (l :: ls)) s' := by
  obtain ⟨hl₁, hl⟩ := List.forall_mem_cons.1 hl
  obtain ⟨-, huuid, hc⟩ := hc
  have hcheck : checkHeader S (2 ^ 64 - 1) l.header s = .ok s₁ := by
    rw [checkHeader, if_pos rfl, huuid, hstart]
  have hfuel : ls.length < ((l :: ls).flatMap Wlog.bytes ++ junk).length := by
    have hlen := length_wlogs (l :: ls)
    rw [List.length_cons] at hlen
    rw [List.length_append]
    omega
  obtain ⟨s₂, hone, hs₂⟩ := hS.convertWlog hl₁ (ls.flatMap Wlog.bytes ++ junk) hcheck hs fun x hx =>
    hok x (List.mem_append_left _ hx)
  obtain ⟨lsid', s', hloop, hs'⟩ :=
    hS.convertLoop hl (fun x hx => hok x (List.mem_append_right _ hx)) hjunk hc hs₂ hfuel
  refine ⟨lsid', s', ?_, hs'⟩
  rw [WlogConvert.convertLoop]
  have hone' : WlogConvert.convertWlog S (2 ^ 64 - 1) ((l :: ls).flatMap Wlog.bytes ++ junk) s =
      .ok (some (l.endLsid, ls.flatMap Wlog.bytes ++ junk, s₂)) := by
    rw [List.flatMap_cons, List.append_assoc]
    exact hone
  rw [hone']
  exact hloop

end

section

variable {devSize : Nat} {l : WlogRecord × Bytes} {logs : List (WlogRecord × Bytes)}

def recType (l : WlogRecord × Bytes) : DiffRecType :=
  if l.1.isDiscard then .discard
    else if DiffPack.Pack.isAllZero (l.2.take (l.1.ioSize * lbs)) then .allZero else .normal

def ioOfLog (l : WlogRecord × Bytes) : Option (DiffRecIo LogicalBlock) :=
  if l.1.isPadding then none
  else some ⟨⟨l.1.offset, l.1.ioSize, if recType l = .normal then l.1.ioSize * lbs else 0, recType l⟩,
    if recType l = .normal then LogicalBlock.ofBytes (l.2.take (l.1.ioSize * lbs)) else []⟩

/-- A log of a valid pack that lies on the device and whose size in bytes fits 32 bits. -/
structure Convertible (devSize : Nat) (l : WlogRecord × Bytes) : Prop where
  exist : l.1.isExist = true
  applicable : Applicable l
  end_le : l.1.isPadding = false → (l.1.offset + l.1.ioSize) * lbs ≤ devSize
  size_lt : l.1.isPadding = false → l.1.ioSize < 2 ^ 23

theorem Convertible.length_take (h : Convertible devSize l) (hpad : l.1.isPadding = false)
    (hd : l.1.isDiscard = false) :
    (l.2.take (l.1.ioSize * lbs)).length = l.1.ioSize * lbs :=
  List.length_take_of_le (h.applicable.data hpad hd)

theorem Convertible.hasData (h : Convertible devSize l) : l.1.hasData = !l.1.isDiscard := by
  rw [WlogRecord.hasData, h.exist, Bool.true_and]

theorem not_discard_of_recType (ht : recType l ≠ .discard) : l.1.isDiscard = false := by
  cases hd : l.1.isDiscard with
  | false => rfl
  | true => exact absurd (if_pos hd) ht

theorem Convertible.valid (h : Convertible devSize l) {r : DiffRecIo LogicalBlock}
    (hr : ioOfLog l = some r) : r.Valid ∧ DiffRedo.OnDevice devSize r := by
  rw [ioOfLog] at hr
  cases hpad : l.1.isPadding with
  | true =>
      rw [hpad, if_pos rfl] at hr
      cases hr
  | false =>
      rw [hpad, if_neg (by decide)] at hr
      obtain rfl := Option.some.inj hr
      refine ⟨⟨(h.applicable.addressed hpad).pos, fun ht => ?_, fun ht => if_pos ht,
        fun ht => if_neg ht⟩, h.end_le hpad, h.size_lt hpad⟩
      change recType l = .normal at ht
      have hd := not_discard_of_recType (by rw [ht]; decide)
      dsimp only
      rw [if_pos ht, LogicalBlock.length_ofBytes (h.length_take hpad hd)]

theorem dataSize_ioOfLog {r : DiffRecIo LogicalBlock} (hr : ioOfLog l = some r)
    (ht : r.record.type ≠ .normal) : r.record.dataSize = 0 := by
  rw [ioOfLog] at hr
  by_cases hpad : l.1.isPadding = true
  · rw [if_pos hpad] at hr
    cases hr
  · rw [if_neg hpad] at hr
    obtain rfl := Option.some.inj hr
    exact if_neg ht

theorem eq_replicate_of_isAllZero {d : Bytes} (h : DiffPack.Pack.isAllZero d = true) :
    d = List.replicate d.length 0 :=
  List.eq_replicate_of_mem fun b hb => by simpa using List.all_eq_true.1 h b hb

theorem Convertible.iosOf_eq (h : Convertible devSize l) (hdev : devSize < 2 ^ 55)
    {cfg : WlogRedo.WlogRedoConfig}
    (hcfg : cfg.isDiscard = false ∧ cfg.isZeroDiscard = true) :
    iosOf cfg devSize l = (ioOfLog l).toList.map writeOf := by
  rw [iosOf, ioOfLog]
  cases hpad : l.1.isPadding with
  | true => rfl
  | false =>
      have hend := h.end_le hpad
      have hclip : ¬WlogRedo.Clipped devSize l.1.offset l.1.ioSize := by
        rw [WlogRedo.Clipped, deviceSizeLb]
        rw [lbs] at hend
        omega
      rw [decide_eq_false hclip, Bool.or_self, hcfg.1, hcfg.2]
      simp only [Bool.false_eq_true, if_false, Bool.not_true, Option.toList_some, List.map_cons,
        List.map_nil, writeOf,
        DiffRedo.bytesOf, DiffRecord.isNormal]
      change (if l.1.isDiscard = true then [DeviceIo.pwrite (l.1.offset * lbs)
        (List.replicate (l.1.ioSize * lbs) 0)]
        else [.pwrite (l.1.offset * lbs) (l.2.take (l.1.ioSize * lbs))]) = _
      cases hd : l.1.isDiscard with
      | true =>
          have ht : recType l = .discard := if_pos hd
          rw [ht]
          rfl
      | false =>
          have hlen := h.length_take hpad hd
          rw [if_neg (by decide)]
          by_cases hz : DiffPack.Pack.isAllZero (l.2.take (l.1.ioSize * lbs)) = true
          · have ht : recType l = .allZero := by rw [recType, hd, if_neg (by decide), if_pos hz]
            have hzero := eq_replicate_of_isAllZero hz
            rw [hlen] at hzero
            rw [ht, hzero]
            rfl
          · have ht : recType l = .normal := by rw [recType, hd, if_neg (by decide), if_neg hz]
            have hdata := LogicalBlock.toBytes_ofBytes hlen
            simp only [ht, decide_true, if_true, hdata]

theorem replay_eq (hdev : devSize < 2 ^ 55) (h : ∀ l, l ∈ logs → Convertible devSize l)
    {cfg : WlogRedo.WlogRedoConfig}
    (hcfg : cfg.isDiscard = false ∧ cfg.isZeroDiscard = true) (discarded : Discarding UInt8)
    (device : Nat → UInt8) :
    WlogRedo.replay discarded cfg devSize device logs =
      write (bytesAt (content (logs.filterMap ioOfLog))) device := by
  have hios : WlogRedo.iosOfLogs cfg devSize logs = (logs.filterMap ioOfLog).map writeOf := by
    rw [WlogRedo.iosOfLogs]
    induction logs with
    | nil => rfl
    | cons l logs ih =>
        obtain ⟨hl, hlogs⟩ := List.forall_mem_cons.1 h
        rw [List.flatMap_cons, hl.iosOf_eq hdev hcfg, ih hlogs, List.filterMap_cons]
        cases ioOfLog l <;> rfl
  rw [WlogRedo.replay, hios]
  apply DiffRedo.applyAll_writeOf
  intro r hr
  obtain ⟨l, hl, hio⟩ := List.mem_filterMap.1 hr
  exact ((h l hl).valid hio).1

end

section

variable {devSize : Nat} {l : WlogRecord × Bytes} {logs : List (WlogRecord × Bytes)} {uuid : Bytes}
  {s : DiffConverter}

/-- The data of a log fills its physical blocks, which `DiffRecIo` asserts of its buffer. -/
def Full (l : WlogRecord × Bytes) : Prop :=
  l.1.isPadding = false → l.1.isDiscard = false → l.2.length = l.1.ioSize * lbs

structure InMemory (uuid : Bytes) (logs : List (WlogRecord × Bytes)) (s : DiffConverter) : Prop where
  wf : WF s.diffMem.map
  content : content s.diffMem.map = content (logs.filterMap ioOfLog)
  origin : ∀ p, p ∈ s.diffMem.map → ∃ r, r ∈ logs.filterMap ioOfLog ∧ DiffRecIo.Piece r p
  fileH : s.fileH = DiffFileHeader.init.setUuid uuid

theorem convertLogToDiff_eq (h : Convertible devSize l) (hpad : l.1.isPadding = false) {buf : Bytes}
    (hbuf : l.1.hasData = true → buf = l.2) : convertLogToDiff l.1 buf =
      some (recordOf ⟨l.1.offset, l.1.ioSize, if recType l = .normal then l.1.ioSize * lbs
      else 0, recType l⟩) := by
  have hsize := h.size_lt hpad
  have hmod : l.1.ioSize * lbs % 2 ^ 32 = l.1.ioSize * lbs := Nat.mod_eq_of_lt (by rw [lbs]; omega)
  cases hd : l.1.isDiscard with
  | true =>
      have ht : recType l = .discard := if_pos hd
      simp only [convertLogToDiff, hpad, hd, Bool.false_eq_true, if_false, if_true, ht]
      rfl
  | false =>
      obtain rfl := hbuf (by rw [h.hasData, hd]; rfl)
      simp only [convertLogToDiff, hpad, hd, Bool.false_eq_true, if_false, hmod]
      by_cases hz : DiffPack.Pack.isAllZero (l.2.take (l.1.ioSize * lbs)) = true
      · have ht : recType l = .allZero := by rw [recType, hd, if_neg (by decide), if_pos hz]
        rw [if_pos hz, ht]
        rfl
      · have ht : recType l = .normal := by rw [recType, hd, if_neg (by decide), if_neg hz]
        rw [if_neg hz, ht]
        rfl

theorem convertLogToDiff_spec (h : Convertible devSize l) (hfull : Full l)
    (hpad : l.1.isPadding = false) {buf : Bytes}
    (hbuf : l.1.hasData = true → buf = l.2) :
    ∃ drec r, convertLogToDiff l.1 buf = some drec ∧ ioOfLog l = some r ∧
      DiffConverter.memRecord drec = r.record ∧
      LogicalBlock.ofBytes (if drec.isNormal then buf else []) = r.io := by
  have hnil : LogicalBlock.ofBytes [] = [] := LogicalBlock.ofBytes_toBytes []
  refine ⟨_, _, convertLogToDiff_eq h hpad hbuf, if_neg (by rw [hpad]; decide), ?_, ?_⟩
  · rw [DiffConverter.memRecord, DiffRedo.typeOf_recordOf]
    rfl
  · rw [DiffRedo.isNormal_recordOf, DiffRecord.isNormal]
    by_cases ht : recType l = .normal
    · have hd := not_discard_of_recType (by rw [ht]; decide)
      obtain rfl := hbuf (by rw [h.hasData, hd]; rfl)
      rw [if_pos (decide_eq_true ht), List.take_of_length_le (hfull hpad hd).le]
      exact (if_pos ht).symm
    · rw [if_neg (by simpa using ht), hnil]
      exact (if_neg ht).symm

theorem keeps_sorted (devSize : Nat) (uuid : Bytes) :
    Keeps DiffConverter.sink uuid (fun l => Convertible devSize l ∧ Full l) (InMemory uuid) where
  uuid h := by
    change DiffFileHeader.uuid _ = uuid
    rw [h.fileH]
    rfl
  put {logs s l} h hok buf hbuf := by
    obtain ⟨hl, hfull⟩ := hok
    cases hpad : l.1.isPadding with
    | true =>
        have hnone : ioOfLog l = none := if_pos hpad
        have hconv : convertLogToDiff l.1 buf = none := if_pos hpad
        refine ⟨buf, s, ?_, h.wf, ?_, ?_, h.fileH⟩
        · change DiffConverter.put l.1 buf s = _
          rw [DiffConverter.put, hconv]
        · rw [h.content, List.filterMap_append, List.filterMap_cons, hnone, List.filterMap_nil,
            List.append_nil]
        · rw [List.filterMap_append, List.filterMap_cons, hnone, List.filterMap_nil, List.append_nil]
          exact h.origin
    | false =>
        obtain ⟨drec, r, hconv, hio, hrec, hbuf'⟩ := convertLogToDiff_spec hl hfull hpad hbuf
        have hr := (hl.valid hio).1
        have hlogs : (logs ++ [l]).filterMap ioOfLog = logs.filterMap ioOfLog ++ [r] := by
          rw [List.filterMap_append, List.filterMap_cons, hio, List.filterMap_nil]
        obtain ⟨m', hadd, hwf, -, -, hcontent, horigin⟩ := add_content h.wf hr
        refine ⟨[], { s with diffMem := m' }, ?_, hwf, ?_, fun p hp => ?_, h.fileH⟩
        · change DiffConverter.put l.1 buf s = _
          rw [DiffConverter.put, hconv]
          dsimp only
          rw [hrec, hbuf', hadd]
        · rw [hlogs]
          dsimp only
          rw [hcontent, h.content, content, content, List.map_append, overlay_append,
            List.map_singleton, overlay_singleton]
        · rw [hlogs]
          rcases horigin p hp with ⟨hpiece, -⟩ | ⟨q, hq, hpiece⟩
          · exact ⟨r, List.mem_append_right _ (List.mem_singleton_self r), hpiece⟩
          · obtain ⟨r', hr', hpiece'⟩ := h.origin q hq
            exact ⟨r', List.mem_append_left _ hr', hpiece'.trans hpiece⟩

theorem fits_header (l : Wlog) : DiffFileHeader.Fits (DiffFileHeader.init.setUuid
    (uuidOf l.header)) := by
  have hsize : WALBLOG_HEADER_SIZE = 4096 := rfl
  refine ⟨rfl, by change WALB_DIFF_TYPE_SORTED < 2 ^ 8; decide, ?_⟩
  change (uuidOf l.header).length = UUID_SIZE
  rw [uuidOf, List.length_take, List.length_drop, l.header.length_data, UUID_SIZE]
  omega

/-- The records of finished wlogs can be converted if they lie on the device. -/
theorem convertible_of_finished {ls : List Wlog} (hl : ∀ l, l ∈ ls → l.Finished)
    (hdev : devSize < 2 ^ 55)
    (hon : ∀ x, x ∈ records ls → x.1.isPadding = false → (x.1.offset + x.1.ioSize) * lbs ≤ devSize ∧
      x.1.ioSize < 2 ^ 23) :
    ∀ x, x ∈ records ls → Convertible devSize x := by
  intro x hx
  obtain ⟨l, hmem, hxl⟩ := List.mem_flatMap.1 hx
  have hfin := hl l hmem
  have haddr : ∀ y, y ∈ logsOf l.packs → y.1.isPadding = false → y.1.offset + y.1.ioSize < 2 ^ 55 := by
    intro y hy hpad
    have hend := (hon y (List.mem_flatMap.2 ⟨l, hmem, hy⟩) hpad).1
    rw [lbs] at hend
    omega
  have happ := @WlogRedo.applicable_of_whole ⟨false, true, l.header.pbs, l.header.salt, 0, false,
    false⟩ l.packs hfin.blockSize hfin.packs haddr x hxl
  obtain ⟨p, hp, hzip⟩ := List.mem_flatMap.1 hxl
  have hvalid : x.1.isValid = true :=
    isValid_of_mem (hfin.packs p hp).valid.isValid (List.of_mem_zip hzip).1
  refine ⟨?_, happ, fun hpad => (hon x hx hpad).1, fun hpad => (hon x hx hpad).2⟩
  simp only [WlogRecord.isValid, Bool.and_eq_true] at hvalid
  exact hvalid.1.1.1.1

/-- What the memory diff holds can be written, and lies on the device. -/
theorem InMemory.stowable (h : InMemory uuid logs s) (hdev : devSize < 2 ^ 55)
    (hlogs : ∀ l, l ∈ logs → Convertible devSize l)
    {p : DiffRecIo LogicalBlock} (hp : p ∈ s.diffMem.map) :
    DiffRedo.Stowable p ∧ DiffRedo.OnDevice devSize p := by
  obtain ⟨r, hr, hpiece⟩ := h.origin p hp
  obtain ⟨l, hl, hio⟩ := List.mem_filterMap.1 hr
  obtain ⟨hvalid, hon⟩ := (hlogs l hl).valid hio
  have hbegin := hpiece.begin_le
  have hend := hpiece.end_le
  have hend' := hon.end_le
  have hsize := hon.size_lt
  rw [DiffRecord.endIoAddress, DiffRecord.endIoAddress] at hend
  have hrange : (p.record.ioAddress + p.record.ioBlocks) * lbs ≤ devSize :=
    (Nat.mul_le_mul_right lbs hend).trans hend'
  refine ⟨⟨h.wf.valid p hp, ?_, by omega, fun ht => ?_⟩, hrange, by omega⟩
  · rw [lbs] at hrange
    omega
  · rw [hpiece.type] at ht
    exact hpiece.dataSize_zero ht (dataSize_ioOfLog hio ht)

/-- A log that is converted to a sorted diff, which then is redone with zeros for discards,
leaves the device as redo of the log with zeros for discards does: for wlogs that follow each
other, whose IOs lie on the device, are below 2^23 blocks and fill their physical blocks;
whichever overlap, and whatever the largest size of an IO is. -/
theorem sorted_diff_redoes_log {Z : Codecs} (hZ : Z.Lawful) (maxIoBlocks : Nat) {l : Wlog}
    {ls : List Wlog} (hl : ∀ l', l' ∈ l :: ls → l'.Finished)
    (hc : Chained (uuidOf l.header) l.header.beginLsid (l :: ls)) {junk : Bytes}
    (hjunk : junk.length < WALBLOG_HEADER_SIZE)
    (hdev : devSize < 2 ^ 55)
    (hon : ∀ x, x ∈ records (l :: ls) → x.1.isPadding = false →
      (x.1.offset + x.1.ioSize) * lbs ≤ devSize ∧ x.1.ioSize < 2 ^ 23)
    (hfull : ∀ x, x ∈ records (l :: ls) → Full x) {cfg : WlogRedo.WlogRedoConfig}
    (hcfg : cfg.isDiscard = false ∧ cfg.isZeroDiscard = true) :
    ∃ file e, DiffConverter.convert Z maxIoBlocks ((l :: ls).flatMap Wlog.bytes ++ junk) = .ok file ∧
      DiffRedo.run Z ⟨false, true⟩ devSize file = .ok e ∧
        ∀ discarded device, DeviceIo.applyAll discarded device e.issued =
          WlogRedo.replay discarded cfg devSize device (records (l :: ls)) := by
  have hlogs := convertible_of_finished hl hdev hon
  have hstart : InMemory (uuidOf l.header) [] ⟨.init maxIoBlocks,
      DiffFileHeader.init.setUuid (uuidOf l.header)⟩ :=
    ⟨WF.nil, rfl, fun _ hp => absurd hp List.not_mem_nil, rfl⟩
  obtain ⟨lsid, s, hrun, hs⟩ :=
    (keeps_sorted devSize (uuidOf l.header)).run (s := ⟨.init maxIoBlocks, .init⟩) hl hc
    (fun x hx => ⟨hlogs x hx, hfull x hx⟩) hjunk rfl hstart
  have hheader : DiffFileHeader.Fits { s.fileH with type := WALB_DIFF_TYPE_SORTED } := by
    rw [hs.fileH]
    exact fits_header l
  have htype : WALB_DIFF_CMPR_SNAPPY < WALB_DIFF_CMPR_MAX := by decide
  obtain ⟨file, e, hfile, hredo, himage⟩ := DiffRedo.run_sorted hZ hheader htype
    (hdev.trans (by decide)) fun p hp => hs.stowable hdev hlogs hp
  refine ⟨file, e, ?_, hredo, fun discarded device => ?_⟩
  · rw [DiffConverter.convert, hrun]
    simp only [bind, Except.bind, DiffConverter.writeTo]
    rw [← hfile]
    congr 1
  · rw [himage, hs.content, replay_eq hdev hlogs hcfg]

def tinyFields : List (Nat × Nat) :=
  [(2, SECTOR_TYPE_WALBLOG_HEADER), (2, WdevLog.WALB_LOG_VERSION), (2, WALBLOG_HEADER_SIZE), (2, 0),
    (4, 0), (4, 0), (4, lbs), (4, 512),
    (16, 0), (8, 7), (8, 200)]

/-- A wlog of one pack, with a discard and a block run of zeros behind it. -/
theorem exists_wlog : ∃ (l : Wlog)
    (zeros : Bytes), l.Finished ∧ zeros.length = 8 * lbs ∧ l.bytes.length < 2 ^ 20 ∧
    records [l] = [(⟨0, 5, 0, 8, 1, 8⟩, []), (⟨0, 1, 8, 8, 1, 8⟩, zeros)] := by
  obtain ⟨h, hkept, hvalid, hpbs, hsalt, hlsid, hrecords⟩ := WlogRedo.exists_twoRecords
  obtain ⟨zeros, hlen, hsum⟩ : ∃ zeros : Bytes, zeros.length = 8 * lbs ∧
      Queue.calcChecksum zeros 0 = 0 :=
    ⟨List.replicate 4096 0, by decide +kernel, by decide +kernel⟩
  obtain ⟨header, hheader, hfields⟩ : ∃ header : WlogFileHeader, header.isValid true = true ∧
      ∀ i, i ≠ 4 → header.field i = (tinyFields.map Prod.snd).getD i 0 := by
    have hfit : Layout.Fit tinyFields := by
      simp only [Layout.Fit, tinyFields, List.forall_mem_cons]
      exact ⟨by decide, by decide, by decide, by decide, by decide, by decide, by decide, by decide,
        by decide, by decide, by decide,
        fun f hf => absurd hf List.not_mem_nil⟩
    obtain ⟨data, hdata, hfields⟩ : ∃ data : Bytes, data.length = WALBLOG_HEADER_SIZE ∧
        Layout.fields WlogFile.widths data = tinyFields.map Prod.snd := by
      refine ⟨Layout.layout tinyFields ++ List.replicate 4040 0, ?_,
        Layout.fields_layout tinyFields hfit _⟩
      rw [List.length_append, Layout.length_layout, List.length_replicate]
      rfl
    have hfield : ∀ i, (WlogFileHeader.mk data hdata).field i =
      (tinyFields.map Prod.snd).getD i 0 := fun i =>
      congrArg (fun l : List Nat => l.getD i 0) hfields
    refine ⟨(WlogFileHeader.mk data hdata).updateChecksum, WlogFileHeader.isValid_updateChecksum ?_,
      fun i hi => ?_⟩
    · rw [WlogFileHeader.isValid, WlogFileHeader.sectorType, WlogFileHeader.version,
        WlogFileHeader.beginLsid, WlogFileHeader.endLsid,
        hfield, hfield, hfield, hfield]
      rfl
    · rw [WlogFileHeader.field_updateChecksum hi, hfield]
  have hpbs' : header.pbs = lbs := hfields 7 (by decide)
  have hsalt' : header.salt = 0 := hfields 5 (by decide)
  have hbegin : header.beginLsid = 7 := hfields 9 (by decide)
  have hn : h.nRecords = 2 := by rw [← length_records, hrecords]; rfl
  have hwhole : Whole lbs 0 ⟨h, [[], zeros]⟩ := by
    refine ⟨⟨hpbs, hsalt, hvalid, ?_, ?_⟩, ?_⟩
    · rw [isEnd, hn]
      rfl
    · rw [hrecords]
      refine .cons ⟨fun _ => rfl, by decide, by decide⟩
        (.cons ⟨fun hd => absurd hd (by decide), fun _ => hlen, fun _ => ?_⟩ .nil)
      rw [List.take_of_length_le hlen.le]
      exact hsum
    · exact hkept.totalIoSize.trans (by rw [hpbs])
  refine ⟨⟨header, [⟨h, [[], zeros]⟩]⟩, zeros, ⟨hheader, ?_, ?_, ?_⟩, hlen, ?_, ?_⟩
  · rw [hpbs']
    exact blockSize_lbs
  · rw [hpbs', hsalt']
    exact List.forall_mem_singleton.2 hwhole
  · exact ⟨hlsid.trans hbegin.symm, trivial⟩
  · have hblock : (endHeader header.pbs header.salt).block.length = lbs := by
      rw [(endHeader header.pbs header.salt).length_block, pbs_endHeader, hpbs']
    have hpack : packBytes ⟨h, [[], zeros]⟩ = h.block ++ [[], zeros].flatten :=
      if_neg (by rw [hn]; decide)
    rw [Wlog.bytes, List.length_append, header.length_data, List.length_append, hblock, packsBytes,
      List.flatMap_singleton, hpack,
      List.length_append, h.length_block, hpbs, List.flatten_cons, List.nil_append,
      List.flatten_cons, List.flatten_nil, List.append_nil, hlen]
    decide
  · rw [records, List.flatMap_singleton, logsOf, List.flatMap_singleton]
    dsimp only
    rw [hrecords]
    rfl

def zeroConfig : WlogRedo.WlogRedoConfig := ⟨false, true, lbs, 0, 7, false, false⟩

/-- A discard and a run of zeros, in pieces of four blocks. -/
theorem sorted_diff_redoes_log_two : ∃ (l : Wlog) (zeros file : Bytes)
    (e : DiffRedo.SimpleDiffIoExecutor),
    records [l] = [(⟨0, 5, 0, 8, 1, 8⟩, []), (⟨0, 1, 8, 8, 1, 8⟩, zeros)] ∧
      DiffConverter.convert .declining 4 ([l].flatMap Wlog.bytes ++ [1, 2]) = .ok file ∧
        DiffRedo.run .declining ⟨false, true⟩ (2 ^ 20) file = .ok e ∧
          ∀ discarded device, DeviceIo.applyAll discarded device e.issued =
            WlogRedo.replay discarded zeroConfig (2 ^ 20) device (records [l]) := by
  obtain ⟨l, zeros, hl, hzeros, -, hrecords⟩ := exists_wlog
  have hon : ∀ x, x ∈ records [l] → x.1.isPadding = false →
      (x.1.offset + x.1.ioSize) * lbs ≤ 2 ^ 20 ∧ x.1.ioSize < 2 ^ 23 := by
    rw [hrecords]
    simp only [List.forall_mem_cons, List.not_mem_nil, false_implies, implies_true, and_true]
    exact ⟨fun _ => by decide, fun _ => by decide⟩
  have hfull : ∀ x, x ∈ records [l] → Full x := by
    rw [hrecords]
    simp only [List.forall_mem_cons, List.not_mem_nil, false_implies, implies_true, and_true]
    exact ⟨fun _ hd => absurd hd (by decide), fun _ _ => hzeros⟩
  obtain ⟨file, e, hfile, hredo, himage⟩ :=
    @sorted_diff_redoes_log (2 ^ 20) .declining Codecs.lawful_declining 4 l []
    (List.forall_mem_singleton.2 hl) ⟨rfl, rfl, trivial⟩ [1, 2] (by decide) (by decide) hon hfull
      zeroConfig ⟨rfl, rfl⟩
  exact ⟨l, zeros, file, e, hrecords, hfile, hredo, himage⟩

end

section

open IndexedWriter (Call Written indexedHeader)

variable {Z : Codecs} {devSize : Nat} {l : WlogRecord × Bytes} {logs : List (WlogRecord × Bytes)}
  {uuid : Bytes} {s : IndexedDiffConverter}

def indexedRecordOf (l : WlogRecord × Bytes) : IndexedDiffRecord where
  ioAddress := l.1.offset
  ioBlocks := l.1.ioSize
  flags := flagsOf (recType l)
  compressionType := WALB_DIFF_CMPR_NONE
  dataOffset := 0
  dataSize := if recType l = .normal then l.1.ioSize * lbs else 0
  ioOffset := 0
  origBlocks := if recType l = .normal then l.1.ioSize else 0
  ioChecksum := 0
  recChecksum := 0

def callOf (l : WlogRecord × Bytes) (buf : Bytes) : Call :=
  .compressAndWriteDiff (indexedRecordOf l) buf WALB_DIFF_CMPR_SNAPPY 0

structure InFile (Z : Codecs) (devSize : Nat) (uuid : Bytes) (logs : List (WlogRecord × Bytes))
    (s : IndexedDiffConverter) : Prop where
  wdiffH : s.wdiffH = indexedHeader (DiffFileHeader.init.setUuid uuid)
  calls : ∃ calls, Written Z (indexedHeader (DiffFileHeader.init.setUuid uuid)).toBytes calls s.writer ∧
    calls.map (Call.io Z) = logs.filterMap ioOfLog ∧ (calls.flatMap (Call.added Z)).length ≤
    (logs.map fun l => l.2.length).sum
  inRange : ∀ p, p ∈ s.writer.index → DiffRedo.InRange devSize p

theorem type_indexedRecordOf (l : WlogRecord × Bytes) : (indexedRecordOf l).type = recType l := by
  change (if (!(flagsOf (recType l)).testBit 1 && !(flagsOf (recType l)).testBit 2) =
    true then DiffRecType.normal
    else if (flagsOf (recType l)).testBit 2 = true then .discard else .allZero) = recType l
  cases recType l <;> decide

theorem isNormal_indexedRecordOf (l : WlogRecord × Bytes) :
    (indexedRecordOf l).isNormal = true ↔ recType l = .normal := by
  rw [← type_eq_normal, type_indexedRecordOf]

theorem convertLogToIndexedDiff_eq (h : Convertible devSize l) (hpad : l.1.isPadding = false)
    {buf : Bytes}
    (hbuf : l.1.hasData = true → buf = l.2) :
    convertLogToIndexedDiff l.1 buf = some (indexedRecordOf l) := by
  have hsize := h.size_lt hpad
  have hmod : l.1.ioSize * lbs % 2 ^ 32 = l.1.ioSize * lbs := Nat.mod_eq_of_lt (by rw [lbs]; omega)
  rw [indexedRecordOf]
  cases hd : l.1.isDiscard with
  | true =>
      have ht : recType l = .discard := if_pos hd
      simp only [convertLogToIndexedDiff, hpad, hd, Bool.false_eq_true, if_false, if_true, ht]
      rfl
  | false =>
      obtain rfl := hbuf (by rw [h.hasData, hd]; rfl)
      simp only [convertLogToIndexedDiff, hpad, hd, Bool.false_eq_true, if_false, hmod]
      by_cases hz : DiffPack.Pack.isAllZero (l.2.take (l.1.ioSize * lbs)) = true
      · have ht : recType l = .allZero := by rw [recType, hd, if_neg (by decide), if_pos hz]
        rw [if_pos hz, ht]
        rfl
      · have ht : recType l = .normal := by rw [recType, hd, if_neg (by decide), if_neg hz]
        rw [if_neg hz, ht]
        rfl

theorem fits_indexedRecordOf (h : Convertible devSize l) (hdev : devSize < 2 ^ 55)
    (hpad : l.1.isPadding = false) : Fits (indexedRecordOf l) := by
  have hsize := h.size_lt hpad
  have hend := h.end_le hpad
  rw [lbs] at hend
  refine ⟨?_, ?_, ?_, ?_, ?_, ?_, ?_, ?_⟩
  · change l.1.offset + l.1.ioSize < 2 ^ 64
    omega
  · change l.1.ioSize < 2 ^ 32
    omega
  · exact flagsOf_lt _
  · change WALB_DIFF_CMPR_NONE < 2 ^ 8
    decide
  · change (if recType l = .normal then l.1.ioSize * lbs else 0) < 2 ^ 32
    rw [lbs]
    split_ifs <;> omega
  · change 0 + l.1.ioSize < 2 ^ 32
    omega
  · change (if recType l = .normal then l.1.ioSize else 0) < 2 ^ 32
    split_ifs <;> omega
  · change 0 < 2 ^ 32
    decide

theorem exclusive_indexedRecordOf (l : WlogRecord × Bytes) :
    ((indexedRecordOf l).isAllZero && (indexedRecordOf l).isDiscard) = false := by
  change ((flagsOf (recType l)).testBit 1 && (flagsOf (recType l)).testBit 2) = false
  cases recType l <;> decide

theorem callOf_spec (h : Convertible devSize l) (hdev : devSize < 2 ^ 55)
    (hpad : l.1.isPadding = false) {buf : Bytes}
    (hbuf : l.1.hasData = true → buf = l.2) :
    (callOf l buf).Valid Z ∧ ioOfLog l = some ((callOf l buf).io Z) := by
  have hfits := fits_indexedRecordOf h hdev hpad
  have hsize := h.size_lt hpad
  have hcompressed : (indexedRecordOf l).isCompressed = false := rfl
  have hmod : l.1.ioSize * lbs % 2 ^ 32 = l.1.ioSize * lbs := Nat.mod_eq_of_lt (by rw [lbs]; omega)
  have hio : ioOfLog l = some ⟨⟨l.1.offset, l.1.ioSize, if recType l = .normal then l.1.ioSize * lbs
    else 0, recType l⟩,
      if recType l = .normal then LogicalBlock.ofBytes (l.2.take (l.1.ioSize * lbs))
      else []⟩ := if_neg (by rw [hpad]; decide)
  have htype := type_indexedRecordOf l
  rw [hio, callOf, Call.Valid, Call.io, Call.isPlain, hcompressed, Bool.not_false, Bool.and_true]
  by_cases ht : recType l = .normal
  · have hn := (isNormal_indexedRecordOf l).2 ht
    have hd := not_discard_of_recType (by rw [ht]; decide)
    obtain rfl := hbuf (by rw [h.hasData, hd]; rfl)
    rw [if_pos hn, if_pos hn, if_pos ht, if_pos ht]
    refine ⟨⟨hfits, by decide, (h.applicable.addressed hpad).pos, ?_, h.applicable.data hpad hd,
      if_pos ht, rfl⟩, ?_⟩
    · change l.1.ioSize * lbs < 2 ^ 32
      rw [lbs]
      omega
    · rw [recIo, ofBuf, isNormal_toRecord, if_pos hn, toRecord, htype, if_pos hn]
      change _ = some (DiffRecIo.mk ⟨l.1.offset, l.1.ioSize, l.1.ioSize * lbs % 2 ^ 32, recType l⟩
        (LogicalBlock.ofBytes (l.2.take (l.1.ioSize * lbs))))
      rw [hmod]
  · have hn : ¬(indexedRecordOf l).isNormal = true := fun hn => ht ((isNormal_indexedRecordOf l).1 hn)
    rw [if_neg hn, if_neg hn, if_neg ht, if_neg ht]
    refine ⟨IndexedWriter.storable_of_not_normal hfits (exclusive_indexedRecordOf l)
      (eq_false_of_ne_true hn) buf, ?_⟩
    have hrec : toRecord { indexedRecordOf l with dataOffset := 0 } =
        ⟨l.1.offset, l.1.ioSize, 0, recType l⟩ := by
      rw [toRecord]
      change DiffRecord.mk l.1.offset l.1.ioSize (if (indexedRecordOf l).isNormal = true then _
        else 0) (indexedRecordOf l).type = _
      rw [if_neg hn, htype]
    rw [IndexedRecord.ioOf, recIo, ofBuf, hrec, DiffRecord.isNormal, if_neg (by simpa using ht)]

theorem inRange_stored (h : Convertible devSize l) (hpad : l.1.isPadding = false) (buf : Bytes) :
    DiffRedo.InRange devSize ((callOf l buf).stored Z).1 := by
  have hrange : DiffRedo.InRange devSize (indexedRecordOf l) := ⟨h.end_le hpad, h.size_lt hpad⟩
  rw [callOf, Call.stored]
  split_ifs
  · exact hrange
  · exact hrange
  · exact ⟨hrange.end_le, hrange.size_lt⟩

theorem length_added (hZ : Z.Lawful) (l : WlogRecord × Bytes) {buf : Bytes}
    (hbuf : l.1.hasData = true → buf = l.2)
    (hexist : l.1.isExist = true) : ((callOf l buf).added Z).length ≤ l.2.length := by
  have hcompressed : (indexedRecordOf l).isCompressed = false := rfl
  rw [Call.added, callOf, Call.stored]
  by_cases hn : (indexedRecordOf l).isNormal = true
  · have ht := (isNormal_indexedRecordOf l).1 hn
    have hd := not_discard_of_recType (by rw [ht]; decide)
    obtain rfl := hbuf (by rw [WlogRecord.hasData, hexist, hd]; rfl)
    have hspec := compressData_spec hZ (l.2.take ((indexedRecordOf l).ioBlocks * lbs % 2 ^ 32))
      WALB_DIFF_CMPR_SNAPPY 0
    rw [if_neg (by rw [hn]; decide), if_neg (by rw [hcompressed]; decide)]
    generalize compressData Z (l.2.take ((indexedRecordOf l).ioBlocks * lbs % 2 ^ 32))
      WALB_DIFF_CMPR_SNAPPY 0 = out at hspec
    obtain ⟨t, out⟩ := out
    have hle := hspec.length_le
    dsimp only at hle ⊢
    rw [List.length_take] at hle
    rw [Call.addedBytes]
    split_ifs
    · rw [List.length_take]
      omega
    · exact Nat.zero_le _
  · rw [if_pos (eq_false_of_ne_true hn)]
    dsimp only
    rw [Call.addedBytes, if_neg hn]
    exact Nat.zero_le _

theorem keeps_indexed (hZ : Z.Lawful) (hdev : devSize < 2 ^ 55) (uuid : Bytes) :
    Keeps (IndexedDiffConverter.sink Z) uuid (Convertible devSize) (InFile Z devSize uuid) where
  uuid h := by
    change DiffFileHeader.uuid _ = uuid
    rw [h.wdiffH]
    rfl
  put {logs s l} h hl buf hbuf := by
    cases hpad : l.1.isPadding with
    | true =>
        have hnone : ioOfLog l = none := if_pos hpad
        have hconv : convertLogToIndexedDiff l.1 buf = none := if_pos hpad
        obtain ⟨calls, hwritten, hios, hlen⟩ := h.calls
        refine ⟨buf, s, ?_, h.wdiffH, ⟨calls, hwritten, ?_, ?_⟩, h.inRange⟩
        · change IndexedDiffConverter.put Z l.1 buf s = _
          rw [IndexedDiffConverter.put, hconv]
        · rw [hios, List.filterMap_append, List.filterMap_cons, hnone, List.filterMap_nil,
            List.append_nil]
        · rw [List.map_append, List.sum_append]
          exact hlen.trans (Nat.le_add_right _ _)
    | false =>
        obtain ⟨calls, hwritten, hios, hlen⟩ := h.calls
        obtain ⟨hvalid, hio⟩ := @callOf_spec Z devSize l hl hdev hpad buf hbuf
        obtain ⟨w', hrun, hwritten'⟩ := hwritten.call hZ hvalid
        have hadded := length_added hZ l hbuf hl.exist
        refine ⟨buf, { s with writer := w' }, ?_, h.wdiffH,
          ⟨calls ++ [callOf l buf], hwritten', ?_, ?_⟩, ?_⟩
        · have hrun' : s.writer.compressAndWriteDiff Z (indexedRecordOf l) buf
            WALB_DIFF_CMPR_SNAPPY 0 = .ok w' := hrun
          change IndexedDiffConverter.put Z l.1 buf s = _
          rw [IndexedDiffConverter.put, convertLogToIndexedDiff_eq hl hpad hbuf]
          dsimp only
          rw [hrun']
        · rw [List.map_append, hios, List.filterMap_append, List.filterMap_cons, hio, List.filterMap_nil]
          rfl
        · rw [List.flatMap_append, List.flatMap_singleton, List.length_append, List.map_append,
            List.sum_append, List.map_singleton,
            List.sum_singleton]
          omega
        · exact DiffRedo.InRange.call hwritten hZ hvalid (inRange_stored hl hpad buf) h.inRange hrun

theorem sum_zip_le (recs : List WlogRecord) (ios : List Bytes) :
    ((recs.zip ios).map fun l => l.2.length).sum ≤ ios.flatten.length := by
  induction recs generalizing ios with
  | nil => exact Nat.zero_le _
  | cons r recs ih =>
      cases ios with
      | nil => exact Nat.zero_le _
      | cons io ios =>
          rw [List.zip_cons_cons, List.map_cons, List.sum_cons, List.flatten_cons, List.length_append]
          exact Nat.add_le_add_left (ih ios) _

theorem sum_records_le (ls : List Wlog) : ((records ls).map fun l => l.2.length).sum ≤
    (ls.flatMap Wlog.bytes).length := by
  have hpacks : ∀ packs : List Pack, ((logsOf packs).map fun l => l.2.length).sum ≤
      (packsBytes packs).length := by
    intro packs
    induction packs with
    | nil => exact Nat.zero_le _
    | cons p packs ih =>
        have hone : ((p.header.records.zip p.ios).map fun l => l.2.length).sum ≤
            (packBytes p).length := by
          rw [packBytes]
          split_ifs with hn
          · rw [List.eq_nil_of_length_eq_zero ((length_records p.header).trans hn)]
            exact Nat.zero_le _
          · rw [List.length_append]
            exact (sum_zip_le _ _).trans (Nat.le_add_left _ _)
        rw [logsOf, List.flatMap_cons, List.map_append, List.sum_append, packsBytes,
          List.flatMap_cons, List.length_append]
        exact Nat.add_le_add hone ih
  induction ls with
  | nil => exact Nat.zero_le _
  | cons l ls ih =>
      have hone := hpacks l.packs
      rw [records, List.flatMap_cons, List.map_append, List.sum_append, List.flatMap_cons,
        List.length_append, Wlog.bytes, List.length_append,
        List.length_append]
      rw [records] at ih
      omega

/-- The same of an indexed diff for input below 2^63 bytes, also where the data of a log does
not fill its physical blocks. -/
theorem indexed_diff_redoes_log (hZ : Z.Lawful) (maxIoBlocks : Nat) {l : Wlog} {ls : List Wlog}
    (hl : ∀ l', l' ∈ l :: ls → l'.Finished)
    (hc : Chained (uuidOf l.header) l.header.beginLsid (l :: ls)) {junk : Bytes}
    (hjunk : junk.length < WALBLOG_HEADER_SIZE)
    (hsize : ((l :: ls).flatMap Wlog.bytes).length < 2 ^ 63) (hdev : devSize < 2 ^ 55)
    (hon : ∀ x, x ∈ records (l :: ls) → x.1.isPadding = false →
      (x.1.offset + x.1.ioSize) * lbs ≤ devSize ∧ x.1.ioSize < 2 ^ 23)
    {cfg : WlogRedo.WlogRedoConfig} (hcfg : cfg.isDiscard = false ∧ cfg.isZeroDiscard = true) :
    ∃ file e, IndexedDiffConverter.convert Z maxIoBlocks ((l :: ls).flatMap Wlog.bytes ++ junk) =
      .ok file ∧
      DiffRedo.run Z ⟨false, true⟩ devSize file = .ok e ∧
        ∀ discarded device, DeviceIo.applyAll discarded device e.issued =
          WlogRedo.replay discarded cfg devSize device (records (l :: ls)) := by
  have hlogs := convertible_of_finished hl hdev hon
  have hheader := fits_header l
  have hnone : ∀ c : Call, c ∈ [] → c.Valid Z := fun _ hc => absurd hc List.not_mem_nil
  obtain ⟨w, hwrite, hwritten⟩ := IndexedWriter.write_spec hZ maxIoBlocks hheader hnone
  have hstart : (IndexedDiffConverter.sink Z).start (uuidOf l.header) ⟨.setFile maxIoBlocks, .init⟩ =
      .ok ⟨w, indexedHeader (DiffFileHeader.init.setUuid (uuidOf l.header))⟩ := by
    cases hwrite
    rfl
  have hempty : w.index = [] := by
    cases hwrite
    rfl
  have hbegin : InFile Z devSize (uuidOf l.header) [] ⟨w,
      indexedHeader (DiffFileHeader.init.setUuid (uuidOf l.header))⟩ := by
    refine ⟨rfl, ⟨[], hwritten, rfl, Nat.zero_le _⟩, fun p hp => ?_⟩
    dsimp only at hp
    rw [hempty] at hp
    exact absurd hp List.not_mem_nil
  obtain ⟨lsid, s, hrun, hs⟩ :=
    (keeps_indexed hZ hdev (uuidOf l.header)).run hl hc hlogs hjunk hstart hbegin
  obtain ⟨calls, hcalls, hios, hlen⟩ := hs.calls
  have hfile : s.writer.fileW.length + 8 ≤ 2 ^ 64 := by
    have hheaderSize : DiffFileHeader.size = 32 := rfl
    have hsum := sum_records_le (l :: ls)
    rw [IndexedReader.length_file hcalls hheader]
    omega
  obtain ⟨e, hredo, himage⟩ :=
    DiffRedo.run_indexed hheader (hdev.trans (by decide)) hcalls hfile hs.inRange
  refine ⟨s.writer.finalize.fileW, e, ?_, hredo, fun discarded device => ?_⟩
  · rw [IndexedDiffConverter.convert, hrun]
    rfl
  · rw [himage, hios, replay_eq hdev hlogs hcfg]

theorem indexed_diff_redoes_log_two : ∃ (l : Wlog) (zeros file : Bytes)
    (e : DiffRedo.SimpleDiffIoExecutor),
    records [l] = [(⟨0, 5, 0, 8, 1, 8⟩, []), (⟨0, 1, 8, 8, 1, 8⟩, zeros)] ∧
      IndexedDiffConverter.convert .declining 4 ([l].flatMap Wlog.bytes ++ [1, 2]) = .ok file ∧
        DiffRedo.run .declining ⟨false, true⟩ (2 ^ 20) file = .ok e ∧
          ∀ discarded device, DeviceIo.applyAll discarded device e.issued =
            WlogRedo.replay discarded zeroConfig (2 ^ 20) device (records [l]) := by
  obtain ⟨l, zeros, hl, -, hsize, hrecords⟩ := exists_wlog
  have hon : ∀ x, x ∈ records [l] → x.1.isPadding = false →
      (x.1.offset + x.1.ioSize) * lbs ≤ 2 ^ 20 ∧ x.1.ioSize < 2 ^ 23 := by
    rw [hrecords]
    simp only [List.forall_mem_cons, List.not_mem_nil, false_implies, implies_true, and_true]
    exact ⟨fun _ => by decide, fun _ => by decide⟩
  have hbytes : ([l].flatMap Wlog.bytes).length < 2 ^ 63 := by
    rw [List.flatMap_singleton]
    omega
  obtain ⟨file, e, hfile, hredo, himage⟩ :=
    @indexed_diff_redoes_log .declining (2 ^ 20) Codecs.lawful_declining 4 l []
    (List.forall_mem_singleton.2 hl) ⟨rfl, rfl, trivial⟩ [1, 2] (by decide) hbytes (by decide) hon
      zeroConfig ⟨rfl, rfl⟩
  exact ⟨l, zeros, file, e, hrecords, hfile, hredo, himage⟩

end

end WalbTools.WlogConvert
