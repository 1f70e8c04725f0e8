import WalbTools.IndexedWriter

namespace WalbTools.IndexedReader

open Overlay ByteMemory DiffIo DiffMem DiffPack Compression Layout Checksum DiffHeader IndexedRecord
  IndexedWriter
open IndexedDiffRecord (updateRecChecksum)
open IndexedDiffWriter (padding finalize)
open Queue (calcChecksum)

/-- Cached data under the reader and the offset they were read at, the last used
first; `map_` finds the items of `lruList`. -/
structure IndexedDiffCache where
  maxBytes : Nat
  lruList : List ((Nat × Nat) × Bytes)

namespace IndexedDiffCache

def curBytes (cache : IndexedDiffCache) : Nat := (cache.lruList.map fun item => item.2.length).sum

def lookup (cache : IndexedDiffCache) (key : Nat × Nat) : Option ((Nat × Nat) × Bytes) :=
  cache.lruList.find? fun item => decide (item.1 = key)

def find (cache : IndexedDiffCache) (key : Nat × Nat) : Option Bytes × IndexedDiffCache :=
  match cache.lookup key with
  | none => (none, cache)
  | some item =>
      (some item.2, { cache with
        lruList := item :: cache.lruList.eraseP fun item => decide (item.1 = key) })

def evictOne (cache : IndexedDiffCache) : IndexedDiffCache :=
  { cache with lruList := cache.lruList.dropLast }

def evict : Nat → IndexedDiffCache → IndexedDiffCache
  | 0, cache => cache
  | fuel + 1, cache =>
      if cache.maxBytes < cache.curBytes ∧ 1 < cache.lruList.length then evict fuel cache.evictOne
        else cache

def add (cache : IndexedDiffCache) (key : Nat × Nat) (data : Bytes) : Except String IndexedDiffCache :=
  if (cache.lookup key).isSome then .error "already in cache"
  else .ok (evict (cache.lruList.length + 1) { cache with lruList := (key, data) :: cache.lruList })

end IndexedDiffCache

structure IndexedDiffReader where
  memFile : Bytes
  header : DiffFileHeader
  idxBgnOffset : Nat
  idxEndOffset : Nat
  idxOffset : Nat

namespace IndexedDiffReader

def setFile (memFile : Bytes) : Except String IndexedDiffReader :=
  match DiffFileHeader.readFrom memFile with
  | .error e => .error e
  | .ok (header, _) =>
      if header.type ≠ WALB_DIFF_TYPE_INDEXED then .error "Not indexed diff file"
      else
        let idxEndOffset := memFile.length - DiffIndexSuper.size
        let raw := (memFile.drop idxEndOffset).take DiffIndexSuper.size
        match DiffIndexSuper.verify raw with
        | .error e => .error e
        | .ok () =>
            let super := DiffIndexSuper.ofBytes raw
            .ok ⟨memFile, header, super.indexOffset, idxEndOffset, super.indexOffset⟩

def getNextRec (reader : IndexedDiffReader) : Option (IndexedDiffRecord × Bytes × IndexedDiffReader) :=
  if reader.idxEndOffset ≤ reader.idxOffset then none
  else
    let raw := (reader.memFile.drop reader.idxOffset).take IndexedDiffRecord.size
    some (IndexedDiffRecord.ofBytes raw, raw, { reader with
      idxOffset := reader.idxOffset + IndexedDiffRecord.size })

def readDiffRecord (reader : IndexedDiffReader) :
    Except String (Option (IndexedDiffRecord × IndexedDiffReader)) :=
  match reader.getNextRec with
  | none => .ok none
  | some (rec, raw, reader) =>
      match IndexedDiffRecord.verify raw rec with
      | .error e => .error e
      | .ok () => .ok (some (rec, reader))

section

variable (Z : Codecs) (tag : Nat)

def loadToCache (reader : IndexedDiffReader) (cache : IndexedDiffCache) (rec : IndexedDiffRecord) :
    Except String IndexedDiffCache :=
  if calcChecksum (region reader.memFile rec) 0 ≠ rec.ioChecksum then .error "IO data invalid"
  else
    match imageOf Z reader.memFile rec with
    | .error e => .error e
    | .ok image => cache.add (tag, rec.dataOffset) image

/-- The data of a record; they are left as they were where the record has none. -/
def readDiffIo (reader : IndexedDiffReader) (cache : IndexedDiffCache) (rec : IndexedDiffRecord)
    (data : Bytes) :
    Except String (Bytes × IndexedDiffCache) :=
  if rec.isNormal = false then .ok (data, cache)
  else
    match cache.find (tag, rec.dataOffset) with
    | (some ary, cache) => .ok (sliceOf rec ary, cache)
    | (none, cache) =>
        match reader.loadToCache Z tag cache rec with
        | .error e => .error e
        | .ok cache =>
            match cache.find (tag, rec.dataOffset) with
            | (some ary, cache) => .ok (sliceOf rec ary, cache)
            | (none, _) => .error "nullptr"

def readDiff (reader : IndexedDiffReader) (cache : IndexedDiffCache) (data : Bytes) :
    Except String (Option (IndexedDiffRecord × Bytes × IndexedDiffReader × IndexedDiffCache)) :=
  match reader.readDiffRecord with
  | .error e => .error e
  | .ok none => .ok none
  | .ok (some (rec, reader)) =>
      match reader.readDiffIo Z tag cache rec data with
      | .error e => .error e
      | .ok (data, cache) => .ok (some (rec, data, reader, cache))

def readLoop : Nat → IndexedDiffReader → IndexedDiffCache → Bytes →
    Except String (List (IndexedDiffRecord × Bytes))
  | 0, _, _, _ => .error "fuel"
  | fuel + 1, reader, cache, data =>
      match reader.readDiff Z tag cache data with
      | .error e => .error e
      | .ok none => .ok []
      | .ok (some (rec, data, reader, cache)) =>
          match readLoop fuel reader cache data with
          | .error e => .error e
          | .ok rest => .ok ((rec, data) :: rest)

def readAll (reader : IndexedDiffReader) (cache : IndexedDiffCache) (data : Bytes) :
    Except String (List (IndexedDiffRecord × Bytes)) :=
  readLoop Z tag (reader.memFile.length + 1) reader cache data

end

end IndexedDiffReader

open IndexedDiffReader

variable {Z : Codecs} {tag : Nat} {file : Bytes} {index rs : List IndexedDiffRecord}
  {cache : IndexedDiffCache} {r : IndexedDiffRecord}

/-- The cached data of the reader are those of its file's records. -/
def Right (Z : Codecs) (tag : Nat) (file : Bytes) (index : List IndexedDiffRecord)
    (cache : IndexedDiffCache) : Prop :=
  ∀ item, item ∈ cache.lruList → item.1.1 = tag →
    ∀ r, r ∈ index → r.isNormal = true → r.dataOffset = item.1.2 → imageOf Z file r = .ok item.2

theorem Right.mono {cache' : IndexedDiffCache} (h : Right Z tag file index cache)
    (hs : ∀ item, item ∈ cache'.lruList → item ∈ cache.lruList) : Right Z tag file index cache' :=
  fun item hi => h item (hs item hi)

theorem find_spec (key : Nat × Nat) :
    (cache.find key = (none, cache) ∧ cache.lookup key = none) ∨
      ∃ data cache', cache.find key = (some data, cache') ∧ (key, data) ∈ cache.lruList ∧
        ∀ item, item ∈ cache'.lruList → item ∈ cache.lruList := by
  rw [IndexedDiffCache.find]
  cases hl : cache.lookup key with
  | none => exact .inl ⟨rfl, rfl⟩
  | some item =>
      have hfind : cache.lruList.find? (fun item => decide (item.1 = key)) = some item := hl
      have hkey : item.1 = key := by simpa using List.find?_some hfind
      have hmem := List.mem_of_find?_eq_some hfind
      refine .inr ⟨item.2, _, rfl, by rw [← hkey]; exact hmem, ?_⟩
      intro i hi
      rcases List.mem_cons.1 hi with rfl | hi
      · exact hmem
      · exact List.mem_of_mem_eraseP hi

theorem evict_spec (fuel : Nat) {item : (Nat × Nat) × Bytes} {rest : List ((Nat × Nat) × Bytes)}
    (h : cache.lruList = item :: rest) :
    ∃ rest', (IndexedDiffCache.evict fuel cache).lruList = item :: rest' ∧ ∀ i, i ∈ rest' →
      i ∈ rest := by
  induction fuel generalizing cache rest with
  | zero => exact ⟨rest, h, fun _ hi => hi⟩
  | succ fuel ih =>
      rw [IndexedDiffCache.evict]
      split_ifs with hc
      · cases rest with
        | nil =>
            rw [h] at hc
            exact absurd hc.2 (lt_irrefl 1)
        | cons i rest =>
            have hdrop : cache.evictOne.lruList = item :: (i :: rest).dropLast := by
              rw [IndexedDiffCache.evictOne, h]
              rfl
            obtain ⟨rest', he, hsub⟩ := ih hdrop
            exact ⟨rest', he, fun j hj => List.mem_of_mem_dropLast (hsub j hj)⟩
      · exact ⟨rest, h, fun _ hi => hi⟩

theorem add_spec {key : Nat × Nat} (hl : cache.lookup key = none) (data : Bytes) :
    ∃ cache', cache.add key data = .ok cache' ∧ cache'.lookup key = some (key, data) ∧
      ∀ item, item ∈ cache'.lruList → item = (key, data) ∨ item ∈ cache.lruList := by
  rw [IndexedDiffCache.add, hl, if_neg (by decide)]
  obtain ⟨rest, he, hsub⟩ := @evict_spec { cache with lruList := (key, data) :: cache.lruList }
    (cache.lruList.length + 1) _ _ rfl
  refine ⟨_, rfl, ?_, fun item hi => ?_⟩
  · rw [IndexedDiffCache.lookup, he, List.find?_cons_of_pos (by simp)]
  · rw [he] at hi
    rcases List.mem_cons.1 hi with rfl | hi
    · exact .inl rfl
    · exact .inr (hsub item hi)

theorem loadToCache_spec {reader : IndexedDiffReader} (hf : reader.memFile = file)
    (hs : Stored Z file index)
    (hr : r ∈ index) (hn : r.isNormal = true) (hc : Right Z tag file index cache)
    (hl : cache.lookup (tag, r.dataOffset) = none) {image : Bytes} (hi : imageOf Z file r = .ok image) :
    ∃ cache', reader.loadToCache Z tag cache r = .ok cache' ∧
      cache'.lookup (tag, r.dataOffset) = some ((tag, r.dataOffset), image) ∧
      Right Z tag file index cache' := by
  obtain ⟨cache', hadd, hlook, hsub⟩ := add_spec hl image
  refine ⟨cache', ?_, hlook, fun item hitem htag p hp hpn hoff => ?_⟩
  · rw [loadToCache, hf, if_neg (not_not.2 ((hs.good r hr).checksum hn)), hi]
    exact hadd
  · rcases hsub item hitem with rfl | hitem
    · rw [hs.same p hp r hr hpn hn hoff, hi]
    · exact hc item hitem htag p hp hpn hoff

theorem find_of_lookup {key : Nat × Nat} {data : Bytes} (h : cache.lookup key = some (key, data)) :
    ∃ cache', cache.find key = (some data, cache') ∧ ∀ item, item ∈ cache'.lruList →
      item ∈ cache.lruList := by
  rcases @find_spec cache key with ⟨-, hn⟩ | ⟨data', cache', hfind, -, hsub⟩
  · rw [h] at hn
    cases hn
  · rw [IndexedDiffCache.find, h] at hfind
    cases hfind
    exact ⟨_, by rw [IndexedDiffCache.find, h], hsub⟩

/-- A normal record gets its slice of the stored data, from the cache or not. -/
theorem readDiffIo_spec {reader : IndexedDiffReader} (hf : reader.memFile = file)
    (hs : Stored Z file index)
    (hr : r ∈ index) (hc : Right Z tag file index cache) (data : Bytes) :
    ∃ data' cache', reader.readDiffIo Z tag cache r data = .ok (data', cache') ∧
      Right Z tag file index cache' ∧
      (r.isNormal = true → ∃ image, imageOf Z file r = .ok image ∧ data' = sliceOf r image) := by
  rw [readDiffIo]
  cases hn : r.isNormal with
  | false => exact ⟨data, cache, if_pos rfl, hc, nofun⟩
  | true =>
      rw [if_neg Bool.true_eq_false_eq_False]
      obtain ⟨image, hi⟩ := (hs.good r hr).image hn
      rcases @find_spec cache (tag, r.dataOffset) with ⟨hfind, hl⟩ | ⟨ary, cache', hfind, hmem, hsub⟩
      · obtain ⟨cache₁, hload, hlook, hright⟩ := loadToCache_spec hf hs hr hn hc hl hi
        obtain ⟨cache₂, hfind₂, hsub⟩ := find_of_lookup hlook
        refine ⟨sliceOf r image, cache₂, ?_, hright.mono hsub, fun _ => ⟨image, hi, rfl⟩⟩
        rw [hfind]
        dsimp only
        rw [hload]
        dsimp only
        rw [hfind₂]
      · refine ⟨sliceOf r ary, cache', ?_, hc.mono hsub, fun _ => ⟨ary, hc _ hmem rfl r hr hn rfl, rfl⟩⟩
        rw [hfind]

structure Reads (Z : Codecs) (file : Bytes) (r : IndexedDiffRecord)
    (read : IndexedDiffRecord × Bytes) : Prop where
  record : read.1 = r
  data : r.isNormal = true → ∃ image, imageOf Z file r = .ok image ∧ read.2 = sliceOf r image

theorem Reads.recIo_eq {read : IndexedDiffRecord × Bytes} (h : Reads Z file r read) :
    recIo read.1 read.2 = ioOf Z file r := by
  rw [h.record, ioOf]
  cases hn : r.isNormal with
  | false =>
      rw [recIo, recIo, DiffMem.ofBuf, DiffMem.ofBuf, isNormal_toRecord, hn]
      rfl
  | true =>
      obtain ⟨image, hi, hd⟩ := h.data hn
      rw [hi, hd]
      rfl

/-- The reader stands before the records `rs`, and the super block is behind them. -/
structure At (file : Bytes) (rs : List IndexedDiffRecord) (reader : IndexedDiffReader) : Prop where
  memFile : reader.memFile = file
  rest : ∃ tail, file.drop reader.idxOffset = rs.flatMap IndexedDiffRecord.toBytes ++ tail
  idxEnd : reader.idxEndOffset = reader.idxOffset + IndexedDiffRecord.size * rs.length

theorem readDiffRecord_nil {reader : IndexedDiffReader} (h : At file [] reader) :
    reader.readDiffRecord = .ok none := by
  have hend : reader.idxEndOffset ≤ reader.idxOffset := h.idxEnd.le
  rw [readDiffRecord, getNextRec, if_pos hend]

theorem readDiffRecord_cons {reader : IndexedDiffReader} (h : At file (r :: rs) reader)
    (hs : Stored Z file index) (hr : r ∈ index)
    (hoff : r.dataOffset < 2 ^ 64) : ∃ reader', reader.readDiffRecord = .ok (some (r, reader')) ∧
      At file rs reader' := by
  obtain ⟨tail, hrest⟩ := h.rest
  rw [List.flatMap_cons, List.append_assoc] at hrest
  have hlen : r.toBytes.length = IndexedDiffRecord.size := length_toBytes
  have hsound := hs.sound r hr
  have hgood := hs.good r hr
  have hend := h.idxEnd
  have hpos : 0 < IndexedDiffRecord.size := by decide
  rw [List.length_cons, Nat.mul_succ] at hend
  have hraw : (reader.memFile.drop reader.idxOffset).take IndexedDiffRecord.size = r.toBytes := by
    rw [h.memFile, hrest, List.take_left' hlen]
  have hof : IndexedDiffRecord.ofBytes r.toBytes = r := by
    have hof := (hs.fits r hr).ofBytes_toBytes hoff hsound []
    rwa [List.append_nil] at hof
  refine ⟨{ reader with idxOffset := reader.idxOffset + IndexedDiffRecord.size }, ?_, h.memFile,
    ⟨tail, ?_⟩, ?_⟩
  · rw [readDiffRecord, getNextRec, if_neg (by omega)]
    dsimp only
    rw [hraw, hof, verify_toBytes hgood.exclusive hgood.cmpr (hs.wf.aligned r hr).pos hsound]
  · rw [← List.drop_drop, hrest, List.drop_left' hlen]
  · change reader.idxEndOffset = reader.idxOffset + IndexedDiffRecord.size +
      IndexedDiffRecord.size * rs.length
    omega

theorem readLoop_spec {reader : IndexedDiffReader} (h : At file rs reader)
    (hs : Stored Z file index) (hrs : ∀ r, r ∈ rs → r ∈ index)
    (hoff : ∀ r, r ∈ index → r.dataOffset < 2 ^ 64) (hc : Right Z tag file index cache) {fuel : Nat}
    (hfuel : rs.length < fuel) (data : Bytes) :
    ∃ reads, readLoop Z tag fuel reader cache data = .ok reads ∧
      List.Forall₂ (Reads Z file) rs reads := by
  induction rs generalizing reader cache data fuel with
  | nil =>
      cases fuel with
      | zero => exact absurd hfuel (Nat.not_lt_zero _)
      | succ fuel =>
          refine ⟨[], ?_, .nil⟩
          rw [readLoop, readDiff, readDiffRecord_nil h]
  | cons r rs ih =>
      cases fuel with
      | zero => exact absurd hfuel (Nat.not_lt_zero _)
      | succ fuel =>
          obtain ⟨hr, hrs⟩ := List.forall_mem_cons.1 hrs
          obtain ⟨reader', hrec, h'⟩ := readDiffRecord_cons h hs hr (hoff r hr)
          obtain ⟨data', cache', hio, hc', hdata⟩ := readDiffIo_spec h'.memFile hs hr hc data
          obtain ⟨reads, hloop, hreads⟩ := ih h' hrs hc' (Nat.lt_of_succ_lt_succ hfuel) data'
          refine ⟨(r, data') :: reads, ?_, .cons ⟨rfl, hdata⟩ hreads⟩
          rw [readLoop, readDiff, hrec]
          dsimp only
          rw [hio]
          dsimp only
          rw [hloop]

namespace Call

def isNormal : Call → Bool
  | .writeDiff rec _ => rec.isNormal
  | .compressAndWriteDiff rec _ _ _ => rec.isNormal

end Call

def superOf (file : Bytes) : DiffIndexSuper :=
  DiffIndexSuper.ofBytes (file.drop (file.length - DiffIndexSuper.size))

/-- What a file of `calls` says, the counts of the super block aside. -/
structure Opened (Z : Codecs) (fileH : DiffFileHeader) (calls : List Call) (file : Bytes)
    (reader : IndexedDiffReader)
    (reads : List (IndexedDiffRecord × Bytes)) : Prop where
  header : reader.header = indexedHeader fileH
  index : Index (reads.map Prod.fst)
  recChecksum : ∀ r, r ∈ reads.map Prod.fst → calcChecksum r.toBytes 0 = 0
  good : ∀ r, r ∈ reads.map Prod.fst → Good Z file r
  content : content (reads.map fun read => recIo read.1 read.2) = content (calls.map (Call.io Z))
  superChecksum : calcChecksum (file.drop (file.length - DiffIndexSuper.size)) 0 = 0
  indexOffset : (superOf file).indexOffset = reader.idxBgnOffset
  aligned : reader.idxBgnOffset % 8 = 0
  layout : ∃ pad, pad < 8 ∧ file.take reader.idxBgnOffset =
    (indexedHeader fileH).toBytes ++ calls.flatMap (Call.added Z) ++ List.replicate pad 0
  records : (file.drop reader.idxBgnOffset).take (IndexedDiffRecord.size * reads.length) =
    (reads.map Prod.fst).flatMap IndexedDiffRecord.toBytes
  fileSize : file.length = reader.idxBgnOffset + IndexedDiffRecord.size * reads.length +
    DiffIndexSuper.size

/-- The super block counts the index records and the stored images. -/
structure Counted (calls : List Call) (file : Bytes) (reads : List (IndexedDiffRecord × Bytes)) :
    Prop where
  nRecords : (superOf file).nRecords = reads.length
  nData : (superOf file).nData = calls.countP Call.isNormal

theorem length_super (s : DiffIndexSuper) : s.toBytes.length = DiffIndexSuper.size := by
  rw [DiffIndexSuper.toBytes, length_sealed, length_layout]
  rfl

theorem super_checksum (s : DiffIndexSuper) : calcChecksum s.toBytes 0 = 0 := by
  have hlen : (layout [(8, s.indexOffset), (4, s.nRecords), (4, s.nData), (4, 0)]).length = 20 :=
    length_layout
  exact calcChecksum_sealed (by rw [hlen])

theorem layout_mod (fs : List (Nat × Nat)) :
    layout fs = layout (fs.map fun f => (f.1, f.2 % 256 ^ f.1)) := by
  induction fs with
  | nil => rfl
  | cons f fs ih =>
      have hmod : toLE f.1 f.2 = toLE f.1 (f.2 % 256 ^ f.1) := by
        have h := toLE_ofLE (toLE f.1 f.2)
        rw [length_toLE, ofLE_toLE] at h
        exact h.symm
      rw [List.map_cons, layout_cons, layout_cons, ← hmod, ← ih]

theorem super_ofBytes (s : DiffIndexSuper) :
    DiffIndexSuper.ofBytes s.toBytes = ⟨s.indexOffset % 2 ^ 64, s.nRecords % 2 ^ 32,
      s.nData % 2 ^ 32⟩ := by
  have hfit : Fit [(8, s.indexOffset % 2 ^ 64), (4, s.nRecords % 2 ^ 32), (4, s.nData % 2 ^ 32)] := by
    simp only [Fit, List.forall_mem_cons]
    exact ⟨Nat.mod_lt _ (by decide), Nat.mod_lt _ (by decide), Nat.mod_lt _ (by decide),
      fun _ h => absurd h List.not_mem_nil⟩
  have hbytes : ∃ rest, s.toBytes = layout [(8, s.indexOffset % 2 ^ 64), (4, s.nRecords % 2 ^ 32),
      (4, s.nData % 2 ^ 32)] ++ rest := by
    refine ⟨layout [(4, 0)] ++ toLE 4 (calcChecksum (layout [(8, s.indexOffset), (4, s.nRecords),
      (4, s.nData), (4, 0)] ++ toLE 4 0 ++ []) 0), ?_⟩
    rw [DiffIndexSuper.toBytes, sealed, List.append_nil, ← List.append_assoc, ← layout_append,
      layout_mod [(8, s.indexOffset), (4, s.nRecords), (4, s.nData), (4, 0)]]
    rfl
  obtain ⟨rest, hbytes⟩ := hbytes
  have hfields := fields_layout _ hfit rest
  rw [← hbytes] at hfields
  change fields [8, 4, 4] s.toBytes = _ at hfields
  rw [DiffIndexSuper.ofBytes, hfields]
  rfl

theorem length_indexBytes (index : List IndexedDiffRecord) :
    (index.flatMap IndexedDiffRecord.toBytes).length = IndexedDiffRecord.size * index.length := by
  induction index with
  | nil => rfl
  | cons r index ih =>
      have hlen : r.toBytes.length = IndexedDiffRecord.size := length_toBytes
      rw [List.flatMap_cons, List.length_append, hlen, ih, List.length_cons, Nat.mul_succ, Nat.add_comm]

theorem padding_spec (offset : Nat) : padding offset < 8 ∧ (offset + padding offset) % 8 = 0 := by
  rw [padding]
  split_ifs <;> omega

structure Parted (Z : Codecs) (header : DiffFileHeader) (calls : List Call)
    (index : List IndexedDiffRecord) (file body : Bytes)
    (super : DiffIndexSuper) : Prop where
  file_eq : file = body ++ index.flatMap IndexedDiffRecord.toBytes ++ super.toBytes
  body_eq : ∃ pad, pad < 8 ∧ body = (indexedHeader header).toBytes ++
    calls.flatMap (Call.added Z) ++ List.replicate pad 0
  aligned : body.length % 8 = 0
  lt : body.length < 2 ^ 64
  super_eq : super = ⟨body.length, index.length, calls.length⟩
  stored : Stored Z file index
  place : ∀ r, r ∈ index → r.dataOffset < 2 ^ 64
  content : content (index.map (ioOf Z file)) = content (calls.map (Call.io Z))

variable {header : DiffFileHeader} {calls : List Call} {w : IndexedDiffWriter} {body : Bytes}
  {super : DiffIndexSuper}

theorem parted_of_written (h : Written Z (indexedHeader header).toBytes calls w)
    (hsize : (w.fileW.length : Nat) + 8 ≤ 2 ^ 64) :
    ∃ body super, Parted Z header calls w.index w.finalize.fileW body super := by
  obtain ⟨hpad, halign⟩ := padding_spec w.offset
  have hlen : (w.fileW ++ List.replicate (padding w.offset) 0).length = w.offset + padding w.offset := by
    rw [List.length_append, List.length_replicate, h.offset]
  have hfile : w.finalize.fileW = w.fileW ++ (List.replicate (padding w.offset) 0 ++
      w.index.flatMap IndexedDiffRecord.toBytes ++
        (DiffIndexSuper.mk (w.offset + padding w.offset) w.index.length w.nData).toBytes) := by
    rw [finalize, if_neg (by rw [h.notClosed]; decide), ← List.append_assoc, ← List.append_assoc]
  refine ⟨w.fileW ++ List.replicate (padding w.offset) 0,
    ⟨w.offset + padding w.offset, w.index.length, w.nData⟩, ?_,
    ⟨padding w.offset, hpad, by rw [h.file]⟩,
    by rw [hlen]; exact halign, ?_, by rw [hlen, h.nData], ?_, fun r hr => ?_, ?_⟩
  · rw [hfile, ← List.append_assoc, ← List.append_assoc]
  · rw [hlen, h.offset]
    rw [h.offset] at hpad
    omega
  · rw [hfile]
    exact h.stored.append _
  · exact (h.stored.place r hr).trans_lt (by omega)
  · rw [hfile, content_append_file h.stored.good, h.content]

theorem Parted.length_eq (h : Parted Z header calls index file body super) :
    file.length = body.length + IndexedDiffRecord.size * index.length + DiffIndexSuper.size := by
  rw [h.file_eq, List.length_append, List.length_append, length_indexBytes, length_super]

theorem Parted.drop_super (h : Parted Z header calls index file body super) :
    file.drop (file.length - DiffIndexSuper.size) = super.toBytes := by
  rw [h.length_eq, Nat.add_sub_cancel, h.file_eq, List.drop_left']
  rw [List.length_append, length_indexBytes]

theorem Parted.superOf_eq (h : Parted Z header calls index file body super) :
    superOf file = ⟨body.length, index.length % 2 ^ 32, calls.length % 2 ^ 32⟩ := by
  rw [superOf, h.drop_super, super_ofBytes, h.super_eq, Nat.mod_eq_of_lt h.lt]

theorem Parted.setFile_eq (h : Parted Z header calls index file body super) (hh : header.Fits) :
    setFile file = .ok ⟨file, indexedHeader header, body.length, file.length - DiffIndexSuper.size,
      body.length⟩ := by
  obtain ⟨pad, -, hbody⟩ := h.body_eq
  have hsuper := h.superOf_eq
  have hread : ∃ rest, DiffFileHeader.readFrom file = .ok (indexedHeader header, rest) := by
    rw [h.file_eq, hbody, List.append_assoc, List.append_assoc, List.append_assoc]
    exact ⟨_, DiffFileHeader.readFrom_toBytes (fits_indexedHeader hh) _⟩
  obtain ⟨rest, hread⟩ := hread
  have htake : (file.drop (file.length - DiffIndexSuper.size)).take DiffIndexSuper.size =
      super.toBytes := by
    rw [h.drop_super, List.take_of_length_le (length_super super).le]
  rw [superOf, h.drop_super] at hsuper
  rw [setFile, hread]
  dsimp only
  have htype : (indexedHeader header).type = WALB_DIFF_TYPE_INDEXED := rfl
  rw [if_neg (not_not.2 htype), htake, DiffIndexSuper.verify, super_checksum,
    if_neg (not_not.2 rfl), hsuper]

theorem forall₂_reads {reads : List (IndexedDiffRecord × Bytes)}
    (h : List.Forall₂ (Reads Z file) index reads) :
    reads.map Prod.fst = index ∧ (reads.map fun read => recIo read.1 read.2) =
      index.map (ioOf Z file) := by
  induction h with
  | nil => exact ⟨rfl, rfl⟩
  | cons hr _ ih =>
      rw [List.map_cons, List.map_cons, List.map_cons, ih.1, ih.2, hr.record, ← hr.recIo_eq, hr.record]
      exact ⟨rfl, rfl⟩

/-- Everything of a finished file but the counts, whatever the calls were. -/
theorem Parted.opened (h : Parted Z header calls index file body super) (hh : header.Fits)
    (hc : ∀ item, item ∈ cache.lruList → item.1.1 ≠ tag) :
    ∃ reader reads, setFile file = .ok reader ∧ reader.readAll Z tag cache [] = .ok reads ∧
      Opened Z header calls file reader reads ∧
      reads.length = index.length := by
  have hlen := h.length_eq
  have hdropBody : file.drop body.length = index.flatMap IndexedDiffRecord.toBytes ++ super.toBytes := by
    rw [h.file_eq, List.append_assoc, List.drop_left]
  have hat : At file index ⟨file, indexedHeader header, body.length,
      file.length - DiffIndexSuper.size, body.length⟩ :=
    ⟨rfl, ⟨super.toBytes, hdropBody⟩, by rw [hlen, Nat.add_sub_cancel]⟩
  have hright : Right Z tag file index cache := fun item hi ht => absurd ht (hc item hi)
  have hfuel : index.length < file.length + 1 := by
    have hsize : IndexedDiffRecord.size = 48 := rfl
    rw [hsize] at hlen
    omega
  obtain ⟨reads, hloop, hreads⟩ := readLoop_spec hat h.stored (fun _ hr => hr) h.place hright hfuel []
  obtain ⟨hfst, hio⟩ := forall₂_reads hreads
  have hlength : reads.length = index.length := by rw [← hfst, List.length_map]
  refine ⟨_, reads, h.setFile_eq hh, hloop, ⟨rfl, ?_, ?_, ?_, ?_, ?_, ?_, h.aligned, ?_, ?_, ?_⟩,
    hlength⟩
  · rw [hfst]
    exact h.stored.wf
  · rw [hfst]
    exact fun r hr => calcChecksum_toBytes (h.stored.sound r hr)
  · rw [hfst]
    exact h.stored.good
  · rw [hio, h.content]
  · rw [h.drop_super]
    exact super_checksum super
  · rw [h.superOf_eq]
  · obtain ⟨pad, hpad, hbody⟩ := h.body_eq
    refine ⟨pad, hpad, ?_⟩
    rw [← hbody]
    change file.take body.length = body
    rw [h.file_eq, List.append_assoc, List.take_left]
  · change (file.drop body.length).take (IndexedDiffRecord.size * reads.length) = _
    rw [hdropBody, hfst, hlength, List.take_left' (length_indexBytes index)]
  · rw [hlength]
    exact hlen

theorem length_file (h : Written Z (indexedHeader header).toBytes calls w) (hh : header.Fits) :
    w.fileW.length = DiffFileHeader.size + (calls.flatMap (Call.added Z)).length := by
  rw [h.file, List.length_append, DiffFileHeader.length_toBytes (fits_indexedHeader hh)]

def noCache : IndexedDiffCache := ⟨0, []⟩

end WalbTools.IndexedReader
