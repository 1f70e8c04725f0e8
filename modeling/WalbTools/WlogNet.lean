import WalbTools.Compression
import WalbTools.LogPack

namespace WalbTools.WlogNet

open ByteMemory LogPack
open Compression (Codecs)
open DiffIo (lbs)
open DiffPack (WALB_DIFF_CMPR_SNAPPY)
open Queue (calcChecksum Fault)

/-- Sizes are `uint32_t`; `cmpSize` 0 means not compressed. -/
structure CompressedData where
  cmpSize : Nat
  orgSize : Nat
  data : Bytes

section Data

variable (Z : Codecs)

def compressToVec (data : Bytes) : Bool × Bytes :=
  match Z.compress WALB_DIFF_CMPR_SNAPPY 0 data with
  | some enc => if enc.length < data.length then (true, enc) else (false, data)
  | none => (false, data)

def uncompressToVec (data : Bytes) (outSize : Nat) : Except String Bytes :=
  match Z.uncompress WALB_DIFF_CMPR_SNAPPY data with
  | none => .error "snappy_uncompress"
  | some out => if out.length = outSize then .ok out else .error "invalid outSize"

namespace CompressedData

def isCompressed (cd : CompressedData) : Bool := decide (cd.cmpSize ≠ 0)

def dataSize (cd : CompressedData) : Nat := if cd.cmpSize = 0 then cd.orgSize else cd.cmpSize

def verify (cd : CompressedData) : Except String CompressedData :=
  if cd.orgSize = 0 then .error "orgSize must not be 0."
  else if cd.dataSize ≠ cd.data.length then .error "data size must be dataSize()"
  else .ok cd

def setSizes (cmpSize orgSize : Nat) (data : Bytes) : Except String CompressedData :=
  if (if cmpSize = 0 then orgSize else cmpSize) = 0 then .error "dataSize() must not be 0."
  else verify ⟨cmpSize, orgSize, data⟩

def setUncompressed (data : Bytes) : Except String CompressedData :=
  if data = [] then .error "empty" else setSizes 0 (data.length % 2 ^ 32) data

/-- Without data the buffer has no memory, and what snappy makes of nothing is copied there. -/
def compressFrom (data : Bytes) : Except Fault CompressedData :=
  if data = [] then .error .segv
  else
    match compressToVec Z data with
    | (true, enc) => (setSizes (enc.length % 2 ^ 32) (data.length % 2 ^ 32) enc).mapError .exception
    | (false, enc) => (setSizes 0 (data.length % 2 ^ 32) enc).mapError .exception

def compress (cd : CompressedData) : Except Fault CompressedData :=
  if cd.isCompressed then .ok cd else compressFrom Z cd.data

def uncompress (cd : CompressedData) : Except String CompressedData :=
  if cd.isCompressed then
    match uncompressToVec Z cd.data cd.orgSize with
    | .error e => .error e
    | .ok out => setUncompressed out
  else .ok cd

end CompressedData

end Data

def NEXT : UInt8 := 0

def END : UInt8 := 1

def ERROR : UInt8 := 2

/-- When the write with a number fails, and after how many of its bytes; and in which calls,
given by the number of the next write, compressing fails. -/
structure Faults where
  write : Nat → Option Nat
  compress : Nat → Bool

/-- `out` is what the connection takes, `tick` the number of the next write. -/
structure Sender where
  out : Bytes
  tick : Nat
  failed : Bool
  thrown : Option Fault

namespace Sender

variable (Z : Codecs) (f : Faults)

def start : Sender := ⟨[], 0, false, none⟩

def throw (e : Fault) (s : Sender) : Sender := { s with thrown := some e }

/-- The rest is not done if something was thrown, or after a crash. -/
def andThen (s : Sender) (g : Sender → Sender) : Sender :=
  match s.thrown with
  | some _ => s
  | none => g s

def write (b : Bytes) (s : Sender) : Sender :=
  match f.write s.tick with
  | none => { s with out := s.out ++ b, tick := s.tick + 1 }
  | some k =>
      if k < b.length then
        { s with
          out := s.out ++ b.take k, tick := s.tick + 1, thrown := some (.exception "Socket:write") }
      else { s with out := s.out ++ b, tick := s.tick + 1 }

def send (cd : CompressedData) (s : Sender) : Sender :=
  match cd.verify with
  | .error e => s.throw (.exception e)
  | .ok cd =>
      (((s.write f (toLE 4 cd.cmpSize)).andThen (write f (toLE 4 cd.orgSize)))).andThen (write f cd.data)

def tryProcess (cd : CompressedData) (doCompress : Bool) (s : Sender) : Sender :=
  match if doCompress then if f.compress s.tick then .error (.exception "compress")
    else cd.compress Z else .ok cd with
  | .error e => s.throw e
  | .ok cd => (s.write f [NEXT]).andThen (send f cd)

/-- The error mark behind what was written; a failure to write it is swallowed. -/
def mark (s : Sender) : Sender :=
  { ({ s with thrown := none } : Sender).write f [ERROR] with failed := true, thrown := none }

def process (cd : CompressedData) (doCompress : Bool) (s : Sender) : Sender :=
  let s' := s.tryProcess Z f cd doCompress
  match s'.thrown with
  | some (.exception _) => mark f s'
  | _ => s'

section

variable (pbs salt : Nat)

def verifyPbsAndSalt (h : LogPackHeader) : Except String Unit :=
  if h.pbs ≠ pbs then .error "invalid pbs" else if h.salt ≠ salt then .error "invalid salt" else .ok ()

def pushHeader (h : LogPackHeader) (s : Sender) : Sender :=
  match verifyPbsAndSalt pbs salt h with
  | .error e => s.throw (.exception e)
  | .ok _ =>
      match CompressedData.setUncompressed (h.block.take pbs) with
      | .error e => s.throw (.exception e)
      | .ok cd => s.process Z f cd true

def pushIo (h : LogPackHeader) (r : WlogRecord) (data : Bytes) (s : Sender) : Sender :=
  match verifyPbsAndSalt pbs salt h with
  | .error e => s.throw (.exception e)
  | .ok _ =>
      if r.hasData then
        if f.compress s.tick then s.throw (.exception "compress")
        else
          match CompressedData.compressFrom Z (data.take (r.ioSizePb pbs * pbs % 2 ^ 32)) with
          | .error e => s.throw e
          | .ok cd => s.process Z f cd false
      else s

def pushIos (h : LogPackHeader) (ios : List (WlogRecord × Bytes)) (s : Sender) : Sender :=
  ios.foldl (fun s io => s.andThen (pushIo Z f pbs salt h io.1 io.2)) s

def pushPack (p : Pack) (s : Sender) : Sender :=
  (s.pushHeader Z f pbs salt p.header).andThen (pushIos Z f pbs salt p.header
    (p.header.records.zip p.ios))

def pushPacks (packs : List Pack) (s : Sender) : Sender :=
  packs.foldl (fun s p => s.andThen (pushPack Z f pbs salt p)) s

def sync (s : Sender) : Sender := s.write f [END]

def session (packs : List Pack) : Sender := (start.pushPacks Z f pbs salt packs).andThen (sync f)

end

end Sender

structure Receiver where
  stream : Bytes
  msg : Option UInt8

namespace Receiver

variable (Z : Codecs)

def read (n : Nat) (stream : Bytes) : Except String (Bytes × Bytes) :=
  if stream.length < n then .error "Socket:read" else .ok (stream.take n, stream.drop n)

def recv (stream : Bytes) : Except String (CompressedData × Bytes) := do
  let (cmpSize, stream) ← read 4 stream
  let (orgSize, stream) ← read 4 stream
  let (data, stream) ← read (CompressedData.dataSize ⟨ofLE cmpSize, ofLE orgSize, []⟩) stream
  let cd ← CompressedData.verify ⟨ofLE cmpSize, ofLE orgSize, data⟩
  .ok (cd, stream)

def getMsg (r : Receiver) : Except String (UInt8 × Bytes) :=
  match r.msg, r.stream with
  | some v, stream => .ok (v, stream)
  | none, v :: stream => .ok (v, stream)
  | none, [] => .error "Socket:read"

def process (r : Receiver) : Except String (Option Bytes × Receiver) := do
  let (v, stream) ← r.getMsg
  if v = NEXT then
    let (cd, stream) ← recv stream
    let cd ← cd.uncompress Z
    .ok (some cd.data, ⟨stream, none⟩)
  else if v = ERROR then .error "WlogReceiver:process:isError"
  else .ok (none, ⟨stream, some v⟩)

section

variable (pbs salt : Nat)

def copyFrom (data : Bytes) : Except String LogPackHeader :=
  if h : data.length = pbs then
    if (LogPackHeader.mk pbs salt data h).isValid then .ok ⟨pbs, salt, data, h⟩ else .error "invalid"
  else .error "invalid pack header size"

def popHeader (r : Receiver) : Except String (Option LogPackHeader × Receiver) :=
  match r.process Z with
  | .error e => .error e
  | .ok (none, r) => .ok (none, r)
  | .ok (some data, r) =>
      match copyFrom pbs salt data with
      | .error e => .error e
      | .ok h => if h.isEnd then .error "end header is not permitted" else .ok (some h, r)

def popIo (rec : WlogRecord) (r : Receiver) : Except String (Bytes × Receiver) :=
  if rec.hasData then
    match r.process Z with
    | .error e => .error e
    | .ok (none, _) => .error "WlogReceiver:popIo:failed"
    | .ok (some data, r) =>
        if rec.hasDataForChecksum then
          if calcChecksum (data.take (rec.ioSize * lbs)) salt = rec.checksum then .ok (data, r)
          else .error "WlogReceiver:popIo:invalid checksum"
        else .ok (data, r)
  else .ok ([], r)

def popIos : List WlogRecord → Receiver → Except String (List Bytes × Receiver)
  | [], r => .ok ([], r)
  | rec :: recs, r =>
      match popIo Z salt rec r with
      | .error e => .error e
      | .ok (io, r) =>
          match popIos recs r with
          | .error e => .error e
          | .ok (ios, r) => .ok (io :: ios, r)

def receive : Nat → Receiver → Except String (List Pack × Receiver)
  | 0, _ => .error "out of fuel"
  | fuel + 1, r =>
      match r.popHeader Z pbs salt with
      | .error e => .error e
      | .ok (none, r) => .ok ([], r)
      | .ok (some h, r) =>
          match popIos Z salt h.records r with
          | .error e => .error e
          | .ok (ios, r) =>
              match receive fuel r with
              | .error e => .error e
              | .ok (packs, r) => .ok (⟨h, ios⟩ :: packs, r)

end

end Receiver

section Frame

variable (Z : Codecs)

def packed (b : Bytes) : CompressedData :=
  match compressToVec Z b with
  | (true, enc) => ⟨enc.length, b.length, enc⟩
  | (false, enc) => ⟨0, b.length, enc⟩

def frame (b : Bytes) : Bytes :=
  NEXT :: (toLE 4 (packed Z b).cmpSize ++ (toLE 4 (packed Z b).orgSize ++ (packed Z b).data))

def frames (bs : List Bytes) : Bytes := bs.flatMap (frame Z)

structure Sendable (b : Bytes) : Prop where
  ne_nil : b ≠ []
  length_lt : b.length < 2 ^ 32

variable {Z} {b t : Bytes} {bs : List Bytes}

theorem Sendable.length_pos (h : Sendable b) : 0 < b.length := List.length_pos_iff.2 h.ne_nil

structure Packed (Z : Codecs) (b : Bytes) (cd : CompressedData) : Prop where
  verify : cd.verify = .ok cd
  cmpSize_lt : cd.cmpSize < 2 ^ 32
  orgSize_lt : cd.orgSize < 2 ^ 32
  dataSize : cd.dataSize = cd.data.length
  uncompress : ∃ cd', cd.uncompress Z = .ok cd' ∧ cd'.data = b

theorem verify_of_dataSize {cd : CompressedData} (horg : cd.orgSize ≠ 0)
    (h : cd.dataSize = cd.data.length) :
    cd.verify = .ok cd := by
  rw [CompressedData.verify, if_neg horg, if_neg (not_not.2 h)]

theorem setUncompressed_eq (h : Sendable b) :
    CompressedData.setUncompressed b = .ok ⟨0, b.length, b⟩ := by
  have hpos := h.length_pos
  have hne : b.length ≠ 0 := hpos.ne'
  rw [CompressedData.setUncompressed, if_neg h.ne_nil, CompressedData.setSizes, if_pos rfl,
    Nat.mod_eq_of_lt h.length_lt, if_neg hne]
  exact verify_of_dataSize hne rfl

theorem compressToVec_cases (Z : Codecs) (b : Bytes) :
    compressToVec Z b = (false, b) ∨ ∃ enc, compressToVec Z b = (true, enc) ∧ enc.length < b.length ∧
      Z.compress WALB_DIFF_CMPR_SNAPPY 0 b = some enc := by
  rw [compressToVec]
  split
  · split_ifs with hlt
    · exact .inr ⟨_, rfl, hlt, ‹_›⟩
    · exact .inl rfl
  · exact .inl rfl

theorem packed_spec (hZ : Z.Lawful) (h : Sendable b) : Packed Z b (packed Z b) := by
  have hpos := h.length_pos
  have hlt := h.length_lt
  rcases compressToVec_cases Z b with hvec | ⟨enc, hvec, hshort, henc⟩
  · rw [packed, hvec]
    refine ⟨verify_of_dataSize hpos.ne' rfl, Nat.two_pow_pos 32, hlt, rfl, ⟨0, b.length, b⟩, ?_, rfl⟩
    rw [CompressedData.uncompress, CompressedData.isCompressed]
    rfl
  · have hne : enc.length ≠ 0 := fun hz => hZ.ne_nil _ _ _ _ henc (List.length_eq_zero_iff.1 hz)
    have hsize : CompressedData.dataSize ⟨enc.length, b.length, enc⟩ = enc.length := if_neg hne
    rw [packed, hvec]
    refine ⟨verify_of_dataSize hpos.ne' hsize, hshort.trans hlt, hlt, hsize, ⟨0, b.length, b⟩, ?_, rfl⟩
    have hcmp : CompressedData.isCompressed ⟨enc.length, b.length, enc⟩ = true := decide_eq_true hne
    rw [CompressedData.uncompress, if_pos hcmp, uncompressToVec, hZ.uncompress_compress _ _ _ _ henc]
    dsimp only
    rw [if_pos rfl]
    exact setUncompressed_eq h

theorem compressFrom_eq (hZ : Z.Lawful) (h : Sendable b) :
    CompressedData.compressFrom Z b = .ok (packed Z b) := by
  have hpos := h.length_pos
  have hlt := h.length_lt
  have hverify := (packed_spec hZ h).verify
  rw [CompressedData.compressFrom, if_neg h.ne_nil]
  rcases compressToVec_cases Z b with hvec | ⟨enc, hvec, hshort, henc⟩
  · rw [packed, hvec] at hverify ⊢
    dsimp only
    rw [CompressedData.setSizes, if_pos rfl, Nat.mod_eq_of_lt hlt, if_neg hpos.ne']
    exact congrArg (Except.mapError _) hverify
  · have hne : enc.length ≠ 0 := fun hz => hZ.ne_nil _ _ _ _ henc (List.length_eq_zero_iff.1 hz)
    rw [packed, hvec] at hverify ⊢
    dsimp only
    rw [CompressedData.setSizes, Nat.mod_eq_of_lt (hshort.trans hlt), Nat.mod_eq_of_lt hlt,
      if_neg hne, if_neg hne]
    exact congrArg (Except.mapError _) hverify

theorem compressFrom_nil (Z : Codecs) : CompressedData.compressFrom Z [] = .error .segv := if_pos rfl

theorem frames_append {cs : List Bytes} : frames Z (bs ++ cs) = frames Z bs ++ frames Z cs :=
  List.flatMap_append

theorem frames_cons : frames Z (b :: bs) = frame Z b ++ frames Z bs := List.flatMap_cons

theorem frames_concat : frames Z (bs ++ [b]) = frames Z bs ++ frame Z b := by
  rw [frames_append]
  change frames Z bs ++ List.flatMap (frame Z) [b] = _
  rw [List.flatMap_singleton]

theorem read_append {n : Nat} {stream rest : Bytes} (h : stream.length = n) :
    Receiver.read n (stream ++ rest) = .ok (stream, rest) := by
  rw [Receiver.read, if_neg (by rw [List.length_append]; omega), ← h, List.take_left, List.drop_left]

theorem recv_append {cd : CompressedData} (h : Packed Z b cd) (rest : Bytes) :
    Receiver.recv (toLE 4 cd.cmpSize ++ (toLE 4 cd.orgSize ++ (cd.data ++ rest))) = .ok (cd, rest) := by
  have hcmp : ofLE (toLE 4 cd.cmpSize) = cd.cmpSize := ofLE_toLE_of_lt h.cmpSize_lt
  have horg : ofLE (toLE 4 cd.orgSize) = cd.orgSize := ofLE_toLE_of_lt h.orgSize_lt
  have hsize : CompressedData.dataSize ⟨cd.cmpSize, cd.orgSize, []⟩ = cd.data.length := h.dataSize
  have hverify : CompressedData.verify ⟨cd.cmpSize, cd.orgSize, cd.data⟩ = .ok cd := h.verify
  simp only [Receiver.recv, read_append (length_toLE _ _), read_append (rfl : cd.data.length = _),
    bind, Except.bind, hcmp,
    horg, hsize, hverify]

theorem process_next (stream : Bytes) :
    Receiver.process Z ⟨NEXT :: stream, none⟩ = (Receiver.recv stream >>= fun x =>
      x.1.uncompress Z >>= fun cd => .ok (some cd.data, ⟨x.2, none⟩)) := by
  rw [Receiver.process]
  rfl

theorem process_frame (hZ : Z.Lawful) (h : Sendable b) (rest : Bytes) :
    Receiver.process Z ⟨frame Z b ++ rest, none⟩ = .ok (some b, ⟨rest, none⟩) := by
  have hp := packed_spec hZ h
  obtain ⟨cd', hun, hdata⟩ := hp.uncompress
  have hframe : frame Z b ++ rest = NEXT :: (toLE 4 (packed Z b).cmpSize ++
      (toLE 4 (packed Z b).orgSize ++ ((packed Z b).data ++ rest))) := by
    rw [frame, List.cons_append, List.append_assoc, List.append_assoc]
  rw [hframe, process_next, recv_append hp]
  change ((packed Z b).uncompress Z >>= fun cd => Except.ok (some cd.data,
    (⟨rest, none⟩ : Receiver))) = _
  rw [hun, ← hdata]
  rfl

/-- The receiver throws on a stream that goes on like this between two frames. -/
def Stuck (Z : Codecs) (t : Bytes) : Prop := ∃ e, Receiver.process Z ⟨t, none⟩ = .error e

theorem stuck_nil : Stuck Z [] := ⟨_, rfl⟩

theorem stuck_error (rest : Bytes) : Stuck Z (ERROR :: rest) := ⟨_, rfl⟩

theorem read_short {n : Nat} {stream : Bytes} (h : stream.length < n) :
    Receiver.read n stream = .error "Socket:read" := if_pos h

theorem recv_cut {cd : CompressedData} (h : Packed Z b cd) {m : Nat}
    (hm : m < (toLE 4 cd.cmpSize ++ (toLE 4 cd.orgSize ++ cd.data)).length) :
    Receiver.recv ((toLE 4 cd.cmpSize ++ (toLE 4 cd.orgSize ++ cd.data)).take m) =
      .error "Socket:read" := by
  have hcmp : ofLE (toLE 4 cd.cmpSize) = cd.cmpSize := ofLE_toLE_of_lt h.cmpSize_lt
  have horg : ofLE (toLE 4 cd.orgSize) = cd.orgSize := ofLE_toLE_of_lt h.orgSize_lt
  have hsize : CompressedData.dataSize ⟨cd.cmpSize, cd.orgSize, []⟩ = cd.data.length := h.dataSize
  have hlen := length_toLE 4 cd.cmpSize
  have hlen' := length_toLE 4 cd.orgSize
  rw [List.length_append, List.length_append, hlen, hlen'] at hm
  -- Which of the three parts is the first that is not whole?
  rcases Nat.lt_or_ge m 4 with h4 | h4
  · rw [Receiver.recv, read_short ((List.length_take_le _ _).trans_lt h4)]
    rfl
  · rw [List.take_append, List.take_of_length_le (by omega), hlen]
    rcases Nat.lt_or_ge (m - 4) 4 with h8 | h8
    · simp only [Receiver.recv, read_append hlen, read_short
        ((List.length_take_le _ _).trans_lt h8), bind, Except.bind]
    · rw [List.take_append, List.take_of_length_le (by omega), hlen']
      have hshort : (cd.data.take (m - 4 - 4)).length < cd.data.length := by
        rw [List.length_take]
        omega
      simp only [Receiver.recv, read_append hlen, read_append hlen', bind, Except.bind, hcmp, horg,
        hsize, read_short hshort]

theorem stuck_cut (hZ : Z.Lawful) (h : Sendable b) {m : Nat} (hm : m < (frame Z b).length) :
    Stuck Z ((frame Z b).take m) := by
  cases m with
  | zero => exact stuck_nil
  | succ m =>
      rw [frame, List.length_cons, Nat.add_lt_add_iff_right] at hm
      refine ⟨"Socket:read", ?_⟩
      rw [frame, List.take_succ_cons, process_next, recv_cut (packed_spec hZ h) hm]
      rfl

end Frame

section Receive

variable {Z : Codecs} {pbs salt : Nat} {t : Bytes}

def payloads (ios : List (WlogRecord × Bytes)) : List Bytes :=
  ios.filterMap fun io => if io.1.hasData then some io.2 else none

structure Fit (pbs salt : Nat) (r : WlogRecord) (io : Bytes) : Prop where
  ioOf : IoOf pbs salt r io
  sendable : r.hasData = true → Sendable io

variable {rs : List WlogRecord} {ios : List Bytes} {r : WlogRecord} {io : Bytes}

theorem payloads_cons_of_data (h : r.hasData = true) {l : List (WlogRecord × Bytes)} :
    payloads ((r, io) :: l) = io :: payloads l := List.filterMap_cons_some (if_pos h)

theorem payloads_cons_of_no_data (h : r.hasData = false) {l : List (WlogRecord × Bytes)} :
    payloads ((r, io) :: l) = payloads l := List.filterMap_cons_none (by rw [h]; rfl)

theorem popIo_no_data (h : Fit pbs salt r io) (hd : r.hasData = false) (c : Receiver) :
    Receiver.popIo Z salt r c = .ok (io, c) := by
  rw [Receiver.popIo, hd, h.ioOf.nil hd]
  rfl

theorem popIo_frame (hZ : Z.Lawful) (h : Fit pbs salt r io) (hd : r.hasData = true) (rest : Bytes) :
    Receiver.popIo Z salt r ⟨frame Z io ++ rest, none⟩ = .ok (io, ⟨rest, none⟩) := by
  rw [Receiver.popIo, if_pos hd, process_frame hZ (h.sendable hd)]
  dsimp only
  split_ifs with hsum hne
  · rfl
  · exact absurd (h.ioOf.checksum hsum) hne
  · rfl

theorem popIo_stuck (hd : r.hasData = true) (ht : Stuck Z t) :
    ∃ e, Receiver.popIo Z salt r ⟨t, none⟩ = .error e := by
  obtain ⟨e, he⟩ := ht
  exact ⟨e, by rw [Receiver.popIo, if_pos hd, he]⟩

theorem popIos_frames (hZ : Z.Lawful) (h : List.Forall₂ (Fit pbs salt) rs ios) (t : Bytes) :
    Receiver.popIos Z salt rs ⟨frames Z (payloads (rs.zip ios)) ++ t, none⟩ = .ok (ios, ⟨t, none⟩) := by
  induction h with
  | nil => rfl
  | @cons r io rs ios hr _ ih =>
      rw [List.zip_cons_cons, Receiver.popIos]
      cases hd : r.hasData with
      | false =>
          rw [payloads_cons_of_no_data hd, popIo_no_data hr hd]
          dsimp only
          rw [ih]
      | true =>
          rw [payloads_cons_of_data hd, frames_cons, List.append_assoc, popIo_frame hZ hr hd]
          dsimp only
          rw [ih]

theorem popIos_stuck (hZ : Z.Lawful) (h : List.Forall₂ (Fit pbs salt) rs ios) {bs : List Bytes}
    (hbs : bs <+: payloads (rs.zip ios)) (hlt : bs.length < (payloads (rs.zip ios)).length)
    (ht : Stuck Z t) :
    ∃ e, Receiver.popIos Z salt rs ⟨frames Z bs ++ t, none⟩ = .error e := by
  induction h generalizing bs with
  | nil => exact absurd hlt (Nat.not_lt_zero _)
  | @cons r io rs ios hr _ ih =>
      rw [List.zip_cons_cons] at hbs hlt
      rw [Receiver.popIos]
      cases hd : r.hasData with
      | false =>
          rw [payloads_cons_of_no_data hd] at hbs hlt
          obtain ⟨e, he⟩ := ih hbs hlt
          exact ⟨e, by rw [popIo_no_data hr hd]; dsimp only; rw [he]⟩
      | true =>
          rw [payloads_cons_of_data hd] at hbs hlt
          cases bs with
          | nil =>
              obtain ⟨e, he⟩ := @popIo_stuck Z salt t _ hd ht
              exact ⟨e, by rw [frames, List.flatMap_nil, List.nil_append, he]⟩
          | cons b bs =>
              obtain ⟨rfl, hrest⟩ := List.cons_prefix_cons.1 hbs
              obtain ⟨e, he⟩ := ih hrest (Nat.lt_of_succ_lt_succ hlt)
              exact ⟨e, by rw [frames_cons, List.append_assoc, popIo_frame hZ hr hd]; dsimp only; rw [he]⟩

structure Pushable (pbs salt : Nat) (p : Pack) : Prop where
  pbs_eq : p.header.pbs = pbs
  salt_eq : p.header.salt = salt
  isValid : p.header.isValid = true
  notEnd : p.header.isEnd = false
  block : Sendable p.header.block
  ios : List.Forall₂ (Fit pbs salt) p.header.records p.ios

def packPayloads (p : Pack) : List Bytes := p.header.block :: payloads (p.header.records.zip p.ios)

variable {p : Pack} {packs : List Pack}

theorem popHeader_frame (hZ : Z.Lawful) (h : Pushable pbs salt p) (rest : Bytes) :
    Receiver.popHeader Z pbs salt ⟨frame Z p.header.block ++ rest, none⟩ =
      .ok (some p.header, ⟨rest, none⟩) := by
  have hlen : p.header.block.length = pbs := p.header.length_block.trans h.pbs_eq
  have hheader : LogPackHeader.mk pbs salt p.header.block hlen = p.header := by
    obtain ⟨⟨pbs', salt', block, hblock⟩, ios⟩ := p
    obtain rfl := h.pbs_eq
    obtain rfl := h.salt_eq
    rfl
  rw [Receiver.popHeader, process_frame hZ h.block]
  dsimp only
  rw [Receiver.copyFrom, dif_pos hlen, hheader, if_pos h.isValid]
  dsimp only
  rw [h.notEnd]
  rfl

theorem popHeader_stuck (ht : Stuck Z t) : ∃ e, Receiver.popHeader Z pbs salt ⟨t, none⟩ = .error e := by
  obtain ⟨e, he⟩ := ht
  exact ⟨e, by rw [Receiver.popHeader, he]⟩

theorem receive_frames (hZ : Z.Lawful) (h : ∀ p, p ∈ packs → Pushable pbs salt p) (rest : Bytes)
    {fuel : Nat}
    (hfuel : packs.length < fuel) :
    Receiver.receive Z pbs salt fuel ⟨frames Z (packs.flatMap packPayloads) ++ END :: rest, none⟩ =
      .ok (packs, ⟨rest, some END⟩) := by
  induction packs generalizing fuel with
  | nil =>
      obtain ⟨fuel, rfl⟩ := Nat.exists_eq_succ_of_ne_zero (Nat.ne_zero_of_lt hfuel)
      rfl
  | cons p packs ih =>
      obtain ⟨fuel, rfl⟩ := Nat.exists_eq_succ_of_ne_zero (Nat.ne_zero_of_lt hfuel)
      obtain ⟨hp, hpacks⟩ := List.forall_mem_cons.1 h
      rw [List.flatMap_cons, packPayloads, List.cons_append, frames_cons, frames_append,
        List.append_assoc, List.append_assoc,
        Receiver.receive, popHeader_frame hZ hp]
      dsimp only
      rw [popIos_frames hZ hp.ios]
      dsimp only
      rw [ih hpacks (Nat.lt_of_succ_lt_succ hfuel)]

theorem prefix_append_cases {α : Type} {l₁ l₂ l₃ : List α} (h : l₁ <+: l₂ ++ l₃) :
    (l₁ <+: l₂ ∧ l₁.length < l₂.length) ∨ ∃ l, l₁ = l₂ ++ l ∧ l <+: l₃ := by
  rcases Nat.lt_or_ge l₁.length l₂.length with hlt | hge
  · exact .inl ⟨List.prefix_of_prefix_length_le h (List.prefix_append l₂ l₃) hlt.le, hlt⟩
  · obtain ⟨l, rfl⟩ := List.prefix_of_prefix_length_le (List.prefix_append l₂ l₃) h hge
    exact .inr ⟨l, rfl, (List.prefix_append_right_inj l₂).1 h⟩

/-- Frames of the packs, and then nothing that the receiver takes: it throws. -/
theorem receive_stuck (hZ : Z.Lawful) (h : ∀ p, p ∈ packs → Pushable pbs salt p) {bs : List Bytes}
    (hbs : bs <+: packs.flatMap packPayloads) (ht : Stuck Z t) (fuel : Nat) :
    ∃ e, Receiver.receive Z pbs salt fuel ⟨frames Z bs ++ t, none⟩ = .error e := by
  induction packs generalizing bs fuel with
  | nil =>
      rw [List.flatMap_nil, List.prefix_nil] at hbs
      subst hbs
      cases fuel with
      | zero => exact ⟨_, rfl⟩
      | succ fuel =>
          obtain ⟨e, he⟩ := @popHeader_stuck Z pbs salt t ht
          refine ⟨e, ?_⟩
          rw [frames, List.flatMap_nil, List.nil_append, Receiver.receive, he]
  | cons p packs ih =>
      obtain ⟨hp, hpacks⟩ := List.forall_mem_cons.1 h
      rw [List.flatMap_cons, packPayloads, List.cons_append] at hbs
      cases fuel with
      | zero => exact ⟨_, rfl⟩
      | succ fuel =>
          rw [Receiver.receive]
          cases bs with
          | nil =>
              obtain ⟨e, he⟩ := @popHeader_stuck Z pbs salt t ht
              refine ⟨e, ?_⟩
              rw [frames, List.flatMap_nil, List.nil_append, he]
          | cons b bs =>
              obtain ⟨rfl, hrest⟩ := List.cons_prefix_cons.1 hbs
              rw [frames_cons, List.append_assoc, popHeader_frame hZ hp]
              dsimp only
              rcases prefix_append_cases hrest with ⟨hpre, hlt⟩ | ⟨bs', rfl, hpre⟩
              · obtain ⟨e, he⟩ := popIos_stuck hZ hp.ios hpre hlt ht
                exact ⟨e, by rw [he]⟩
              · obtain ⟨e, he⟩ := ih hpacks hpre fuel
                refine ⟨e, ?_⟩
                rw [frames_append, List.append_assoc, popIos_frames hZ hp.ios]
                dsimp only
                rw [he]

end Receive

namespace Sender

/-- Nothing is taken from the write with this number on. -/
def Dead (f : Faults) (tick : Nat) : Prop := ∀ j, tick ≤ j → f.write j = some 0

def Fails (f : Faults) (i n : Nat) : Prop := ∃ k, f.write i = some k ∧ k < n

def Faulty (f : Faults) : Prop := (∃ i, f.write i ≠ none) ∨ ∃ i, f.compress i = true

/-- The error mark with this number is taken, or nothing any more. -/
def Marked (f : Faults) (i : Nat) : Prop := Fails f i 1 → Dead f (i + 1)

def sizes (Z : Codecs) (b : Bytes) : List Nat := [4, 4, (packed Z b).data.length]

/-- The failures that the receiver is told of, from the write with the number `i` on; the payloads
are those that are still to be pushed, `true` for headers. Before a frame is begun, the error
mark is taken or nothing any more; within a frame nothing is taken any more. -/
def Told (Z : Codecs) (f : Faults) : Nat → List (Bool × Bytes) → Prop
  | _, [] => True
  | i, (isHeader, b) :: ps =>
      -- Where the data of an IO cannot be compressed, the call throws and the session ends.
      if f.compress i then isHeader = true → Marked f i
      else
        (Fails f i 1 → Marked f (i + 1)) ∧
          (¬Fails f i 1 → (∀ j n, (sizes Z b)[j]? = some n → Fails f (i + 1 + j) n →
          Dead f (i + 1 + j + 1)) ∧
            Told Z f (i + 4) ps)

/-- What the calls of the sender do to its state whatever happens. -/
structure Grows (f : Faults) (s s' : Sender) : Prop where
  out : ∃ w, s'.out = s.out ++ w ∧ (Dead f s.tick → w = [])
  tick : s.tick ≤ s'.tick
  failed : s.failed = true → s'.failed = true

variable {Z : Codecs} {f : Faults} {pbs salt : Nat} {s s' s'' : Sender} {b : Bytes}
  {ps : List (Bool × Bytes)}

theorem Dead.mono {tick tick' : Nat} (h : Dead f tick) (hle : tick ≤ tick') : Dead f tick' :=
  fun j hj => h j (hle.trans hj)

theorem Dead.faulty {tick : Nat} (h : Dead f tick) : Faulty f :=
  .inl ⟨tick, by rw [h tick le_rfl]; exact Option.some_ne_none _⟩

theorem Grows.refl (s : Sender) : Grows f s s :=
  ⟨⟨[], (List.append_nil _).symm, fun _ => rfl⟩, le_rfl, id⟩

theorem Grows.trans (h : Grows f s s') (h' : Grows f s' s'') : Grows f s s'' := by
  obtain ⟨w, hw, hdead⟩ := h.out
  obtain ⟨w', hw', hdead'⟩ := h'.out
  refine ⟨⟨w ++ w', by rw [hw', hw, List.append_assoc], fun hd => ?_⟩, h.tick.trans h'.tick,
    fun hf => h'.failed (h.failed hf)⟩
  rw [hdead hd, hdead' (hd.mono h.tick), List.append_nil]

theorem Grows.flags (h : Grows f s s') {failed : Bool} (hfailed : s'.failed = true → failed = true)
    (thrown : Option Fault) :
    Grows f s { s' with failed := failed, thrown := thrown } :=
  ⟨h.out, h.tick, fun hf => hfailed (h.failed hf)⟩

theorem grows_throw (e : Fault) (s : Sender) : Grows f s (s.throw e) := (Grows.refl s).flags id _

theorem grows_andThen {g : Sender → Sender} (h : Grows f s s') (hg : ∀ s, Grows f s (g s)) :
    Grows f s (s'.andThen g) := by
  rw [andThen]
  split
  · exact h
  · exact h.trans (hg s')

theorem grows_write (b : Bytes) (s : Sender) : Grows f s (s.write f b) := by
  rw [write]
  split
  · rename_i hw
    refine ⟨⟨b, rfl, fun hd => ?_⟩, Nat.le_succ _, id⟩
    cases (hd s.tick le_rfl).symm.trans hw
  · rename_i k hw
    split_ifs with hk
    · refine ⟨⟨b.take k, rfl, fun hd => ?_⟩, Nat.le_succ _, id⟩
      obtain rfl := Option.some.inj ((hd s.tick le_rfl).symm.trans hw)
      exact List.take_zero
    · refine ⟨⟨b, rfl, fun hd => ?_⟩, Nat.le_succ _, id⟩
      obtain rfl := Option.some.inj ((hd s.tick le_rfl).symm.trans hw)
      exact List.eq_nil_of_length_eq_zero (Nat.eq_zero_of_not_pos hk)

theorem grows_send (cd : CompressedData) (s : Sender) : Grows f s (s.send f cd) := by
  rw [send]
  split
  · exact grows_throw _ s
  · exact grows_andThen (grows_andThen (grows_write _ s) (grows_write _)) (grows_write _)

theorem grows_tryProcess (cd : CompressedData) (doCompress : Bool) (s : Sender) :
    Grows f s (s.tryProcess Z f cd doCompress) := by
  rw [tryProcess]
  split
  · exact grows_throw _ s
  · exact grows_andThen (grows_write _ s) (grows_send _)

theorem grows_mark (s : Sender) : Grows f s (mark f s) := by
  have hnone : Grows f s { s with thrown := none } := (Grows.refl s).flags id none
  exact (hnone.trans (grows_write _ _)).flags (fun _ => rfl) none

theorem grows_process (cd : CompressedData) (doCompress : Bool) (s : Sender) :
    Grows f s (s.process Z f cd doCompress) := by
  rw [process]
  split
  · exact (grows_tryProcess cd doCompress s).trans (grows_mark _)
  · exact grows_tryProcess cd doCompress s

theorem process_of_none {cd : CompressedData} {doCompress : Bool}
    (h : (s.tryProcess Z f cd doCompress).thrown = none) :
    s.process Z f cd doCompress = s.tryProcess Z f cd doCompress := by
  simp only [process, h]

theorem process_of_exception {cd : CompressedData} {doCompress : Bool} {e : String}
    (h : (s.tryProcess Z f cd doCompress).thrown = some (.exception e)) :
    s.process Z f cd doCompress = mark f (s.tryProcess Z f cd doCompress) := by
  simp only [process, h]

theorem write_cases (f : Faults) (b : Bytes) (s : Sender) :
    (¬Fails f s.tick b.length ∧ s.write f b = { s with out := s.out ++ b, tick := s.tick + 1 }) ∨
      ∃ m, m < b.length ∧ Fails f s.tick b.length ∧ s.write f b =
        { s with
          out := s.out ++ b.take m, tick := s.tick + 1,
          thrown := some (.exception "Socket:write") } := by
  rw [write]
  split
  · rename_i hw
    refine .inl ⟨?_, rfl⟩
    rintro ⟨k, hk, -⟩
    cases hw.symm.trans hk
  · rename_i k hw
    split_ifs with hk
    · exact .inr ⟨k, hk, ⟨k, hw, hk⟩, rfl⟩
    · refine .inl ⟨?_, rfl⟩
      rintro ⟨k', hk', hlt⟩
      cases hw.symm.trans hk'
      exact hk hlt

theorem Fails.faulty {i n : Nat} (h : Fails f i n) : Faulty f := by
  obtain ⟨k, hk, -⟩ := h
  exact .inl ⟨i, by rw [hk]; exact Option.some_ne_none k⟩

def writes (f : Faults) (bs : List Bytes) (s : Sender) : Sender :=
  bs.foldl (fun s b => s.andThen (write f b)) s

theorem writes_of_thrown {e : Fault} (h : s.thrown = some e) (bs : List Bytes) : writes f bs s = s := by
  induction bs with
  | nil => rfl
  | cons b bs ih =>
      rw [writes, List.foldl_cons, andThen, h]
      exact ih

theorem writes_spec (h : s.thrown = none) (bs : List Bytes) :
    ((writes f bs s).thrown = none ∧ (writes f bs s).failed = s.failed ∧
      (writes f bs s).tick = s.tick + bs.length ∧
        (writes f bs s).out = s.out ++ bs.flatten) ∨
      ∃ j n, (bs.map List.length)[j]? = some n ∧ Fails f (s.tick + j) n ∧
        (writes f bs s).thrown = some (.exception "Socket:write") ∧
        (writes f bs s).tick = s.tick + j + 1 ∧
          ∃ m, m < bs.flatten.length ∧ (writes f bs s).out = s.out ++ bs.flatten.take m := by
  induction bs generalizing s with
  | nil => exact .inl ⟨h, rfl, rfl, (List.append_nil _).symm⟩
  | cons b bs ih =>
      rw [writes, List.foldl_cons, andThen, h, List.flatten_cons]
      dsimp only
      rw [← writes]
      rcases write_cases f b s with ⟨-, hw⟩ | ⟨m, hm, hfail, hw⟩
      · rw [hw]
        rcases ih (s := { s with out := s.out ++ b, tick := s.tick + 1 }) h with
          ⟨hnone, hfailed, htick, hout⟩ | ⟨j, n, hj, hfail, hthrown, htick, m, hm, hout⟩
        · refine .inl ⟨hnone, hfailed, ?_, by rw [hout, List.append_assoc]⟩
          rw [htick, List.length_cons, Nat.add_right_comm, Nat.add_assoc]
        · have hnext : s.tick + 1 + j = s.tick + (j + 1) := by omega
          dsimp only at hfail htick
          rw [hnext] at hfail htick
          refine .inr ⟨j + 1, n, hj, hfail, hthrown, htick, b.length + m, ?_, ?_⟩
          · rw [List.length_append]
            omega
          · rw [hout, List.append_assoc, List.take_length_add_append]
      · rw [hw, writes_of_thrown rfl]
        refine .inr ⟨0, b.length, rfl, hfail, rfl, rfl, m, ?_, ?_⟩
        · rw [List.length_append]
          omega
        · rw [List.take_append_of_le_length hm.le]

theorem tryProcess_eq (h : s.thrown = none) {cd cd' : CompressedData} {doCompress : Bool}
    (hcd : (if doCompress then if f.compress s.tick then .error (.exception "compress")
      else cd.compress Z else .ok cd) =
      .ok cd')
    (hverify : cd'.verify = .ok cd') :
    s.tryProcess Z f cd doCompress = writes f [[NEXT], toLE 4 cd'.cmpSize, toLE 4 cd'.orgSize,
      cd'.data] s := by
  have hfirst : s.write f [NEXT] = s.andThen (write f [NEXT]) := by rw [andThen, h]
  rw [tryProcess, hcd, hfirst]
  dsimp only
  rw [writes, List.foldl_cons]
  generalize s.andThen (write f [NEXT]) = s₁
  cases ht : s₁.thrown with
  | some e =>
      rw [andThen, ht]
      exact (writes_of_thrown ht _).symm
  | none =>
      have hsecond : s₁.write f (toLE 4 cd'.cmpSize) = s₁.andThen
        (write f (toLE 4 cd'.cmpSize)) := by rw [andThen, ht]
      rw [andThen, ht]
      dsimp only
      rw [send, hverify]
      dsimp only
      rw [hsecond]
      rfl

/-- The receiver gets whole frames of what is pushed and is then stuck, also when the sender
goes on. -/
def Broken (Z : Codecs) (f : Faults) (bs : List Bytes) (s : Sender) : Prop :=
  ∃ cs t, cs <+: bs ∧ s.out = frames Z cs ++ t ∧ Stuck Z t ∧
    (Dead f s.tick ∨ ∀ rest, Stuck Z (t ++ rest))

/-- The state of the sender when the payloads `bs` are pushed and `ps` are not. -/
inductive Stage (Z : Codecs) (f : Faults) (bs : List Bytes) (ps : List (Bool × Bytes))
    (s : Sender) : Prop
  | sent : s.thrown = none → s.failed = false → s.out = frames Z bs → Told Z f s.tick ps →
      Stage Z f bs ps s
  | broken : Faulty f → s.failed = true → Broken Z f bs s → Stage Z f bs ps s
  | thrown (cs : List Bytes) : Faulty f → s.thrown ≠ none → cs <+: bs → s.out = frames Z cs →
      Stage Z f bs ps s

variable {bs cs : List Bytes}

theorem Broken.mono (h : Broken Z f bs s) (hbs : bs <+: cs) : Broken Z f cs s := by
  obtain ⟨ds, t, hds, hrest⟩ := h
  exact ⟨ds, t, hds.trans hbs, hrest⟩

theorem Broken.grows (h : Broken Z f bs s) (hg : Grows f s s') : Broken Z f bs s' := by
  obtain ⟨cs, t, hcs, hout, hstuck, hstays⟩ := h
  obtain ⟨w, hw, hdead⟩ := hg.out
  rcases hstays with hd | hstays
  · refine ⟨cs, t, hcs, ?_, hstuck, .inl (hd.mono hg.tick)⟩
    rw [hw, hdead hd, List.append_nil, hout]
  · refine ⟨cs, t ++ w, hcs, ?_, hstays w, .inr fun rest => ?_⟩
    · rw [hw, hout, List.append_assoc]
    · rw [List.append_assoc]
      exact hstays _

theorem Stage.andThen {g : Sender → Sender} {qs : List (Bool × Bytes)} (h : Stage Z f bs ps s)
    (hbs : bs <+: cs)
    (hg : s.thrown = none → Stage Z f cs qs (g s)) : Stage Z f cs qs (s.andThen g) := by
  cases ht : s.thrown with
  | none =>
      rw [Sender.andThen, ht]
      exact hg ht
  | some e =>
      rw [Sender.andThen, ht]
      cases h with
      | sent hnone =>
          rw [hnone] at ht
          cases ht
      | broken hfault hfailed hb => exact .broken hfault hfailed (hb.mono hbs)
      | thrown ds hfault hne hds hout => exact .thrown ds hfault hne (hds.trans hbs) hout

theorem broken_mark (hmark : Marked f s.tick) (hs : s.out = frames Z bs) : Broken Z f bs (mark f s) := by
  rcases write_cases f [ERROR] { s with thrown := none } with ⟨-, hw⟩ | ⟨m, hm, hfail, hw⟩
  · refine ⟨bs, [ERROR], List.prefix_rfl, ?_, stuck_error [], .inr stuck_error⟩
    rw [mark, hw, ← hs]
  · obtain rfl : m = 0 := Nat.lt_one_iff.1 hm
    refine ⟨bs, [], List.prefix_rfl, ?_, stuck_nil, .inl ?_⟩
    · rw [mark, hw, ← hs]
      rfl
    · rw [mark, hw]
      exact hmark hfail

theorem frame_eq (b : Bytes) :
    frame Z b = [NEXT] ++ [toLE 4 (packed Z b).cmpSize, toLE 4 (packed Z b).orgSize,
      (packed Z b).data].flatten := by
  rw [frame, List.flatten_cons, List.flatten_cons, List.flatten_cons, List.flatten_nil, List.append_nil]
  rfl

theorem sizes_eq (b : Bytes) :
    [toLE 4 (packed Z b).cmpSize, toLE 4 (packed Z b).orgSize, (packed Z b).data].map List.length =
      sizes Z b := by
  rw [List.map_cons, List.map_cons, length_toLE, length_toLE]
  rfl

/-- A frame behind whole ones, when the sender has not failed before. -/
theorem stage_writes (hZ : Z.Lawful) (ht : s.thrown = none) (hfailed : s.failed = false)
    (hout : s.out = frames Z bs)
    (hb : Sendable b) {cd : CompressedData} {doCompress : Bool}
    (htry : s.tryProcess Z f cd doCompress =
      writes f [[NEXT], toLE 4 (packed Z b).cmpSize, toLE 4 (packed Z b).orgSize, (packed Z b).data] s)
    (hfirst : Fails f s.tick 1 → Marked f (s.tick + 1))
    (hrest : ¬Fails f s.tick 1 → (∀ j n, (sizes Z b)[j]? = some n → Fails f (s.tick + 1 + j) n →
      Dead f (s.tick + 1 + j + 1)) ∧ Told Z f (s.tick + 4) ps) :
    Stage Z f (bs ++ [b]) ps (s.process Z f cd doCompress) := by
  have hpre : bs <+: bs ++ [b] := List.prefix_append bs [b]
  rw [writes, List.foldl_cons, andThen, ht] at htry
  dsimp only at htry
  rw [← writes] at htry
  rcases write_cases f [NEXT] s with ⟨hbegun, hw⟩ | ⟨m, hm, hfail, hw⟩
  · obtain ⟨hdead, htold⟩ := hrest hbegun
    rw [hw] at htry
    rcases writes_spec (f := f) (s := { s with out := s.out ++ [NEXT], tick := s.tick + 1 }) ht
      [toLE 4 (packed Z b).cmpSize, toLE 4 (packed Z b).orgSize, (packed Z b).data] with
        ⟨hnone, hfailed', htick, hout'⟩ | ⟨j, n, hj, hfail, hthrown, htick, m, hm, hout'⟩
    · rw [← htry] at hnone hfailed' htick hout'
      rw [process_of_none hnone]
      refine .sent hnone (hfailed'.trans hfailed) ?_ ?_
      · rw [hout', hout, frames_concat, frame_eq, List.append_assoc]
      · rw [htick]
        exact htold
    · rw [← htry] at hthrown htick hout'
      rw [sizes_eq] at hj
      have hgone := hdead j n hj hfail
      rw [process_of_exception hthrown]
      refine .broken hfail.faulty rfl ?_
      have hcut : Broken Z f bs (s.tryProcess Z f cd doCompress) := by
        refine ⟨bs, (frame Z b).take (m + 1), List.prefix_rfl, ?_, stuck_cut hZ hb ?_, .inl ?_⟩
        · rw [hout', hout, frame_eq, List.append_assoc, List.singleton_append,
            List.singleton_append, List.take_succ_cons]
        · rw [frame_eq, List.length_append, List.length_singleton]
          omega
        · rw [htick]
          exact hgone
      exact (hcut.grows (grows_mark _)).mono hpre
  -- The first byte is not taken, so that the mark stands behind whole frames.
  · obtain rfl : m = 0 := Nat.lt_one_iff.1 hm
    rw [hw, writes_of_thrown rfl] at htry
    rw [process_of_exception (by rw [htry]), htry]
    refine .broken hfail.faulty rfl (Broken.mono (broken_mark (hfirst hfail) ?_) hpre)
    dsimp only
    rw [List.take_zero, List.append_nil, hout]

theorem Stage.process (hZ : Z.Lawful) {doCompress : Bool}
    (h : Stage Z f bs ((doCompress, b) :: ps) s) (ht : s.thrown = none)
    (hb : Sendable b) {cd : CompressedData}
    (hcd : (if doCompress then cd.compress Z else .ok cd) = .ok (packed Z b))
    (hio : doCompress = false → f.compress s.tick = false) :
    Stage Z f (bs ++ [b]) ps (s.process Z f cd doCompress) := by
  have hpre : bs <+: bs ++ [b] := List.prefix_append bs [b]
  cases h with
  | broken hfault hfailed hbroken =>
      have hg := grows_process (Z := Z) (f := f) cd doCompress s
      exact .broken hfault (hg.failed hfailed) ((hbroken.grows hg).mono hpre)
  | thrown _ _ hne => exact absurd ht hne
  | sent _ hfailed hout htold =>
      rw [Told] at htold
      cases hfault : f.compress s.tick with
      | true =>
          rw [if_pos hfault] at htold
          obtain rfl : doCompress = true := by
            cases doCompress with
            | true => rfl
            | false => exact absurd (hfault.symm.trans (hio rfl)) (by decide)
          have hthrow : s.tryProcess Z f cd true = s.throw (.exception "compress") := by
            rw [tryProcess, if_pos rfl, if_pos hfault]
          have hmark : Broken Z f bs (mark f (s.throw (.exception "compress"))) :=
            broken_mark (htold rfl) hout
          rw [process_of_exception (by rw [hthrow]; rfl), hthrow]
          exact .broken (.inr ⟨_, hfault⟩) rfl (hmark.mono hpre)
      | false =>
          rw [if_neg (by rw [hfault]; exact Bool.false_ne_true)] at htold
          refine stage_writes hZ ht hfailed hout hb (tryProcess_eq ht ?_ (packed_spec hZ hb).verify)
            htold.1 htold.2
          rw [hfault]
          exact hcd

theorem Stage.throw {qs : List (Bool × Bytes)} (h : Stage Z f bs ps s) (hpre : bs <+: cs)
    (hfault : Faulty f) (e : Fault) :
    Stage Z f cs qs (s.throw e) := by
  cases h with
  | sent _ _ hout => exact .thrown bs hfault (Option.some_ne_none e) hpre hout
  | broken _ hfailed hb => exact .broken hfault hfailed ((hb.grows (grows_throw e s)).mono hpre)
  | thrown ds _ hne hds hout => exact .thrown ds hfault (Option.some_ne_none e) (hds.trans hpre) hout

theorem verifyPbsAndSalt_eq {h : LogPackHeader} (hpbs : h.pbs = pbs) (hsalt : h.salt = salt) :
    verifyPbsAndSalt pbs salt h = .ok () := by
  rw [verifyPbsAndSalt, if_neg (not_not.2 hpbs), if_neg (not_not.2 hsalt)]

variable {h : LogPackHeader} {r : WlogRecord} {io : Bytes}

theorem Stage.pushHeader (hZ : Z.Lawful) (hst : Stage Z f bs ((true, h.block) :: ps) s)
    (ht : s.thrown = none)
    (hpbs : h.pbs = pbs) (hsalt : h.salt = salt) (hb : Sendable h.block) :
    Stage Z f (bs ++ [h.block]) ps (s.pushHeader Z f pbs salt h) := by
  have htake : h.block.take pbs = h.block := List.take_of_length_le (h.length_block.trans hpbs).le
  rw [Sender.pushHeader, verifyPbsAndSalt_eq hpbs hsalt, htake, setUncompressed_eq hb]
  exact hst.process hZ ht hb (compressFrom_eq hZ hb) nofun

def ioPayloads (ios : List (WlogRecord × Bytes)) : List (Bool × Bytes) :=
  (payloads ios).map fun b => (false, b)

theorem Stage.pushIo (hZ : Z.Lawful) (hst : Stage Z f bs (ioPayloads [(r, io)] ++ ps) s)
    (ht : s.thrown = none)
    (hpbs : h.pbs = pbs) (hsalt : h.salt = salt) (hr : Fit pbs salt r io) :
    Stage Z f (bs ++ payloads [(r, io)]) ps (s.pushIo Z f pbs salt h r io) := by
  rw [Sender.pushIo, verifyPbsAndSalt_eq hpbs hsalt]
  dsimp only
  rw [ioPayloads] at hst
  cases hd : r.hasData with
  | false =>
      rw [payloads_cons_of_no_data hd] at hst ⊢
      change Stage Z f (bs ++ []) ps s
      rwa [List.append_nil]
  | true =>
      have hb := hr.sendable hd
      have hlen := hr.ioOf.length hd
      have htake : io.take (r.ioSizePb pbs * pbs % 2 ^ 32) = io := by
        rw [← hlen, Nat.mod_eq_of_lt hb.length_lt, List.take_length]
      rw [payloads_cons_of_data hd] at hst ⊢
      rw [if_pos rfl, htake, compressFrom_eq hZ hb]
      change Stage Z f (bs ++ [io]) ps _
      split_ifs with hfault
      · exact hst.throw (List.prefix_append _ _) (.inr ⟨_, hfault⟩) _
      · exact hst.process hZ ht hb rfl fun _ => Bool.eq_false_iff.2 hfault

theorem payloads_cons (io : WlogRecord × Bytes) (ios : List (WlogRecord × Bytes)) :
    payloads (io :: ios) = payloads [io] ++ payloads ios := by
  rw [payloads, payloads, payloads, ← List.filterMap_append]
  rfl

theorem Stage.pushIos (hZ : Z.Lawful) {rs : List WlogRecord} {ios : List Bytes}
    (hr : List.Forall₂ (Fit pbs salt) rs ios)
    (hpbs : h.pbs = pbs) (hsalt : h.salt = salt) (hst : Stage Z f bs (ioPayloads (rs.zip ios) ++ ps) s) :
    Stage Z f (bs ++ payloads (rs.zip ios)) ps (s.pushIos Z f pbs salt h (rs.zip ios)) := by
  induction hr generalizing bs s with
  | nil =>
      change Stage Z f (bs ++ []) ps s
      rwa [List.append_nil]
  | @cons r io rs ios hrio _ ih =>
      rw [List.zip_cons_cons, ioPayloads, payloads_cons, List.map_append, List.append_assoc] at hst
      rw [List.zip_cons_cons, payloads_cons, ← List.append_assoc, Sender.pushIos, List.foldl_cons]
      apply ih
      exact hst.andThen (List.prefix_append _ _) fun ht => hst.pushIo hZ ht hpbs hsalt hrio

def pushed (p : Pack) : List (Bool × Bytes) :=
  (true, p.header.block) :: ioPayloads (p.header.records.zip p.ios)

theorem Stage.pushPack (hZ : Z.Lawful) {p : Pack} (hp : Pushable pbs salt p)
    (hst : Stage Z f bs (pushed p ++ ps) s)
    (ht : s.thrown = none) : Stage Z f (bs ++ packPayloads p) ps (s.pushPack Z f pbs salt p) := by
  have hheader := Stage.pushHeader hZ hst ht hp.pbs_eq hp.salt_eq hp.block
  have hassoc : bs ++ packPayloads p = bs ++ [p.header.block] ++
      payloads (p.header.records.zip p.ios) := by
    rw [List.append_assoc]
    rfl
  rw [hassoc, Sender.pushPack]
  exact hheader.andThen (List.prefix_append _ _) fun _ => hheader.pushIos hZ hp.ios hp.pbs_eq hp.salt_eq

theorem Stage.pushPacks (hZ : Z.Lawful) {packs : List Pack} (hp : ∀ p, p ∈ packs → Pushable pbs salt p)
    (hst : Stage Z f bs (packs.flatMap pushed ++ ps) s) :
    Stage Z f (bs ++ packs.flatMap packPayloads) ps (s.pushPacks Z f pbs salt packs) := by
  induction packs generalizing bs s with
  | nil =>
      change Stage Z f (bs ++ []) ps s
      rwa [List.append_nil]
  | cons p packs ih =>
      obtain ⟨hp, hpacks⟩ := List.forall_mem_cons.1 hp
      rw [List.flatMap_cons, List.append_assoc] at hst
      rw [List.flatMap_cons, ← List.append_assoc, Sender.pushPacks, List.foldl_cons]
      apply ih hpacks
      exact hst.andThen (List.prefix_append _ _) fun ht => hst.pushPack hZ hp ht

/-- What the connection has taken when the caller has written `rest` behind the packs. -/
def whole (Z : Codecs) (f : Faults) (pbs salt : Nat) (packs : List Pack) (rest : Bytes) : Sender :=
  (session Z f pbs salt packs).andThen (write f rest)

/-- Without faults the sender does not fail. If it does not fail, the receiver gets the packs up to
the end mark, and leaves what is behind it; if it does, the receiver throws. -/
structure RoundTrips (Z : Codecs) (f : Faults) (pbs salt : Nat) (packs : List Pack) (rest : Bytes) :
    Prop where
  healthy : ¬Faulty f → (session Z f pbs salt packs).failed = false ∧
    (session Z f pbs salt packs).thrown = none
  received : (session Z f pbs salt packs).failed = false ∧ (session Z f pbs salt packs).thrown = none →
    ∃ tail, (whole Z f pbs salt packs rest).out = (session Z f pbs salt packs).out ++ tail ∧ ∀ fuel,
    packs.length < fuel →
      Receiver.receive Z pbs salt fuel ⟨(whole Z f pbs salt packs rest).out, none⟩ =
      .ok (packs, ⟨tail, some END⟩)
  refused : ¬((session Z f pbs salt packs).failed = false ∧ (session Z f pbs salt packs).thrown = none) →
    ∀ fuel, ∃ e, Receiver.receive Z pbs salt fuel ⟨(whole Z f pbs salt packs rest).out, none⟩ = .error e

theorem whole_of_thrown {packs : List Pack} (h : (session Z f pbs salt packs).thrown ≠ none)
    (rest : Bytes) :
    whole Z f pbs salt packs rest = session Z f pbs salt packs := by
  obtain ⟨e, he⟩ := Option.ne_none_iff_exists'.1 h
  rw [whole, andThen, he]

theorem Broken.stuck {packs : List Pack} (hZ : Z.Lawful) (hp : ∀ p, p ∈ packs → Pushable pbs salt p)
    (h : Broken Z f (packs.flatMap packPayloads) s) (fuel : Nat) :
    ∃ e, Receiver.receive Z pbs salt fuel ⟨s.out, none⟩ = .error e := by
  obtain ⟨cs, t, hcs, hout, hstuck, -⟩ := h
  rw [hout]
  exact receive_stuck hZ hp hcs hstuck fuel

/-- The packs can all be sent, and the receiver is told of the failures. -/
theorem roundTrips (hZ : Z.Lawful) {packs : List Pack} (hf : Told Z f 0 (packs.flatMap pushed))
    (hp : ∀ p, p ∈ packs → Pushable pbs salt p) (rest : Bytes) : RoundTrips Z f pbs salt packs rest := by
  have hstart : Stage Z f [] (packs.flatMap pushed ++ []) start :=
    .sent rfl rfl rfl (by rwa [List.append_nil])
  have hstage := hstart.pushPacks hZ hp
  rw [List.nil_append] at hstage
  have hsession : session Z f pbs salt packs = (start.pushPacks Z f pbs salt packs).andThen
    (sync f) := rfl
  have hcut {cs : List Bytes} (hcs : cs <+: packs.flatMap packPayloads) (fuel : Nat) :
      ∃ e, Receiver.receive Z pbs salt fuel ⟨frames Z cs, none⟩ = .error e := by
    have hstuck := receive_stuck hZ hp hcs stuck_nil fuel
    rwa [List.append_nil] at hstuck
  cases hstage with
  | sent hthrown hfailed hout =>
      rw [andThen, hthrown] at hsession
      dsimp only at hsession
      rcases write_cases f [END] (start.pushPacks Z f pbs salt packs) with ⟨-, hw⟩ | ⟨m, hm, hfail, hw⟩
      · rw [sync, hw] at hsession
        have hok : (session Z f pbs salt packs).failed = false ∧
            (session Z f pbs salt packs).thrown = none := by
          rw [hsession]
          exact ⟨hfailed, hthrown⟩
        refine ⟨fun _ => hok, fun _ => ?_, fun hn => absurd hok hn⟩
        obtain ⟨tail, htail, -⟩ := (grows_write (f := f) rest (session Z f pbs salt packs)).out
        have hwhole : (whole Z f pbs salt packs rest).out = (session Z f pbs salt packs).out ++
            tail := by
          rw [whole, andThen, hok.2]
          exact htail
        refine ⟨tail, hwhole, fun fuel hfuel => ?_⟩
        rw [hwhole, hsession]
        dsimp only
        rw [hout, List.append_assoc]
        exact receive_frames hZ hp tail hfuel
      · obtain rfl : m = 0 := Nat.lt_one_iff.1 hm
        rw [sync, hw] at hsession
        have hthrown' : (session Z f pbs salt packs).thrown ≠ none := by
          rw [hsession]
          exact Option.some_ne_none _
        refine ⟨fun hn => absurd hfail.faulty hn, fun hok => absurd hok.2 hthrown', fun _ fuel => ?_⟩
        rw [whole_of_thrown hthrown', hsession]
        dsimp only
        rw [hout, List.take_zero, List.append_nil]
        exact hcut List.prefix_rfl fuel
  | broken hfault hfailed hbroken =>
      have hgrows : Grows f (start.pushPacks Z f pbs salt packs) (session Z f pbs salt packs) := by
        rw [hsession]
        exact grows_andThen (Grows.refl _) fun s => grows_write [END] s
      have hwhole : Grows f (start.pushPacks Z f pbs salt packs) (whole Z f pbs salt packs rest) :=
        grows_andThen hgrows fun s => grows_write rest s
      have hfailed' := hgrows.failed hfailed
      refine ⟨fun hn => absurd hfault hn, fun hok => ?_, fun _ => (hbroken.grows hwhole).stuck hZ hp⟩
      rw [hfailed'] at hok
      cases hok.1
  | thrown cs hfault hne hcs hout =>
      obtain ⟨e, he⟩ := Option.ne_none_iff_exists'.1 hne
      rw [andThen, he] at hsession
      dsimp only at hsession
      refine ⟨fun hn => absurd hfault hn, fun hok => ?_, fun _ fuel => ?_⟩
      · rw [hsession] at hok
        exact absurd hok.2 hne
      · rw [whole_of_thrown (by rw [hsession]; exact hne), hsession, hout]
        exact hcut hcs fuel

/-- No record that carries data is empty. Such a record would be a padding. -/
def NoEmptyData (packs : List Pack) : Prop :=
  ∀ p, p ∈ packs → ∀ r, r ∈ p.header.records → r.hasData = true → 0 < r.ioSize

theorem pushable_of_valid (hpbs : BlockSize pbs) {p : Pack} (hp : p.Valid pbs salt)
    (hdata : ∀ r, r ∈ p.header.records → r.hasData = true → 0 < r.ioSize) : Pushable pbs salt p := by
  have hblock : Sendable p.header.block := by
    have hlen : p.header.block.length = pbs := p.header.length_block.trans hp.pbs_eq
    have hpos := hpbs.pos
    have hle := hpbs.le
    refine ⟨List.ne_nil_of_length_pos (by omega), by omega⟩
  have hrecs : ∀ r, r ∈ p.header.records → r.isValid = true ∧ (r.hasData = true → 0 < r.ioSize) :=
    fun r hr => ⟨LogPackHeader.isValid_of_mem hp.isValid hr, hdata r hr⟩
  refine ⟨hp.pbs_eq, hp.salt_eq, hp.isValid, hp.notEnd, hblock, ?_⟩
  refine ((List.forall₂_and_left _ _).2 ⟨hrecs, hp.ios⟩).imp fun r io h => ⟨h.2, fun hd => ?_⟩
  have hlen := h.2.length hd
  have hlt := ioSize_lt hpbs h.1.1 hd
  have hne : r.ioSizePb pbs ≠ 0 := fun hz => (h.1.2 hd).ne' (hpbs.capacityPb_eq_zero_iff.1 hz)
  have hpos : 0 < r.ioSizePb pbs * pbs := Nat.mul_pos (Nat.pos_of_ne_zero hne) hpbs.pos
  exact ⟨List.ne_nil_of_length_pos (by omega), by omega⟩

section Thrown

variable {α : Type} {g : α → Sender → Sender}

theorem thrown_foldl {l : List α} {e : Fault} (h : s.thrown = some e) :
    l.foldl (fun s a => s.andThen (g a)) s = s := by
  induction l with
  | nil => rfl
  | cons a l ih => rw [List.foldl_cons, andThen, h, ih]

theorem call_of_foldl {l : List α} (h : (l.foldl (fun s a => s.andThen (g a)) s).thrown = none)
    {a : α} (ha : a ∈ l) :
    ∃ s', (g a s').thrown = none := by
  induction l generalizing s with
  | nil => exact absurd ha List.not_mem_nil
  | cons b l ih =>
      rw [List.foldl_cons] at h
      rcases List.mem_cons.1 ha with rfl | ha
      · refine ⟨s, ?_⟩
        by_contra hne
        have hstep : (s.andThen (g a)).thrown ≠ none := by
          rw [andThen]
          split
          · rename_i he
            rw [he]
            exact Option.some_ne_none _
          · exact hne
        obtain ⟨e, he⟩ := Option.ne_none_iff_exists'.1 hstep
        rw [thrown_foldl he] at h
        exact hstep h
      · exact ih h ha

theorem thrown_of_andThen {g : Sender → Sender} (h : (s.andThen g).thrown = none) : s.thrown = none := by
  rw [andThen] at h
  split at h
  · exact h
  · assumption

end Thrown

theorem pushIo_empty (hpbs : BlockSize pbs) (hd : r.hasData = true) (hz : r.ioSize = 0) :
    (s.pushIo Z f pbs salt h r io).thrown ≠ none := by
  have hsize : r.ioSizePb pbs = 0 := hpbs.capacityPb_eq_zero_iff.2 hz
  rw [Sender.pushIo]
  split
  · exact Option.some_ne_none _
  · rw [if_pos hd, hsize, Nat.zero_mul, Nat.zero_mod, List.take_zero, compressFrom_nil]
    split_ifs
    · exact Option.some_ne_none _
    · exact Option.some_ne_none _

theorem noEmptyData_of_session (hpbs : BlockSize pbs) {packs : List Pack}
    (hp : ∀ p, p ∈ packs → p.Valid pbs salt)
    (hs : (session Z f pbs salt packs).thrown = none) : NoEmptyData packs := by
  intro p hmem r hr hd
  by_contra hz
  obtain ⟨s₁, hs₁⟩ := call_of_foldl (thrown_of_andThen hs) hmem
  have hlen := (hp p hmem).ios.length_eq
  obtain ⟨i, hi, rfl⟩ := List.mem_iff_getElem.1 hr
  have hi' : i < p.ios.length := hlen ▸ hi
  have hzip : (p.header.records[i], p.ios[i]) ∈ p.header.records.zip p.ios := by
    rw [← List.getElem_zip (h := by rw [List.length_zip]; omega)]
    exact List.getElem_mem _
  rw [pushPack, andThen] at hs₁
  split at hs₁
  · rename_i he
    rw [he] at hs₁
    cases hs₁
  · obtain ⟨s₂, hs₂⟩ := call_of_foldl hs₁ hzip
    exact pushIo_empty hpbs hd (Nat.eq_zero_of_not_pos hz) hs₂

end Sender

open Sender

theorem told_of_dead {Z : Codecs} {f : Faults} (h : ∀ i n, Fails f i n → Dead f (i + 1)) (i : Nat)
    (ps : List (Bool × Bytes)) :
    Told Z f i ps := by
  induction ps generalizing i with
  | nil => trivial
  | cons p ps ih =>
      rw [Told]
      split_ifs
      · exact fun _ => h i 1
      · exact ⟨fun _ => h (i + 1) 1, fun _ => ⟨fun j n _ => h (i + 1 + j) n, ih (i + 4)⟩⟩

theorem not_fails_of_none {f : Faults} {i : Nat} (h : f.write i = none) (n : Nat) : ¬Fails f i n := by
  rintro ⟨k, hk, -⟩
  cases h.symm.trans hk

/-- The packs are received as they were sent or the receiver throws, for all faults that it is
told of, exactly when no padding of size zero is among the records. -/
theorem round_trips_iff {Z : Codecs} (hZ : Z.Lawful) {pbs salt : Nat} (hpbs : BlockSize pbs)
    {packs : List Pack}
    (hp : ∀ p, p ∈ packs → p.Valid pbs salt) :
    (∀ f rest, Told Z f 0 (packs.flatMap pushed) → RoundTrips Z f pbs salt packs rest) ↔
      NoEmptyData packs := by
  constructor
  · intro h
    have htold : Told Z ⟨fun _ => none, fun _ => false⟩ 0 (packs.flatMap pushed) :=
      told_of_dead (fun i n hf => absurd hf (not_fails_of_none rfl n)) 0 _
    have hfault : ¬Faulty ⟨fun _ => none, fun _ => false⟩ := by
      rintro (⟨i, hi⟩ | ⟨i, hi⟩)
      · exact hi rfl
      · cases hi
    exact noEmptyData_of_session hpbs hp ((h _ [] htold).healthy hfault).2
  · intro h f rest hf
    exact roundTrips hZ hf (fun p hmem => pushable_of_valid hpbs (hp p hmem) (h p hmem)) rest

def paddingFields (checksum sizeLb : Nat) : List (Nat × Nat) :=
  [(4, checksum), (2, SECTOR_TYPE_LOGPACK), (2, sizeLb), (8, 100), (2, 1), (2, 1), (4, 0), (4, 0),
    (4, 3), (8, 0), (4, sizeLb),
    (2, 1), (2, 0), (8, 101)]

def paddingBlock (checksum sizeLb : Nat) : Bytes :=
  Layout.layout (paddingFields checksum sizeLb) ++ List.replicate 456 0

theorem length_paddingBlock (checksum sizeLb : Nat) : (paddingBlock checksum sizeLb).length = 512 := by
  rw [paddingBlock, List.length_append, Layout.length_layout, List.length_replicate]
  rfl

/-- A pack with a padding record of a size in logical blocks, for physical blocks of 512 bytes. -/
def paddingPack (sizeLb : Nat) (io : Bytes) : Pack :=
  ⟨⟨512, 0, paddingBlock (calcChecksum (paddingBlock 0 sizeLb) 0) sizeLb, length_paddingBlock _ _⟩, [io]⟩

def emptyPadding : Pack := paddingPack 0 []

def onePadding : Pack := paddingPack 1 (List.replicate 512 7)

theorem blockSize_lbs : BlockSize 512 := ⟨dvd_rfl, by decide, by decide⟩

theorem emptyPadding_valid : emptyPadding.Valid 512 0 := by
  have hrecs : emptyPadding.header.records = [⟨0, 3, 0, 0, 1, 101⟩] := by decide +kernel
  refine ⟨rfl, rfl, by decide +kernel, by decide +kernel, ?_⟩
  rw [hrecs]
  exact .cons ⟨by decide, by decide, by decide⟩ .nil

theorem onePadding_valid : onePadding.Valid 512 0 := by
  have hrecs : onePadding.header.records = [⟨0, 3, 0, 1, 1, 101⟩] := by decide +kernel
  refine ⟨rfl, rfl, by decide +kernel, by decide +kernel, ?_⟩
  rw [hrecs]
  exact .cons ⟨by decide, by decide +kernel, by decide⟩ .nil

theorem pushed_onePadding : [onePadding].flatMap pushed =
    [(true, onePadding.header.block), (false, List.replicate 512 7)] := by
  have hdata : payloads (onePadding.header.records.zip onePadding.ios) =
    [List.replicate 512 7] := by decide +kernel
  rw [List.flatMap_singleton, pushed, ioPayloads, hdata]
  rfl

/-- Nothing fails, the connection is lost within the data, or the first byte of the data's frame is
not taken and the error mark is. -/
theorem round_trips_one :
    RoundTrips .declining ⟨fun _ => none, fun _ => false⟩ 512 0 [onePadding] [] ∧
      RoundTrips .declining ⟨fun i => if i < 7 then none
      else some 0, fun _ => false⟩ 512 0 [onePadding] [] ∧
      RoundTrips .declining ⟨fun i => if i = 4 then some 0
      else none, fun _ => false⟩ 512 0 [onePadding] [] := by
  have hvalid : ∀ p, p ∈ [onePadding] → p.Valid 512 0 := by
    intro p hp
    rw [List.mem_singleton.1 hp]
    exact onePadding_valid
  have hdata : NoEmptyData [onePadding] := by
    intro p hp
    rw [List.mem_singleton.1 hp]
    decide +kernel
  have hall := (round_trips_iff Codecs.lawful_declining blockSize_lbs hvalid).2 hdata
  refine ⟨hall _ [] (told_of_dead ?_ 0 _), hall _ [] (told_of_dead ?_ 0 _), hall _ [] ?_⟩
  · exact fun i n hf => absurd hf (not_fails_of_none rfl n)
  · rintro i n ⟨k, hk, -⟩ j hij
    dsimp only at hk ⊢
    split_ifs at hk with hlt
    exact if_neg (by omega)
  · have hnone : ∀ i n, i ≠ 4 → ¬Fails ⟨fun i => if i = 4 then some 0
      else none, fun _ => false⟩ i n := fun i n hi =>
      not_fails_of_none (if_neg hi) n
    rw [pushed_onePadding, Told, if_neg Bool.false_ne_true, Told, if_neg Bool.false_ne_true]
    refine ⟨fun hf => absurd hf (hnone 0 1 (by decide)),
      fun _ => ⟨fun j n hj hf => ?_, ?_, fun hf => ?_⟩⟩
    · have hlt : j < 3 := (List.getElem?_eq_some_iff.1 hj).1
      exact absurd hf (hnone _ n (by omega))
    · exact fun _ hf => absurd hf (hnone 5 1 (by decide))
    · exact absurd ⟨0, rfl, by decide⟩ hf

/-- The write of the padding data fails one byte before its end, and the next one succeeds. -/
def lateFault : Faults := ⟨fun i => if i = 7 then some 511 else none, fun _ => false⟩

/-- An empty padding crashes the sender; and the error mark behind a part of a padding's data is
taken for the rest of it. -/
theorem padding_breaks_stream :
    (emptyPadding.Valid 512 0 ∧
        (session .declining ⟨fun _ => none, fun _ => false⟩ 512 0 [emptyPadding]).thrown = some .segv) ∧
      onePadding.Valid 512 0 ∧ (session .declining lateFault 512 0 [onePadding]).failed = true ∧
      ∃ packs r, Receiver.receive .declining 512 0 2 ⟨(whole .declining
      lateFault 512 0 [onePadding] []).out, none⟩ = .ok (packs, r) := by
  have hok : (Receiver.receive .declining 512 0 2 ⟨(whole .declining
      lateFault 512 0 [onePadding] []).out, none⟩).isOk = true := by
    decide +kernel
  refine ⟨⟨emptyPadding_valid, by decide +kernel⟩, onePadding_valid, by decide +kernel, ?_⟩
  cases hrec : Receiver.receive .declining 512 0 2 ⟨(whole .declining
    lateFault 512 0 [onePadding] []).out, none⟩ with
  | ok x => exact ⟨x.1, x.2, rfl⟩
  | error e =>
      rw [hrec] at hok
      cases hok

end WalbTools.WlogNet
