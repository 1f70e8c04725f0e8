import WalbTools.AioUtil

namespace WalbTools.WldevReader

open Overlay AioUtil

structure RingBufferForSeqRead where
  size : Nat
  aheadOff : Nat
  readOff : Nat
  isFull : Bool
  readableSize : Nat

namespace RingBufferForSeqRead

def init (size : Nat) : RingBufferForSeqRead := ⟨size, 0, 0, false, 0⟩

def reset (b : RingBufferForSeqRead) : RingBufferForSeqRead := init b.size

def getFreeSize (b : RingBufferForSeqRead) : Nat :=
  if b.isFull then 0
  else if b.aheadOff = b.readOff then b.size
  else if b.readOff < b.aheadOff then b.readOff + b.size - b.aheadOff
  else b.readOff - b.aheadOff

def getAvailableSize (b : RingBufferForSeqRead) : Nat := min b.getFreeSize (b.size - b.aheadOff)

/-- The offset of the area and the buffer after it; none where an assertion fails. -/
def prepare (b : RingBufferForSeqRead) (size : Nat) : Option (Nat × RingBufferForSeqRead) :=
  if 0 < size ∧ size ≤ b.getAvailableSize then
    let aheadOff := (b.aheadOff + size) % b.size
    some (b.aheadOff, { b with aheadOff := aheadOff, isFull := b.isFull || aheadOff = b.readOff })
  else none

def complete (b : RingBufferForSeqRead) (size : Nat) : RingBufferForSeqRead :=
  { b with readableSize := b.readableSize + size }

/-- The offset and the size of what is consumed; none where the copy leaves the buffer. -/
def consume (b : RingBufferForSeqRead) (size : Nat) : Option (Nat × Nat × RingBufferForSeqRead) :=
  let s := min size b.readableSize
  if b.readOff + s ≤ b.size then
    some (b.readOff, s, { b with
      readOff := (b.readOff + s) % b.size
      readableSize := b.readableSize - s
      isFull := false })
  else none

end RingBufferForSeqRead

/-- What the readers know of the log device. Sizes and offsets of the device are in
physical blocks. -/
structure Wldev (γ : Type) where
  pbs : Nat
  ringBufferOffset : Nat
  ringBufferSize : Nat
  device : Nat → γ

def INVALID_LSID : Nat := 2 ^ 64 - 1

namespace Wldev

variable {γ : Type}

def getOffsetFromLsid (v : Wldev γ) (lsid : Nat) : Option Nat :=
  if lsid = INVALID_LSID then none
  else if v.ringBufferSize = 0 then none
  else some (lsid % v.ringBufferSize + v.ringBufferOffset)

end Wldev

structure AsyncWldevReader (γ : Type) where
  maxIoSize : Nat
  aio : Aio Nat γ
  aheadLsid : Nat
  ringBuf : RingBufferForSeqRead
  ioQ : List (Nat × Nat)
  readAheadPb : Nat

section Async

variable {γ : Type} (v : Wldev γ)

def verifyMultiple (size pbs : Nat) : Bool := size ≠ 0 && size % pbs = 0

def asyncWldevReader (bufferSize maxIoSize : Nat) (buf : Nat → γ) (schedule : Nat → List Completion) :
    Option (AsyncWldevReader γ) :=
  if verifyMultiple bufferSize v.pbs ∧ verifyMultiple maxIoSize v.pbs then
    some ⟨maxIoSize, .init (bufferSize / v.pbs + 1) buf schedule, 0, .init bufferSize, [], 2 ^ 64 - 1⟩
  else none

namespace AsyncWldevReader

def decideIoSize (r : AsyncWldevReader γ) : Nat :=
  if r.ringBuf.getFreeSize < r.maxIoSize then 0
  else
    let s := v.ringBufferSize - r.aheadLsid % v.ringBufferSize
    min (min (r.maxIoSize / v.pbs) s * v.pbs) r.ringBuf.getAvailableSize

def prepareAheadIo (r : AsyncWldevReader γ) : Option (Bool × AsyncWldevReader γ) :=
  if r.aio.isQueueFull then some (false, r)
  else if r.readAheadPb = 0 then some (false, r)
  else if r.decideIoSize v = 0 then some (false, r)
  else do
    let ioSize := r.decideIoSize v
    let (ptr, ringBuf) ← r.ringBuf.prepare ioSize
    let offPb ← v.getOffsetFromLsid r.aheadLsid
    let ioPb := ioSize / v.pbs
    let (aioKey, aio) := r.aio.prepare (stretch ptr (slice v.device (offPb * v.pbs) ioSize))
    return (true, { r with
      ringBuf := ringBuf
      readAheadPb := r.readAheadPb - min ioPb r.readAheadPb
      aio := aio
      aheadLsid := r.aheadLsid + ioPb
      ioQ := r.ioQ ++ [(aioKey, ioSize)] })

def readAheadLoop : Nat → AsyncWldevReader γ → Option (AsyncWldevReader γ)
  | 0, _ => none
  | fuel + 1, r => do
      let (prepared, r) ← r.prepareAheadIo v
      if prepared then readAheadLoop fuel r else return r

def readAhead (r : AsyncWldevReader γ) : Option (AsyncWldevReader γ) :=
  readAheadLoop v (r.aio.queueSize + 1) r

def waitForIo (r : AsyncWldevReader γ) : Option (Nat × AsyncWldevReader γ) :=
  match r.ioQ with
  | [] => none
  | (key, size) :: ioQ => (r.aio.waitFor key).map fun aio => (size, { r with aio := aio, ioQ := ioQ })

/-- Past the last IO it throws "reached max read size.". -/
def prepareReadableData (r : AsyncWldevReader γ) : Option (AsyncWldevReader γ) :=
  if 0 < r.ringBuf.readableSize then some r
  else
    (if r.ioQ = [] then r.readAhead v else some r).bind fun r =>
      r.waitForIo.map fun (size, r) => { r with ringBuf := r.ringBuf.complete size }

def resetLoop (lsid maxSizePb : Nat) : Nat → AsyncWldevReader γ → Option (AsyncWldevReader γ)
  | 0, _ => none
  | fuel + 1, r =>
      if r.ioQ = [] then some { r with
        aheadLsid := lsid, ringBuf := r.ringBuf.reset, readAheadPb := maxSizePb }
      else do
        let (_, r) ← r.waitForIo
        resetLoop lsid maxSizePb fuel r

def reset (lsid maxSizePb : Nat) (r : AsyncWldevReader γ) : Option (AsyncWldevReader γ) :=
  resetLoop lsid maxSizePb (r.ioQ.length + 1) r

/-- The loop of `read` and of `skip`; each turn consumes something. -/
def consumeLoop (doCopy : Bool) : Nat → Nat → AsyncWldevReader γ → Option (List γ × AsyncWldevReader γ)
  | 0, _, _ => none
  | fuel + 1, size, r =>
      if size = 0 then some ([], r)
      else do
        let r ← r.prepareReadableData v
        let (ptr, s, ringBuf) ← r.ringBuf.consume size
        let data := if doCopy then slice r.aio.target ptr s else []
        let r ← { r with ringBuf := ringBuf }.readAhead v
        let (rest, r) ← consumeLoop doCopy fuel (size - s) r
        return (data ++ rest, r)

def read (size : Nat) (r : AsyncWldevReader γ) : Option (List γ × AsyncWldevReader γ) :=
  consumeLoop v true (size + 1) size r

def skip (size : Nat) (r : AsyncWldevReader γ) : Option (AsyncWldevReader γ) :=
  (consumeLoop v false (size + 1) size r).map Prod.snd

end AsyncWldevReader

end Async

/-- `pos` is the position of the file, in bytes. -/
structure SimpleWldevReader where
  lsid : Nat
  pos : Nat

namespace SimpleWldevReader

variable {γ : Type} (v : Wldev γ)

def seek (r : SimpleWldevReader) : Option SimpleWldevReader :=
  (v.getOffsetFromLsid r.lsid).map fun offPb => { r with pos := offPb * v.pbs }

def reset (lsid : Nat) (r : SimpleWldevReader) : Option SimpleWldevReader :=
  { r with lsid := lsid }.seek v

def readBlock (r : SimpleWldevReader) : Option (List γ × SimpleWldevReader) :=
  let r' : SimpleWldevReader := ⟨r.lsid + 1, r.pos + v.pbs⟩
  (if r'.lsid % v.ringBufferSize = 0 then r'.seek v else some r').map fun r' =>
    (slice v.device r.pos v.pbs, r')

def readPbLoop : Nat → SimpleWldevReader → Option (List γ × SimpleWldevReader)
  | 0, r => some ([], r)
  | sizePb + 1, r => do
      let (data, r) ← r.readBlock v
      let (rest, r) ← readPbLoop sizePb r
      return (data ++ rest, r)

/-- `verifySizePb` throws for what is not smaller than the ring. -/
def readPb (sizePb : Nat) (r : SimpleWldevReader) : Option (List γ × SimpleWldevReader) :=
  if sizePb = 0 then some ([], r) else if v.ringBufferSize ≤ sizePb then none else readPbLoop v sizePb r

def skipPb (sizePb : Nat) (r : SimpleWldevReader) : Option SimpleWldevReader :=
  if sizePb = 0 then some r
  else if v.ringBufferSize ≤ sizePb then none
  else { r with lsid := r.lsid + sizePb }.seek v

def read (size : Nat) (r : SimpleWldevReader) : Option (List γ × SimpleWldevReader) :=
  if size % v.pbs = 0 then readPb v (size / v.pbs) r else none

def skip (size : Nat) (r : SimpleWldevReader) : Option SimpleWldevReader :=
  if size % v.pbs = 0 then skipPb v (size / v.pbs) r else none

end SimpleWldevReader

theorem add_mod_ring {n c d : Nat} (hn : 0 < n) (hd : d ≤ n) :
    (c + d) % n = if c % n + d < n then c % n + d else c % n + d - n := by
  have hc := Nat.mod_lt c hn
  rw [← Nat.mod_add_mod]
  split
  next h => exact Nat.mod_eq_of_lt h
  next h => rw [Nat.mod_eq_sub_mod (Nat.not_lt.mp h), Nat.mod_eq_of_lt (by omega)]

/-- Places of the ring that are less than one turn apart are different. -/
theorem mod_ne_of_lt {n x y : Nat} (hxy : x < y) (hyx : y < x + n) : x % n ≠ y % n := by
  have hn : 0 < n := by omega
  have hy : y = x + (y - x) := by omega
  have hx := Nat.mod_lt x hn
  rw [hy, add_mod_ring hn (by omega)]
  split <;> omega

/-- `c` bytes have been consumed, `d` completed and `a` submitted. -/
structure RingBufferForSeqRead.At (b : RingBufferForSeqRead) (c d a : Nat) : Prop where
  pos : 0 < b.size
  readOff : b.readOff = c % b.size
  aheadOff : b.aheadOff = a % b.size
  completed : c ≤ d
  submitted : d ≤ a
  window : a ≤ c + b.size
  full : b.isFull = decide (a = c + b.size)
  readable : b.readableSize = d - c
  contiguous : b.readOff + b.readableSize ≤ b.size

namespace RingBufferForSeqRead

variable {b : RingBufferForSeqRead} {c d a size : Nat}

theorem At.init (hs : 0 < size) : At (init size) 0 0 0 where
  pos := hs
  readOff := (Nat.zero_mod _).symm
  aheadOff := (Nat.zero_mod _).symm
  completed := le_rfl
  submitted := le_rfl
  window := Nat.zero_le _
  full := (decide_eq_false (by rw [Nat.zero_add]; exact hs.ne)).symm
  readable := rfl
  contiguous := Nat.zero_le _

theorem At.aheadOff_eq (h : At b c d a) :
    b.aheadOff = if b.readOff + (a - c) < b.size then b.readOff + (a - c)
      else b.readOff + (a - c) - b.size := by
  have hle := h.completed.trans h.submitted
  have hw := h.window
  rw [h.aheadOff, h.readOff, ← add_mod_ring h.pos (by omega)]
  congr 1
  omega

theorem At.readOff_lt (h : At b c d a) : b.readOff < b.size := by
  rw [h.readOff]
  exact Nat.mod_lt _ h.pos

theorem At.getFreeSize_eq (h : At b c d a) : b.getFreeSize = c + b.size - a := by
  have ha := h.aheadOff_eq
  have hr := h.readOff_lt
  have hle := h.completed.trans h.submitted
  have hw := h.window
  have hpos := h.pos
  rw [getFreeSize, h.full]
  simp only [decide_eq_true_eq]
  split at ha <;> split_ifs <;> omega

theorem At.prepare (h : At b c d a) (hpos : 0 < size) (hsize : size ≤ b.getAvailableSize) :
    ∃ b', b.prepare size = some (a % b.size, b') ∧ At b' c d (a + size) ∧ b'.size = b.size := by
  have hfree := h.getFreeSize_eq
  have hle := h.completed.trans h.submitted
  have hw := h.window
  have hsub := h.submitted
  rw [getAvailableSize, hfree] at hsize
  have hsize' : size ≤ c + b.size - a := hsize.trans (min_le_left _ _)
  have hmod : (b.aheadOff + size) % b.size = (a + size) % b.size := by rw [h.aheadOff, Nat.mod_add_mod]
  rw [RingBufferForSeqRead.prepare, if_pos ⟨hpos, by rwa [getAvailableSize, hfree]⟩]
  dsimp only
  rw [hmod, h.aheadOff]
  refine ⟨_, rfl, ⟨h.pos, h.readOff, rfl, h.completed, by omega, by dsimp only; omega, ?_,
    h.readable, h.contiguous⟩,
    rfl⟩
  have hiff : (a + size) % b.size = b.readOff ↔ a + size = c + b.size := by
    rw [h.readOff]
    constructor
    · intro heq
      by_contra hne
      exact mod_ne_of_lt (by omega) (by omega) heq.symm
    · intro heq
      rw [heq, Nat.add_mod_right]
  dsimp only
  rw [h.full, decide_eq_false (by omega : ¬ a = c + b.size), Bool.false_or]
  exact decide_eq_decide.mpr hiff

theorem At.complete (h : At b c c a) (hsize : size ≤ a - c) (hedge : c % b.size + size ≤ b.size) :
    At (b.complete size) c (c + size) a := by
  have hw := h.submitted
  have hr := h.readable
  refine ⟨h.pos, h.readOff, h.aheadOff, Nat.le_add_right _ _, by omega, h.window, h.full, ?_, ?_⟩
  · simp only [RingBufferForSeqRead.complete]
    omega
  · simp only [RingBufferForSeqRead.complete]
    rw [h.readOff, hr, Nat.sub_self, Nat.zero_add]
    exact hedge

theorem At.consume (h : At b c d a) (hpos : 0 < size) (hd : c < d) :
    ∃ b', b.consume size = some (c % b.size, min size (d - c), b') ∧ At b' (c + min size (d - c)) d a ∧
      b'.size = b.size := by
  have hr := h.readable
  have hcont := h.contiguous
  have hw := h.window
  have hs := h.submitted
  have hle : min size b.readableSize ≤ b.readableSize := min_le_right _ _
  have hmin : 0 < min size (d - c) := by omega
  rw [RingBufferForSeqRead.consume, if_pos (by omega)]
  rw [hr] at hle ⊢
  rw [h.readOff] at hcont ⊢
  refine ⟨_, rfl, ⟨h.pos, ?_, h.aheadOff, by omega, hs, by dsimp only; omega, ?_, ?_, ?_⟩, rfl⟩
  · dsimp only
    rw [Nat.mod_add_mod]
  · dsimp only
    exact (decide_eq_false (by omega)).symm
  · dsimp only
    omega
  · have hedge := Nat.mod_lt (c % b.size + min size (d - c)) h.pos
    dsimp only
    rcases Nat.lt_or_ge (c % b.size + min size (d - c)) b.size with hlt | hge
    · rw [Nat.mod_eq_of_lt hlt]
      omega
    · omega

end RingBufferForSeqRead

variable {γ : Type}

/-- The byte at `pos` of the log, the first one being that of the lsid 0. -/
def logByte (v : Wldev γ) (pos : Nat) : γ :=
  v.device ((pos / v.pbs % v.ringBufferSize + v.ringBufferOffset) * v.pbs + pos % v.pbs)

theorem slice_device {v : Wldev γ} (hp : 0 < v.pbs) {lsid size : Nat}
    (hsize : size ≤ (v.ringBufferSize - lsid % v.ringBufferSize) * v.pbs) :
    slice v.device ((lsid % v.ringBufferSize + v.ringBufferOffset) * v.pbs) size =
      slice (logByte v) (lsid * v.pbs) size := by
  apply List.map_congr_left
  intro j hj
  have hj' := List.mem_range.mp hj
  have hdiv : (lsid * v.pbs + j) / v.pbs = lsid + j / v.pbs := by
    rw [Nat.add_comm, Nat.add_mul_div_right _ _ hp, Nat.add_comm]
  have hmod : (lsid * v.pbs + j) % v.pbs = j % v.pbs := by rw [Nat.add_comm, Nat.add_mul_mod_self_right]
  have hblock : j / v.pbs < v.ringBufferSize - lsid % v.ringBufferSize := by
    rw [Nat.div_lt_iff_lt_mul hp]
    exact hj'.trans_le hsize
  have hring : (lsid + j / v.pbs) % v.ringBufferSize = lsid % v.ringBufferSize + j / v.pbs := by
    rw [← Nat.mod_add_mod]
    exact Nat.mod_eq_of_lt (Nat.add_lt_of_lt_sub' hblock)
  rw [logByte, hdiv, hmod, hring]
  congr 1
  have hj₂ := Nat.div_add_mod' j v.pbs
  calc (lsid % v.ringBufferSize + v.ringBufferOffset) * v.pbs + j
      = (lsid % v.ringBufferSize + v.ringBufferOffset) * v.pbs +
        (j / v.pbs * v.pbs + j % v.pbs) := by rw [hj₂]
    _ = (lsid % v.ringBufferSize + j / v.pbs + v.ringBufferOffset) * v.pbs + j % v.pbs := by ring

theorem slice_add {img : Nat → γ} {pos m n : Nat} :
    slice img pos (m + n) = slice img pos m ++ slice img (pos + m) n := by
  rw [slice, List.range_add, List.map_append, List.map_map]
  congr 1
  apply List.map_congr_left
  intro k _
  rw [Function.comp, Nat.add_assoc]

/-- The IOs of the queue read the log from `d` on up to `a`, into the ring. -/
def Queue (v : Wldev γ) (n org : Nat) (owes : Nat → Nat → Option γ) : Nat → List (Nat × Nat) → Nat → Prop
  | d, [], a => d = a
  | d, (key, size) :: q, a =>
      0 < size ∧ d % n + size ≤ n ∧ owes key = stretch (d % n) (slice (logByte v) (org + d) size) ∧
        Queue v n org owes (d + size) q a

namespace Queue

variable {v : Wldev γ} {n org d a : Nat} {owes owes' : Nat → Nat → Option γ} {q : List (Nat × Nat)}

theorem le (h : Queue v n org owes d q a) : d ≤ a := by
  induction q generalizing d with
  | nil => exact h.le
  | cons io q ih => exact (Nat.le_add_right _ _).trans (ih h.2.2.2)

theorem congr (h : Queue v n org owes d q a) (heq : ∀ io ∈ q, owes' io.1 = owes io.1) :
    Queue v n org owes' d q a := by
  induction q generalizing d with
  | nil => exact h
  | cons io q ih =>
      obtain ⟨hpos, hedge, howes, hq⟩ := h
      exact ⟨hpos, hedge, (heq io List.mem_cons_self).trans howes,
        ih hq fun io' h' => heq io' (List.mem_cons_of_mem _ h')⟩

theorem concat (h : Queue v n org owes d q a) {key size : Nat} (hpos : 0 < size)
    (hedge : a % n + size ≤ n)
    (howes : owes key = stretch (a % n) (slice (logByte v) (org + a) size)) :
    Queue v n org owes d (q ++ [(key, size)]) (a + size) := by
  induction q generalizing d with
  | nil =>
      cases h
      exact ⟨hpos, hedge, howes, rfl⟩
  | cons io q ih => exact ⟨h.1, h.2.1, h.2.2.1, ih h.2.2.2⟩

theorem mem (h : Queue v n org owes d q a) {key : Nat} (hkey : key ∈ q.map Prod.fst) :
    ∃ s size, d ≤ s ∧ s + size ≤ a ∧ s % n + size ≤ n ∧
      owes key = stretch (s % n) (slice (logByte v) (org + s) size) := by
  induction q generalizing d with
  | nil => exact absurd hkey List.not_mem_nil
  | cons io q ih =>
      obtain ⟨hpos, hedge, howes, hq⟩ := h
      rw [List.map_cons, List.mem_cons] at hkey
      rcases hkey with rfl | hkey
      · exact ⟨d, io.2, le_rfl, hq.le, hedge, howes⟩
      · obtain ⟨s, size, hs, rest⟩ := ih hq hkey
        exact ⟨s, size, (Nat.le_add_right _ _).trans hs, rest⟩

end Queue

/-- Parts of the ring that were submitted less than a turn apart do not meet. -/
theorem disjoint_stretch {n s t : Nat} {l m : List γ} (hn : 0 < n) (ht : t % n + m.length ≤ n)
    (hst : s + l.length ≤ t) (hts : t + m.length ≤ s + n) :
    Disjoint (stretch (t % n) m) (stretch (s % n) l) := by
  intro x
  rw [stretch_eq_none_iff, stretch_eq_none_iff]
  have ht' : t % n = if s % n + (t - s) < n then s % n + (t - s) else s % n + (t - s) - n := by
    rw [← add_mod_ring hn (by omega)]
    congr 1
    omega
  split at ht' <;> omega

/-- `verifyMultiple` and, besides, that an IO fits into the buffer. -/
structure Sizes (v : Wldev γ) (bufferSize maxIoSize : Nat) : Prop where
  pbs : 0 < v.pbs
  ring : 0 < v.ringBufferSize
  buffer : v.pbs ∣ bufferSize
  io_pos : 0 < maxIoSize
  io : v.pbs ∣ maxIoSize
  io_le : maxIoSize ≤ bufferSize

/-- The log was reset to the byte `org`; at most `maxPb` blocks are to be read. -/
structure Inv (v : Wldev γ) (r : AsyncWldevReader γ) (org maxPb c d a : Nat)
    (owes : Nat → Nat → Option γ) :
    Prop where
  sizes : Sizes v r.ringBuf.size r.maxIoSize
  ring : r.ringBuf.At c d a
  ok : r.aio.Ok owes []
  capacity : 0 < r.aio.queueSize
  keys : r.aio.keys.Perm (r.ioQ.map Prod.fst)
  queue : Queue v r.ringBuf.size org owes d r.ioQ a
  ahead : r.aheadLsid * v.pbs = org + a
  aligned : v.pbs ∣ a
  left : r.readAheadPb = maxPb - a / v.pbs
  data : ∀ k, k < d - c → r.aio.target (c % r.ringBuf.size + k) = logByte v (org + c + k)

variable {v : Wldev γ} {r : AsyncWldevReader γ} {org maxPb c d a : Nat} {owes : Nat → Nat → Option γ}

def Valid (v : Wldev γ) (bufferSize org maxPb c : Nat) : Prop :=
  org + min (maxPb * v.pbs) (c + bufferSize) < INVALID_LSID * v.pbs

theorem Inv.decideIoSize (I : Inv v r org maxPb c d a owes) (h : r.decideIoSize v ≠ 0) :
    v.pbs ∣ r.decideIoSize v ∧ r.decideIoSize v ≤ r.ringBuf.getAvailableSize ∧
      r.decideIoSize v ≤ (v.ringBufferSize - r.aheadLsid % v.ringBufferSize) * v.pbs := by
  have hfree := I.ring.getFreeSize_eq
  rw [AsyncWldevReader.decideIoSize] at h ⊢
  split at h
  · exact absurd rfl h
  next hlt =>
    rw [if_neg hlt]
    dsimp only
    refine ⟨?_, min_le_right _ _, (min_le_left _ _).trans (Nat.mul_le_mul_right _ (min_le_right _ _))⟩
    -- the free size is no limit, since it is not less than the largest IO
    have hio : min (r.maxIoSize / v.pbs) (v.ringBufferSize -
        r.aheadLsid % v.ringBufferSize) * v.pbs ≤ r.maxIoSize :=
      (Nat.mul_le_mul_right _ (min_le_left _ _)).trans (Nat.div_mul_le_self _ _)
    have hmin : min (min (r.maxIoSize / v.pbs) (v.ringBufferSize -
        r.aheadLsid % v.ringBufferSize) * v.pbs)
          r.ringBuf.getAvailableSize =
          min (min (r.maxIoSize / v.pbs) (v.ringBufferSize - r.aheadLsid % v.ringBufferSize) * v.pbs)
            (r.ringBuf.size - r.ringBuf.aheadOff) := by
      rw [RingBufferForSeqRead.getAvailableSize, ← min_assoc,
        min_eq_left (hio.trans (Nat.not_lt.mp hlt))]
    have hahead : v.pbs ∣ r.ringBuf.aheadOff := by
      rw [I.ring.aheadOff]
      exact (Nat.dvd_mod_iff I.sizes.buffer).mpr I.aligned
    rw [hmin]
    rcases min_choice (min (r.maxIoSize / v.pbs) (v.ringBufferSize -
      r.aheadLsid % v.ringBufferSize) * v.pbs)
      (r.ringBuf.size - r.ringBuf.aheadOff) with h | h <;> rw [h]
    · exact Nat.dvd_mul_left _ _
    · exact Nat.dvd_sub I.sizes.buffer hahead

theorem Inv.decideIoSize_ne_zero (I : Inv v r org maxPb c d a owes)
    (hfree : r.maxIoSize ≤ r.ringBuf.getFreeSize) : r.decideIoSize v ≠ 0 := by
  have hlt : r.ringBuf.aheadOff < r.ringBuf.size := by
    rw [I.ring.aheadOff]
    exact Nat.mod_lt _ I.ring.pos
  have hblocks : 0 < r.maxIoSize / v.pbs :=
    Nat.div_pos (Nat.le_of_dvd I.sizes.io_pos I.sizes.io) I.sizes.pbs
  have hedge : 0 < v.ringBufferSize - r.aheadLsid % v.ringBufferSize :=
    Nat.sub_pos_of_lt (Nat.mod_lt _ I.sizes.ring)
  have hio : 0 < min (r.maxIoSize / v.pbs) (v.ringBufferSize - r.aheadLsid % v.ringBufferSize) * v.pbs :=
    Nat.mul_pos (lt_min hblocks hedge) I.sizes.pbs
  rw [AsyncWldevReader.decideIoSize, if_neg (Nat.not_lt.mpr hfree)]
  apply Nat.ne_of_gt
  apply lt_min hio
  apply lt_min (I.sizes.io_pos.trans_le hfree)
  exact Nat.sub_pos_of_lt hlt

theorem Inv.aheadLsid_ne (I : Inv v r org maxPb c d a owes) (hv : Valid v r.ringBuf.size org maxPb c)
    (hleft : r.readAheadPb ≠ 0) : r.aheadLsid ≠ INVALID_LSID := by
  have hlt : a / v.pbs < maxPb := by
    have := I.left
    omega
  have h₁ : a < maxPb * v.pbs := by
    rw [← Nat.div_mul_cancel I.aligned]
    exact Nat.mul_lt_mul_of_pos_right hlt I.sizes.pbs
  have hahead := I.ahead
  have hwindow := I.ring.window
  rintro heq
  rw [heq] at hahead
  rw [Valid, hahead] at hv
  have : a ≤ min (maxPb * v.pbs) (c + r.ringBuf.size) := le_min h₁.le (by omega)
  omega

section Prepare

variable {ioSize : Nat} {ringBuf : RingBufferForSeqRead} (I : Inv v r org maxPb c d a owes)
  (hat : ringBuf.At c d (a + ioSize)) (hn : ringBuf.size = r.ringBuf.size)
  (hturn : a % r.ringBuf.size + ioSize ≤ r.ringBuf.size) (hfull : ¬r.aio.isQueueFull = true)

include I hat hn hturn hfull in
theorem Inv.ok_prepare :
    (r.aio.prepare (stretch (a % r.ringBuf.size) (slice (logByte v) (org + a) ioSize))).2.Ok
      (Function.update owes r.aio.nextKey (stretch (a % r.ringBuf.size)
        (slice (logByte v) (org + a) ioSize))) [] := by
  refine I.ok.prepare hfull _ fun k hk => ?_
  rw [List.append_nil] at hk
  obtain ⟨s, size, hs, hsa, hsn, howes⟩ := I.queue.mem (I.keys.mem_iff.mp hk)
  rw [howes]
  have hc := I.ring.completed
  have hwindow := hat.window
  rw [hn] at hwindow
  apply disjoint_stretch I.ring.pos
  · rwa [length_slice]
  · rwa [length_slice]
  · rw [length_slice]
    omega

include I hat hn hturn hfull in
theorem Inv.prepare (hpos : 0 < ioSize) (hdvd : v.pbs ∣ ioSize) :
    Inv v { r with
      ringBuf := ringBuf
      readAheadPb := r.readAheadPb - min (ioSize / v.pbs) r.readAheadPb
      aio := (r.aio.prepare (stretch (a % r.ringBuf.size) (slice (logByte v) (org + a) ioSize))).2
      aheadLsid := r.aheadLsid + ioSize / v.pbs
      ioQ := r.ioQ ++ [((r.aio.prepare (stretch (a % r.ringBuf.size)
        (slice (logByte v) (org + a) ioSize))).1, ioSize)] }
      org maxPb c d (a + ioSize)
      (Function.update owes r.aio.nextKey (stretch (a % r.ringBuf.size)
        (slice (logByte v) (org + a) ioSize))) := by
  have hok := I.ok_prepare hat hn hturn hfull
  have hkeys := Aio.keys_prepare hfull (stretch (a % r.ringBuf.size)
    (slice (logByte v) (org + a) ioSize))
  have hfresh : ∀ io ∈ r.ioQ, io.1 ≠ r.aio.nextKey := by
    intro io hio
    apply Nat.ne_of_lt
    apply I.ok.fresh
    rw [List.append_nil, I.keys.mem_iff]
    exact List.mem_map_of_mem hio
  rw [Aio.prepare_of_not_full hfull] at hok hkeys ⊢
  refine ⟨?_, hat, hok, I.capacity, ?_, ?_, ?_, Nat.dvd_add I.aligned hdvd, ?_, fun k hk => ?_⟩
  · dsimp only
    rw [hn]
    exact I.sizes
  · dsimp only
    rw [List.map_append, List.map_singleton]
    exact (hkeys.trans (I.keys.cons _)).trans (List.perm_append_singleton _ _).symm
  · dsimp only
    rw [hn]
    apply Queue.concat _ hpos hturn
    · exact Function.update_self _ _ _
    · apply I.queue.congr
      intro io hio
      exact Function.update_of_ne (hfresh io hio) _ _
  · dsimp only
    rw [Nat.add_mul, Nat.div_mul_cancel hdvd, I.ahead, Nat.add_assoc]
  · dsimp only
    rw [I.left, Nat.add_div_of_dvd_right I.aligned]
    omega
  · dsimp only
    rw [hn]
    exact I.data k hk

end Prepare

/-- One turn of `readAhead`: nothing changes when it has no room, no key or nothing to read. -/
theorem Inv.prepareAheadIo (I : Inv v r org maxPb c d a owes) (hv : Valid v r.ringBuf.size org maxPb c) :
    (r.prepareAheadIo v = some (false, r) ∧
      (r.aio.isQueueFull = true ∨ r.readAheadPb = 0 ∨ r.ringBuf.getFreeSize < r.maxIoSize)) ∨
    ∃ r' a' owes', r.prepareAheadIo v = some (true, r') ∧ Inv v r' org maxPb c d a' owes' ∧ r'.ioQ ≠ [] ∧
      r'.ringBuf.size = r.ringBuf.size ∧ r'.aio.queueSize = r.aio.queueSize ∧
      r'.aio.pendingIOs.length = r.aio.pendingIOs.length + 1 ∧ r.aio.isQueueFull = false := by
  rw [AsyncWldevReader.prepareAheadIo]
  by_cases hfull : r.aio.isQueueFull = true
  · exact .inl ⟨if_pos hfull, .inl hfull⟩
  by_cases hleft : r.readAheadPb = 0
  · exact .inl ⟨by rw [if_neg hfull, if_pos hleft], .inr (.inl hleft)⟩
  by_cases hsize : r.decideIoSize v = 0
  · refine .inl ⟨by rw [if_neg hfull, if_neg hleft, if_pos hsize], .inr (.inr ?_)⟩
    by_contra hfree
    exact I.decideIoSize_ne_zero (Nat.not_lt.mp hfree) hsize
  right
  rw [if_neg hfull, if_neg hleft, if_neg hsize]
  obtain ⟨hdvd, hav, hedge⟩ := I.decideIoSize hsize
  have hpos : 0 < r.decideIoSize v := Nat.pos_of_ne_zero hsize
  generalize r.decideIoSize v = ioSize at hdvd hav hedge hpos ⊢
  obtain ⟨ringBuf, hring, hat, hn⟩ := I.ring.prepare hpos hav
  have hturn : a % r.ringBuf.size + ioSize ≤ r.ringBuf.size := by
    have hfree : ioSize ≤ r.ringBuf.size - a % r.ringBuf.size := by
      rw [← I.ring.aheadOff]
      exact hav.trans (min_le_right _ _)
    have := Nat.mod_lt a I.ring.pos
    omega
  have hoff : v.getOffsetFromLsid r.aheadLsid = some (r.aheadLsid % v.ringBufferSize +
      v.ringBufferOffset) := by
    rw [Wldev.getOffsetFromLsid, if_neg (I.aheadLsid_ne hv hleft), if_neg I.sizes.ring.ne']
  have heffect : stretch (a % r.ringBuf.size)
      (slice v.device ((r.aheadLsid % v.ringBufferSize + v.ringBufferOffset) * v.pbs) ioSize) =
      stretch (a % r.ringBuf.size) (slice (logByte v) (org + a) ioSize) := by
    rw [slice_device I.sizes.pbs hedge, I.ahead]
  simp only [hring, hoff, Option.bind_eq_bind, Option.bind_some, Option.pure_def, heffect]
  have hI := I.prepare hat hn hturn hfull hpos hdvd
  rw [Aio.prepare_of_not_full hfull] at hI ⊢
  exact ⟨_, a + ioSize, _, rfl, hI, by simp, hn, rfl, by rw [List.length_append, List.length_singleton],
    by simpa using hfull⟩

theorem Inv.pending_le (I : Inv v r org maxPb c d a owes) : r.aio.pendingIOs.length ≤ r.ioQ.length := by
  have h := I.keys.length_eq
  rw [Aio.keys, List.length_append, List.length_map, List.length_map] at h
  omega

theorem Inv.readAheadLoop (I : Inv v r org maxPb c d a owes)
    (hv : Valid v r.ringBuf.size org maxPb c) (fuel : Nat)
    (hfuel : r.aio.queueSize < fuel + r.aio.pendingIOs.length) (hpos : 0 < fuel) :
    ∃ r' a' owes', r.readAheadLoop v fuel = some r' ∧ Inv v r' org maxPb c d a' owes' ∧
      r'.ringBuf.size = r.ringBuf.size ∧ r'.aio.queueSize = r.aio.queueSize ∧
      (r.ioQ ≠ [] → r'.ioQ ≠ []) ∧ (c = d → r.ioQ = [] → a < maxPb * v.pbs → r'.ioQ ≠ []) := by
  induction fuel generalizing r a owes with
  | zero => exact absurd hpos (Nat.lt_irrefl _)
  | succ fuel ih =>
      rw [AsyncWldevReader.readAheadLoop]
      rcases I.prepareAheadIo hv with ⟨h, hwhy⟩ | ⟨r₁, a₁, owes₁, h, I₁, hne, hn, hq, hlen, hfull⟩
      · rw [h]
        refine ⟨r, a, owes, rfl, I, rfl, rfl, id, ?_⟩
        intro hcd hnil ha
        rcases hwhy with hfull | hleft | hfree
        · have hp := I.pending_le
          have := I.capacity
          rw [Aio.isQueueFull, Aio.queueUsage, decide_eq_true_eq] at hfull
          rw [hnil, List.length_nil] at hp
          omega
        · have hlt : a / v.pbs < maxPb := by
            rw [Nat.div_lt_iff_lt_mul I.sizes.pbs]
            exact ha
          have := I.left
          omega
        · have had : d = a := by
            have := I.queue
            rwa [hnil] at this
          rw [I.ring.getFreeSize_eq, hcd, had, Nat.add_sub_cancel_left] at hfree
          exact absurd I.sizes.io_le (Nat.not_le.mpr hfree)
      · have hlt : r.aio.pendingIOs.length < r.aio.queueSize := by
          rw [Aio.isQueueFull, Aio.queueUsage, decide_eq_false_iff_not] at hfull
          omega
        rw [← hn] at hv
        obtain ⟨r', a', owes', h', I', hn', hq', hne', -⟩ := ih I₁ hv (by omega) (by omega)
        refine ⟨r', a', owes', ?_, I', hn'.trans hn, hq'.trans hq, fun _ => hne' hne,
          fun _ _ _ => hne' hne⟩
        rw [h, Option.bind_eq_bind, Option.bind_some]
        simp only [if_true]
        exact h'

theorem Inv.readAhead (I : Inv v r org maxPb c d a owes) (hv : Valid v r.ringBuf.size org maxPb c) :
    ∃ r' a' owes', r.readAhead v = some r' ∧ Inv v r' org maxPb c d a' owes' ∧
      r'.ringBuf.size = r.ringBuf.size ∧ (c = d → r.ioQ = [] → a < maxPb * v.pbs → r'.ioQ ≠ []) := by
  obtain ⟨r', a', owes', h, I', hn, -, -, hne⟩ :=
    I.readAheadLoop hv (r.aio.queueSize + 1) (by omega) (by omega)
  exact ⟨r', a', owes', h, I', hn, hne⟩

/-- Nothing is left of the IO before, and the next one is waited for. -/
theorem Inv.waitForIo (I : Inv v r org maxPb c c a owes) (hne : r.ioQ ≠ []) :
    ∃ r' size, r.waitForIo = some (size, r') ∧ 0 < size ∧
      Inv v { r' with ringBuf := r'.ringBuf.complete size } org maxPb c (c + size) a owes ∧
      r'.ringBuf = r.ringBuf := by
  obtain ⟨⟨key, size⟩, ioQ, hq⟩ := List.exists_cons_of_ne_nil hne
  have hQ := I.queue
  rw [hq] at hQ
  obtain ⟨hpos, hedge, howes, hrest⟩ := hQ
  have hkeys := I.keys
  rw [hq, List.map_cons] at hkeys
  obtain ⟨aio, haio, hok, hw⟩ := I.ok.waitFor (hkeys.mem_iff.mpr List.mem_cons_self)
  refine ⟨{ r with aio := aio, ioQ := ioQ }, size, ?_, hpos,
    ⟨I.sizes, ?_, ?_, ?_, ?_, hrest, I.ahead, I.aligned,
    I.left, ?_⟩, rfl⟩
  · rw [AsyncWldevReader.waitForIo, hq]
    simp only [haio, Option.map_some]
  · exact I.ring.complete (by have := hrest.le; omega) hedge
  · exact hok.forget (List.nil_sublist _)
  · dsimp only
    rw [hw.queueSize]
    exact I.capacity
  · exact List.Perm.cons_inv (hw.keys.symm.trans hkeys)
  · intro k hk
    rw [Nat.add_sub_cancel_left] at hk
    have hset := hok.completed key (List.mem_append_right _ List.mem_cons_self)
    have hval : stretch (c % r.ringBuf.size) (slice (logByte v) (org + c) size)
        (c % r.ringBuf.size + k) =
          some (logByte v (org + c + k)) := by
      rw [stretch, if_pos (Nat.le_add_right _ _), Nat.add_sub_cancel_left, getElem?_slice hk]
    rw [howes] at hset
    have := congrFun hset (c % r.ringBuf.size + k)
    rw [write, hval, Option.getD_some] at this
    exact this.symm

theorem Inv.prepareReadableData (I : Inv v r org maxPb c d a owes)
    (hv : Valid v r.ringBuf.size org maxPb c)
    (hleft : c < maxPb * v.pbs) :
    ∃ r' d' a' owes', r.prepareReadableData v = some r' ∧ Inv v r' org maxPb c d' a' owes' ∧ c < d' ∧
      r'.ringBuf.size = r.ringBuf.size := by
  rw [AsyncWldevReader.prepareReadableData]
  have hr := I.ring.readable
  have hc := I.ring.completed
  by_cases hd : 0 < r.ringBuf.readableSize
  · rw [if_pos hd]
    exact ⟨r, d, a, owes, rfl, I, by omega, rfl⟩
  · have hcd : c = d := by omega
    subst hcd
    rw [if_neg hd]
    have hgot : ∃ r₁ a₁ owes₁, (if r.ioQ = [] then r.readAhead v else some r) = some r₁ ∧
        Inv v r₁ org maxPb c c a₁ owes₁ ∧ r₁.ioQ ≠ [] ∧ r₁.ringBuf.size = r.ringBuf.size := by
      by_cases hnil : r.ioQ = []
      · rw [if_pos hnil]
        have hca : c = a := by
          have := I.queue
          rwa [hnil] at this
        obtain ⟨r₁, a₁, owes₁, h₁, I₁, hn, hne⟩ := I.readAhead hv
        exact ⟨r₁, a₁, owes₁, h₁, I₁, hne rfl hnil (hca ▸ hleft), hn⟩
      · rw [if_neg hnil]
        exact ⟨r, a, owes, rfl, I, hnil, rfl⟩
    obtain ⟨r₁, a₁, owes₁, h₁, I₁, hne, hn⟩ := hgot
    obtain ⟨r₂, size, h₂, hpos, I₂, hb⟩ := I₁.waitForIo hne
    rw [h₁, Option.bind_some, h₂, Option.map_some]
    exact ⟨_, c + size, a₁, owes₁, rfl, I₂, by omega, (congrArg RingBufferForSeqRead.size hb).trans hn⟩

/-- What `read` and `skip` do: the next bytes of the log are returned, and passed. -/
theorem Inv.consumeLoop (I : Inv v r org maxPb c d a owes) (doCopy : Bool) {fuel size : Nat}
    (hfuel : size < fuel)
    (hsize : c + size ≤ maxPb * v.pbs) (hv : Valid v r.ringBuf.size org maxPb (c + size)) :
    ∃ r' d' a' owes', r.consumeLoop v doCopy fuel size =
        some (if doCopy then slice (logByte v) (org + c) size else [], r') ∧
      Inv v r' org maxPb (c + size) d' a' owes' ∧ r'.ringBuf.size = r.ringBuf.size := by
  induction fuel generalizing r c d a owes size with
  | zero => exact absurd hfuel (Nat.not_lt_zero _)
  | succ fuel ih =>
      rw [AsyncWldevReader.consumeLoop]
      by_cases hzero : size = 0
      · subst hzero
        rw [if_pos rfl]
        refine ⟨r, d, a, owes, ?_, I, rfl⟩
        cases doCopy <;> rfl
      · have hless : ∀ m, m ≤ size → Valid v r.ringBuf.size org maxPb (c + m) := by
          intro m hm
          apply lt_of_le_of_lt _ hv
          have : min (maxPb * v.pbs) (c + m + r.ringBuf.size) ≤
              min (maxPb * v.pbs) (c + size + r.ringBuf.size) := min_le_min_left _ (by omega)
          omega
        obtain ⟨r₁, d₁, a₁, owes₁, h₁, I₁, hd, hn₁⟩ :=
          I.prepareReadableData (hless 0 (Nat.zero_le _)) (by omega)
        obtain ⟨ringBuf, hcons, hat, hnb⟩ := I₁.ring.consume (Nat.pos_of_ne_zero hzero) hd
        have hs : min size (d₁ - c) ≤ size := min_le_left _ _
        have hspos : 0 < min size (d₁ - c) := by omega
        have hsd : min size (d₁ - c) ≤ d₁ - c := min_le_right _ _
        have hbytes : slice r₁.aio.target (c % r₁.ringBuf.size) (min size (d₁ - c)) =
            slice (logByte v) (org + c) (min size (d₁ - c)) := by
          apply List.map_congr_left
          intro k hk
          exact I₁.data k ((List.mem_range.mp hk).trans_le hsd)
        generalize min size (d₁ - c) = m at hcons hat hs hspos hsd hbytes
        have I₂ : Inv v { r₁ with ringBuf := ringBuf } org maxPb (c + m) d₁ a₁ owes₁ := by
          refine ⟨?_, hat, I₁.ok, I₁.capacity, I₁.keys, ?_, I₁.ahead, I₁.aligned, I₁.left, ?_⟩
          · dsimp only
            rw [hnb]
            exact I₁.sizes
          · dsimp only
            rw [hnb]
            exact I₁.queue
          · intro k hk
            have hold := I₁.data (m + k) (by omega)
            have hoff : (c + m) % r₁.ringBuf.size + k = c % r₁.ringBuf.size + (m + k) := by
              -- the readable area does not reach over the end of the ring
              have hcont := I₁.ring.contiguous
              rw [I₁.ring.readOff, I₁.ring.readable] at hcont
              rw [add_mod_ring I₁.ring.pos (by omega), if_pos (by omega)]
              omega
            dsimp only
            rw [hnb, hoff, hold]
            congr 1
            omega
        have hn₂ : ({ r₁ with ringBuf := ringBuf } : AsyncWldevReader γ).ringBuf.size =
          r.ringBuf.size := hnb.trans hn₁
        obtain ⟨r₃, a₃, owes₃, h₃, I₃, hn₃, -⟩ := I₂.readAhead (by rw [hn₂]; exact hless m hs)
        have hn₃' : r₃.ringBuf.size = r.ringBuf.size := hn₃.trans hn₂
        have hsum : c + m + (size - m) = c + size := by omega
        obtain ⟨r', d', a', owes', h', I', hn'⟩ := ih I₃ (by omega : size - m < fuel) (by omega)
          (by rw [hn₃', hsum]; exact hv)
        rw [hsum] at I'
        refine ⟨r', d', a', owes', ?_, I', hn'.trans hn₃'⟩
        rw [if_neg hzero, h₁]
        simp only [hcons, h₃, h', Option.bind_eq_bind, Option.bind_some, Option.pure_def]
        cases doCopy with
        | false => rfl
        | true =>
            have hsplit : slice (logByte v) (org + c) size =
                slice (logByte v) (org + c) m ++ slice (logByte v) (org + (c + m)) (size - m) := by
              rw [← Nat.add_assoc, ← slice_add, Nat.add_sub_cancel' hs]
            simp only [if_true, hbytes, hsplit]

theorem resetLoop_spec (hs : Sizes v r.ringBuf.size r.maxIoSize) (hok : r.aio.Ok owes [])
    (hcap : 0 < r.aio.queueSize) (hkeys : r.aio.keys.Perm (r.ioQ.map Prod.fst)) (lsid maxPb : Nat)
    {fuel : Nat}
    (hfuel : r.ioQ.length < fuel) :
    ∃ r', r.resetLoop lsid maxPb fuel = some r' ∧ Inv v r' (lsid * v.pbs) maxPb 0 0 0 owes ∧
      r'.ringBuf.size = r.ringBuf.size := by
  induction fuel generalizing r with
  | zero => exact absurd hfuel (Nat.not_lt_zero _)
  | succ fuel ih =>
      rw [AsyncWldevReader.resetLoop]
      by_cases hnil : r.ioQ = []
      · rw [if_pos hnil]
        refine ⟨_, rfl, ⟨hs, .init (hs.io_pos.trans_le hs.io_le), hok, hcap, hkeys, ?_, rfl,
          Nat.dvd_zero _, ?_, nofun⟩,
          rfl⟩
        · dsimp only
          rw [hnil]
          rfl
        · dsimp only
          rw [Nat.zero_div, Nat.sub_zero]
      · obtain ⟨⟨key, size⟩, ioQ, hq⟩ := List.exists_cons_of_ne_nil hnil
        rw [hq, List.map_cons] at hkeys
        rw [hq, List.length_cons] at hfuel
        obtain ⟨aio, haio, hok', hw⟩ := hok.waitFor (hkeys.mem_iff.mpr List.mem_cons_self)
        have hwait : r.waitForIo = some (size, { r with aio := aio, ioQ := ioQ }) := by
          rw [AsyncWldevReader.waitForIo, hq]
          simp only [haio, Option.map_some]
        rw [if_neg hnil, hwait]
        exact ih (r := { r with aio := aio, ioQ := ioQ }) hs (hok'.forget (List.nil_sublist _))
          (by dsimp only; rw [hw.queueSize]; exact hcap) (List.Perm.cons_inv (hw.keys.symm.trans hkeys))
          (Nat.lt_of_succ_lt_succ hfuel)

inductive Call where
  | reset (lsid maxSizePb : Nat)
  | read (size : Nat)
  | skip (size : Nat)

structure Cursor where
  pos : Nat
  left : Nat

/-- The calls that the declared maximum allows; what is read ahead has valid lsids. -/
def Call.Legal (v : Wldev γ) (bufferSize : Nat) (cur : Cursor) : Call → Prop
  | .reset lsid _ => lsid < INVALID_LSID
  | .read size | .skip size =>
      size ≤ cur.left ∧ cur.pos + min cur.left (size + bufferSize) < INVALID_LSID * v.pbs

def Call.next (v : Wldev γ) (cur : Cursor) : Call → Cursor
  | .reset lsid maxSizePb => ⟨lsid * v.pbs, maxSizePb * v.pbs⟩
  | .read size | .skip size => ⟨cur.pos + size, cur.left - size⟩

def Call.data (v : Wldev γ) (cur : Cursor) : Call → List γ
  | .read size => slice (logByte v) cur.pos size
  | .reset _ _ | .skip _ => []

def LegalCalls (v : Wldev γ) (bufferSize : Nat) (cur : Cursor) : List Call → Prop
  | [] => True
  | call :: calls => call.Legal v bufferSize cur ∧ LegalCalls v bufferSize (call.next v cur) calls

def callsData (v : Wldev γ) (cur : Cursor) : List Call → List (List γ)
  | [] => []
  | call :: calls => call.data v cur :: callsData v (call.next v cur) calls

def AsyncWldevReader.call (v : Wldev γ) (r : AsyncWldevReader γ) :
    Call → Option (List γ × AsyncWldevReader γ)
  | .reset lsid maxSizePb => (r.reset lsid maxSizePb).map fun r => ([], r)
  | .read size => r.read v size
  | .skip size => (r.skip v size).map fun r => ([], r)

def SimpleWldevReader.call (v : Wldev γ) (r : SimpleWldevReader) :
    Call → Option (List γ × SimpleWldevReader)
  | .reset lsid _ => (r.reset v lsid).map fun r => ([], r)
  | .read size => r.read v size
  | .skip size => (r.skip v size).map fun r => ([], r)

def runCalls {σ : Type} (call : σ → Call → Option (List γ × σ)) :
    σ → List Call → Option (List (List γ) × σ)
  | s, [] => some ([], s)
  | s, c :: cs =>
      (call s c).bind fun (data, s) => (runCalls call s cs).map fun (rest, s) => (data :: rest, s)

def Follows (v : Wldev γ) (r : AsyncWldevReader γ) (cur : Cursor) : Prop :=
  ∃ org maxPb c d a owes, Inv v r org maxPb c d a owes ∧ cur.pos = org + c ∧
    cur.left = maxPb * v.pbs - c ∧
    c ≤ maxPb * v.pbs

theorem Follows.consumeLoop {cur : Cursor} (F : Follows v r cur) (doCopy : Bool) {size : Nat}
    (hsize : size ≤ cur.left)
    (hv : cur.pos + min cur.left (size + r.ringBuf.size) < INVALID_LSID * v.pbs) :
    ∃ r', r.consumeLoop v doCopy (size + 1) size =
        some (if doCopy then slice (logByte v) cur.pos size else [], r') ∧
      Follows v r' ⟨cur.pos + size, cur.left - size⟩ ∧ r'.ringBuf.size = r.ringBuf.size := by
  obtain ⟨org, maxPb, c, d, a, owes, I, hpos, hleft, hc⟩ := F
  have hvalid : Valid v r.ringBuf.size org maxPb (c + size) := by
    rw [Valid]
    rw [hpos, hleft] at hv
    omega
  obtain ⟨r', d', a', owes', h, I', hn⟩ := I.consumeLoop doCopy (Nat.lt_succ_self _) (by omega) hvalid
  rw [hpos]
  refine ⟨r', h, ⟨org, maxPb, c + size, d', a', owes', I', ?_, ?_, ?_⟩, hn⟩
  · exact Nat.add_assoc _ _ _
  · dsimp only
    omega
  · omega

theorem Follows.call {cur : Cursor} (F : Follows v r cur) {call : Call}
    (hl : call.Legal v r.ringBuf.size cur) :
    ∃ r', r.call v call = some (call.data v cur, r') ∧ Follows v r' (call.next v cur) ∧
      r'.ringBuf.size = r.ringBuf.size := by
  cases call with
  | reset lsid maxPb =>
      obtain ⟨org, maxPb', c, d, a, owes, I, -⟩ := F
      obtain ⟨r', h, I', hn⟩ :=
        resetLoop_spec I.sizes I.ok I.capacity I.keys lsid maxPb (Nat.lt_succ_self _)
      refine ⟨r', ?_, ⟨lsid * v.pbs, maxPb, 0, 0, 0, owes, I', rfl, rfl, Nat.zero_le _⟩, hn⟩
      rw [AsyncWldevReader.call, AsyncWldevReader.reset, h]
      rfl
  | read size =>
      obtain ⟨r', h, F', hn⟩ := F.consumeLoop true hl.1 hl.2
      exact ⟨r', h, F', hn⟩
  | skip size =>
      obtain ⟨r', h, F', hn⟩ := F.consumeLoop false hl.1 hl.2
      refine ⟨r', ?_, F', hn⟩
      rw [AsyncWldevReader.call, AsyncWldevReader.skip, h]
      rfl

theorem Follows.runCalls {cur : Cursor} (F : Follows v r cur) {calls : List Call}
    (hl : LegalCalls v r.ringBuf.size cur calls) :
    ∃ r' cur', runCalls (AsyncWldevReader.call v) r calls = some (callsData v cur calls, r') ∧
      Follows v r' cur' := by
  induction calls generalizing r cur with
  | nil => exact ⟨r, cur, rfl, F⟩
  | cons call calls ih =>
      obtain ⟨r₁, h₁, F₁, hn⟩ := F.call hl.1
      obtain ⟨r', cur', h', F'⟩ := ih F₁ (by rw [hn]; exact hl.2)
      refine ⟨r', cur', ?_, F'⟩
      rw [WldevReader.runCalls, h₁]
      simp only [Option.bind_some, h', Option.map_some, callsData]

def SimpleWldevReader.At (v : Wldev γ) (s : SimpleWldevReader) : Prop :=
  s.pos = (s.lsid % v.ringBufferSize + v.ringBufferOffset) * v.pbs

theorem SimpleWldevReader.seek_spec (hr : 0 < v.ringBufferSize) (s : SimpleWldevReader)
    (hl : s.lsid < INVALID_LSID) :
    ∃ s', s.seek v = some s' ∧ s'.At v ∧ s'.lsid = s.lsid := by
  rw [seek, Wldev.getOffsetFromLsid, if_neg hl.ne, if_neg hr.ne']
  exact ⟨_, rfl, rfl, rfl⟩

theorem SimpleWldevReader.At.readBlock {s : SimpleWldevReader} (h : s.At v) (hp : 0 < v.pbs)
    (hr : 0 < v.ringBufferSize) (hl : s.lsid + 1 < INVALID_LSID) :
    ∃ s', s.readBlock v = some (slice (logByte v) (s.lsid * v.pbs) v.pbs, s') ∧ s'.At v ∧
      s'.lsid = s.lsid + 1 := by
  have hlt := Nat.mod_lt s.lsid hr
  have hdata : slice v.device s.pos v.pbs = slice (logByte v) (s.lsid * v.pbs) v.pbs := by
    rw [h, slice_device hp]
    exact Nat.le_mul_of_pos_left _ (Nat.sub_pos_of_lt hlt)
  rw [SimpleWldevReader.readBlock, hdata]
  dsimp only
  split
  next hedge =>
    obtain ⟨s', h', hat, hs⟩ := seek_spec hr ⟨s.lsid + 1, s.pos + v.pbs⟩ hl
    exact ⟨s', by rw [h', Option.map_some], hat, hs⟩
  next hedge =>
    refine ⟨_, rfl, ?_, rfl⟩
    -- the next block follows on the device, too
    have hsucc : (s.lsid + 1) % v.ringBufferSize = s.lsid % v.ringBufferSize + 1 := by
      rw [add_mod_ring hr hr] at hedge ⊢
      split at hedge
      next hin => rw [if_pos hin]
      next hin => omega
    rw [SimpleWldevReader.At, hsucc, h]
    ring

theorem SimpleWldevReader.At.readPbLoop {s : SimpleWldevReader} (h : s.At v) (hp : 0 < v.pbs)
    (hr : 0 < v.ringBufferSize) {n : Nat} (hl : s.lsid + n < INVALID_LSID) :
    ∃ s', s.readPbLoop v n = some (slice (logByte v) (s.lsid * v.pbs) (n * v.pbs), s') ∧ s'.At v ∧
      s'.lsid = s.lsid + n := by
  induction n generalizing s with
  | zero =>
      refine ⟨s, ?_, h, rfl⟩
      rw [SimpleWldevReader.readPbLoop, Nat.zero_mul]
      rfl
  | succ n ih =>
      obtain ⟨s₁, h₁, hat, hs⟩ := h.readBlock hp hr (by omega)
      obtain ⟨s', h', hat', hs'⟩ := ih hat (by omega)
      refine ⟨s', ?_, hat', by omega⟩
      rw [SimpleWldevReader.readPbLoop, h₁]
      simp only [Option.bind_eq_bind, Option.bind_some, h', Option.pure_def, hs]
      have hsum : (n + 1) * v.pbs = v.pbs + n * v.pbs := by rw [Nat.succ_mul, Nat.add_comm]
      rw [hsum, slice_add, Nat.succ_mul]

/-- The calls that `SimpleWldevReader` takes: whole blocks, and less than the ring. -/
def Call.Blocks (v : Wldev γ) : Call → Prop
  | .reset _ _ => True
  | .read size | .skip size => v.pbs ∣ size ∧ size / v.pbs < v.ringBufferSize

theorem SimpleWldevReader.At.call {s : SimpleWldevReader} {bufferSize : Nat} {cur : Cursor} (h : s.At v)
    (hp : 0 < v.pbs) (hr : 0 < v.ringBufferSize) (hcur : cur.pos = s.lsid * v.pbs) {call : Call}
    (hl : call.Legal v bufferSize cur) (hb : call.Blocks v) :
    ∃ s', s.call v call = some (call.data v cur, s') ∧ s'.At v ∧
      (call.next v cur).pos = s'.lsid * v.pbs := by
  have hlsid : ∀ size, size ≤ cur.left → cur.pos + min cur.left (size + bufferSize) <
      INVALID_LSID * v.pbs →
        v.pbs ∣ size → s.lsid + size / v.pbs < INVALID_LSID := by
    intro size hle hlt hdvd
    have hsize := Nat.div_mul_cancel hdvd
    apply Nat.lt_of_mul_lt_mul_right (a := v.pbs)
    rw [Nat.add_mul, ← hcur, hsize]
    omega
  have hnext : ∀ size, v.pbs ∣ size → cur.pos + size = (s.lsid + size / v.pbs) * v.pbs := by
    intro size hdvd
    rw [Nat.add_mul, ← hcur, Nat.div_mul_cancel hdvd]
  have hzero : ∀ size, v.pbs ∣ size → size / v.pbs = 0 → size = 0 := by
    intro size hdvd hdiv
    rw [← Nat.div_mul_cancel hdvd, hdiv, Nat.zero_mul]
  cases call with
  | reset lsid maxSizePb =>
      obtain ⟨s', h', hat, hs⟩ := seek_spec hr { s with lsid := lsid } hl
      refine ⟨s', ?_, hat, ?_⟩
      · rw [SimpleWldevReader.call, SimpleWldevReader.reset, h']
        rfl
      · rw [hs]
        rfl
  | read size =>
      rw [SimpleWldevReader.call, SimpleWldevReader.read, if_pos (Nat.mod_eq_zero_of_dvd hb.1),
        SimpleWldevReader.readPb]
      by_cases h0 : size / v.pbs = 0
      · have hsize := hzero size hb.1 h0
        subst hsize
        rw [if_pos h0]
        exact ⟨s, rfl, h, hcur⟩
      · rw [if_neg h0, if_neg (Nat.not_le.mpr hb.2)]
        obtain ⟨s', h', hat, hs⟩ := h.readPbLoop hp hr (hlsid size hl.1 hl.2 hb.1)
        rw [← hcur, Nat.div_mul_cancel hb.1] at h'
        exact ⟨s', h', hat, by rw [hs]; exact hnext size hb.1⟩
  | skip size =>
      rw [SimpleWldevReader.call, SimpleWldevReader.skip, if_pos (Nat.mod_eq_zero_of_dvd hb.1),
        SimpleWldevReader.skipPb]
      by_cases h0 : size / v.pbs = 0
      · have hsize := hzero size hb.1 h0
        subst hsize
        rw [if_pos h0]
        exact ⟨s, rfl, h, hcur⟩
      · rw [if_neg h0, if_neg (Nat.not_le.mpr hb.2)]
        obtain ⟨s', h', hat, hs⟩ :=
          seek_spec hr { s with lsid := s.lsid + size / v.pbs } (hlsid size hl.1 hl.2 hb.1)
        refine ⟨s', by rw [h']; rfl, hat, ?_⟩
        rw [hs]
        exact hnext size hb.1

theorem SimpleWldevReader.At.runCalls {s : SimpleWldevReader} {bufferSize : Nat} {cur : Cursor}
    (h : s.At v)
    (hp : 0 < v.pbs) (hr : 0 < v.ringBufferSize) (hcur : cur.pos = s.lsid * v.pbs) {calls : List Call}
    (hl : LegalCalls v bufferSize cur calls) (hb : ∀ call ∈ calls, call.Blocks v) :
    ∃ s', runCalls (SimpleWldevReader.call v) s calls = some (callsData v cur calls, s') := by
  induction calls generalizing s cur with
  | nil => exact ⟨s, rfl⟩
  | cons call calls ih =>
      obtain ⟨s₁, h₁, hat, hcur₁⟩ := h.call hp hr hcur hl.1 (hb call List.mem_cons_self)
      obtain ⟨s', h'⟩ := ih hat hcur₁ hl.2 fun c hc => hb c (List.mem_cons_of_mem _ hc)
      refine ⟨s', ?_⟩
      rw [WldevReader.runCalls, h₁]
      simp only [Option.bind_some, h', Option.map_some, callsData]

/-- Whatever the engine does, the calls after a `reset` return the bytes of the log, without
a stall and within the buffer, and where `SimpleWldevReader` takes the calls it returns the same. -/
theorem asyncWldevReader_reads_log (v : Wldev γ) (bufferSize maxIoSize : Nat)
    (hs : Sizes v bufferSize maxIoSize)
    (buf : Nat → γ) (schedule : Nat → List Completion) (lsid maxSizePb : Nat) (calls : List Call)
    (hl : LegalCalls v bufferSize ⟨0, 0⟩ (.reset lsid maxSizePb :: calls)) :
    ∃ r₀ r, asyncWldevReader v bufferSize maxIoSize buf schedule = some r₀ ∧
      runCalls (AsyncWldevReader.call v) r₀ (.reset lsid maxSizePb :: calls) =
        some (callsData v ⟨0, 0⟩ (.reset lsid maxSizePb :: calls), r) ∧
      r.ringBuf.readOff + r.ringBuf.readableSize ≤ r.ringBuf.size ∧
      ∀ s₀ : SimpleWldevReader, (∀ call ∈ calls, call.Blocks v) →
        ∃ s, runCalls (SimpleWldevReader.call v) s₀ (.reset lsid maxSizePb :: calls) =
          some (callsData v ⟨0, 0⟩ (.reset lsid maxSizePb :: calls), s) := by
  have hn : 0 < bufferSize := hs.io_pos.trans_le hs.io_le
  have hmultiple : ∀ n, 0 < n → v.pbs ∣ n → verifyMultiple n v.pbs = true := by
    intro n hpos hdvd
    rw [verifyMultiple, Nat.mod_eq_zero_of_dvd hdvd]
    simp [hpos.ne']
  have hnew : asyncWldevReader v bufferSize maxIoSize buf schedule = some ⟨maxIoSize,
      .init (bufferSize / v.pbs + 1) buf schedule, 0, .init bufferSize, [], 2 ^ 64 - 1⟩ := by
    rw [asyncWldevReader, if_pos ⟨hmultiple _ hn hs.buffer, hmultiple _ hs.io_pos hs.io⟩]
  have hcap : 0 < min Aio.MAX_AIO_REQ_NR (bufferSize / v.pbs + 1) := lt_min (by decide) (Nat.succ_pos _)
  obtain ⟨r₁, h₁, I₁, hn₁⟩ :=
    resetLoop_spec (r := ⟨maxIoSize, .init (bufferSize / v.pbs + 1) buf schedule, 0,
    .init bufferSize, [], 2 ^ 64 - 1⟩) hs (.init _ _ _ fun _ _ => none) hcap (.refl _) lsid maxSizePb
    (Nat.lt_succ_self _)
  have F₁ : Follows v r₁ ⟨lsid * v.pbs, maxSizePb * v.pbs⟩ :=
    ⟨lsid * v.pbs, maxSizePb, 0, 0, 0, _, I₁, rfl, rfl, Nat.zero_le _⟩
  obtain ⟨r, cur, h, org, maxPb, c, d, a, owes, I, -⟩ := F₁.runCalls (by rw [hn₁]; exact hl.2)
  refine ⟨_, r, hnew, ?_, I.ring.contiguous, ?_⟩
  · rw [runCalls, AsyncWldevReader.call, AsyncWldevReader.reset, h₁]
    simp only [Option.map_some, Option.bind_some, h]
    rfl
  · intro s₀ hb
    obtain ⟨s₁, hs₁, hat, hlsid⟩ := SimpleWldevReader.seek_spec hs.ring { s₀ with lsid := lsid } hl.1
    obtain ⟨s, h'⟩ := hat.runCalls hs.pbs hs.ring (by rw [hlsid]; rfl) hl.2 hb
    refine ⟨s, ?_⟩
    rw [runCalls, SimpleWldevReader.call, SimpleWldevReader.reset, hs₁]
    simp only [Option.map_some, Option.bind_some, h']
    rfl

/-- Three blocks in the ring of the device, two in the buffer; reads over both edges. -/
theorem asyncWldevReader_reads_log_three :
    ∃ r₀ r, asyncWldevReader ⟨2, 1, 3, id⟩ 4 2 (fun _ => 0) (fun _ => [.execute 2, .report 2]) =
      some r₀ ∧
      runCalls (AsyncWldevReader.call ⟨2, 1, 3, id⟩) r₀ [.reset 1 10, .read 3, .skip 2, .read 5] =
        some ([[], [4, 5, 6], [], [3, 4, 5, 6, 7]], r) ∧
      r.ringBuf.readOff + r.ringBuf.readableSize ≤ r.ringBuf.size := by
  obtain ⟨r₀, r, h₀, h, hedge, -⟩ := asyncWldevReader_reads_log ⟨2, 1, 3, id⟩ 4 2
    ⟨by decide, by decide, by decide, by decide, by decide, by decide⟩ (fun _ => 0)
    (fun _ => [.execute 2, .report 2]) 1 10 [.read 3, .skip 2, .read 5]
    (by simp [LegalCalls, Call.Legal, Call.next, INVALID_LSID])
  exact ⟨r₀, r, h₀, h, hedge⟩

end WalbTools.WldevReader
