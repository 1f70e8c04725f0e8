import WalbTools.ByteMemory

namespace WalbTools.Queue

open Overlay ByteMemory

def QUEUE_PREAMBLE : Nat := 0x119d83a7

def headerSize : Nat := 28

def fileHeaderSize : Nat := headerSize * 2

def recHeaderSize : Nat := 16

def recordPos (offset : Nat) : Nat := fileHeaderSize + offset

theorem recordPos_add (offset n : Nat) : recordPos (offset + n) = recordPos offset + n :=
  (Nat.add_assoc ..).symm

section Checksum

def checksumPartial : Bytes → Nat → Nat
  | b₀ :: b₁ :: b₂ :: b₃ :: data, csum => checksumPartial data ((csum + ofLE [b₀, b₁, b₂, b₃]) % 2 ^ 32)
  | [], csum => csum
  | data, csum => (csum + ofLE data) % 2 ^ 32

def checksumFinish (csum : Nat) : Nat := (2 ^ 32 - 1 - csum + 1) % 2 ^ 32

def calcChecksum (data : Bytes) (salt : Nat) : Nat := checksumFinish (checksumPartial data salt)

end Checksum

/-- The file and its mapping, of the same size, a multiple of the page size. -/
structure MmappedFile where
  pageSize : Nat
  size : Nat
  bytes : Nat → UInt8
  pageSize_pos : 0 < pageSize

namespace MmappedFile

def calcFileSize (f : MmappedFile) (size : Nat) : Nat := ((size - 1) / f.pageSize + 1) * f.pageSize

/-- The prefix is kept, and the file is extended by zeros. -/
def resize (f : MmappedFile) (size : Nat) : MmappedFile where
  pageSize := f.pageSize
  size := f.calcFileSize size
  bytes a := if a < min f.size (f.calcFileSize size) then f.bytes a else 0
  pageSize_pos := f.pageSize_pos

theorem le_calcFileSize (f : MmappedFile) {size : Nat} (h : 0 < size) : size ≤ f.calcFileSize size := by
  have := Nat.lt_mul_div_succ (size - 1) f.pageSize_pos
  rw [calcFileSize, Nat.mul_comm]
  omega

theorem resize_bytes (f : MmappedFile) {size a : Nat} (ha : a < f.size) (h : a < size) :
    (f.resize size).bytes a = f.bytes a :=
  if_pos (lt_min ha (h.trans_le (f.le_calcFileSize (Nat.zero_lt_of_lt h))))

theorem le_resize_size (f : MmappedFile) {n : Nat} (h : 0 < n) : n ≤ (f.resize n).size :=
  f.le_calcFileSize h

end MmappedFile

/-- The queue with the header in memory. The checksum of the header is computed
anew whenever it is written. -/
structure QueueFile where
  salt : Nat
  beginOffset : Nat
  endOffset : Nat
  file : MmappedFile

/-- What one statement does to the file, or to the header in memory. -/
inductive Effect where
  | store (off : Nat) (l : Bytes)
  | resize (size : Nat)
  | msync
  | setOffsets (beginOffset endOffset : Nat)

inductive Fault where
  | exception (msg : String)
  | segv
  deriving DecidableEq

namespace QueueFile

def headerBytes (salt beginOffset endOffset csum : Nat) : Bytes :=
  toLE 4 QUEUE_PREAMBLE ++ toLE 4 csum ++ toLE 4 salt ++ toLE 8 beginOffset ++ toLE 8 endOffset

def header (q : QueueFile) : Bytes :=
  headerBytes q.salt q.beginOffset q.endOffset (calcChecksum
    (headerBytes q.salt q.beginOffset q.endOffset 0) 0)

def isValidFileHeader (header : Bytes) : Prop :=
  ofLE (header.take 4) = QUEUE_PREAMBLE ∧ calcChecksum header 0 = 0

instance (header : Bytes) : Decidable (isValidFileHeader header) := inferInstanceAs (Decidable (_ ∧ _))

def dataSizeAt (q : QueueFile) (offset : Nat) : Nat := u32At q.file.bytes (recordPos offset + 8)

def toPrevAt (q : QueueFile) (offset : Nat) : Nat := u32At q.file.bytes (recordPos offset + 12)

def totalSizeAt (q : QueueFile) (offset : Nat) : Nat := (recHeaderSize + q.dataSizeAt offset) % 2 ^ 32

def getRequiredFileSize (q : QueueFile) (size : Nat) : Nat :=
  fileHeaderSize + q.endOffset + (recHeaderSize + size) + recHeaderSize

def empty (q : QueueFile) : Prop := q.beginOffset = q.endOffset

instance (q : QueueFile) : Decidable q.empty := inferInstanceAs (Decidable (_ = _))

def withBytes (q : QueueFile) (mem : Nat → UInt8) : QueueFile :=
  { q with file := { q.file with bytes := mem } }

def withOffsets (q : QueueFile) (b e : Nat) : QueueFile := { q with beginOffset := b, endOffset := e }

def resize (q : QueueFile) (size : Nat) : QueueFile := { q with file := q.file.resize size }

/-- A store outside the mapping is fatal. -/
def perform (q : QueueFile) : Effect → Option QueueFile
  | .store off l =>
      if off + l.length ≤ q.file.size then some (q.withBytes (poke q.file.bytes off l)) else none
  | .resize size => some (q.resize size)
  | .msync => some q
  | .setOffsets b e => some (q.withOffsets b e)

/-- The statements of an operation, each with its effect in the state that it finds. -/
def exec : List (QueueFile → Effect) → QueueFile → Except Fault QueueFile
  | [], q => .ok q
  | st :: sts, q =>
      match q.perform (st q) with
      | none => .error .segv
      | some q' => exec sts q'

def initBytes : Bytes := toLE 4 QUEUE_PREAMBLE ++ toLE 4 0 ++ toLE 4 0 ++ toLE 4 0

def sync : List (QueueFile → Effect) :=
  [fun q => .store 0 q.header, fun _ => .msync, fun q => .store headerSize q.header, fun _ => .msync]

def appendRecord (data : Bytes) (size toPrev : Nat) : List (QueueFile → Effect) :=
  [fun q => .store (recordPos q.endOffset) initBytes,
    fun q => .store (recordPos q.endOffset + 8) (toLE 4 size),
    fun q => .store (recordPos q.endOffset + 4) (toLE 4 (calcChecksum (data.take size) q.salt)),
    fun q => .store (recordPos q.endOffset + 12) (toLE 4 toPrev),
    fun q => .store (recordPos (q.endOffset + q.totalSizeAt q.endOffset)) initBytes,
    fun q => .store (recordPos (q.endOffset + q.totalSizeAt q.endOffset) + 12)
    (toLE 4 (q.totalSizeAt q.endOffset)),
    fun q => .store (recordPos q.endOffset + recHeaderSize) (data.take size),
    fun q => .setOffsets q.beginOffset (q.endOffset + q.totalSizeAt q.endOffset)]

/-- `size` has been passed as a `uint32_t`. -/
def pushBackRaw (q : QueueFile) (data : Bytes) (size : Nat) : List (QueueFile → Effect) :=
  (fun q => .resize (q.getRequiredFileSize size)) :: appendRecord data size (q.toPrevAt q.endOffset)

def reserveFrontSpace (q : QueueFile) (size : Nat) : List (QueueFile → Effect) :=
  if size ≤ q.beginOffset then []
  else
    let bgn := q.beginOffset
    let last := q.endOffset + recHeaderSize
    let len := last - bgn
    let newBgn := max last size
    sync ++
      [fun _ => .resize (fileHeaderSize + newBgn + len),
        fun q => .store (recordPos newBgn) (slice q.file.bytes (recordPos bgn) len)] ++
      sync ++ [fun _ => .setOffsets newBgn (newBgn + len - recHeaderSize)] ++ sync

def prependRecord (data : Bytes) (size totalSize : Nat) : List (QueueFile → Effect) :=
  [fun q => .store (recordPos (q.beginOffset - totalSize)) initBytes,
    fun q => .store (recordPos (q.beginOffset - totalSize) + 8) (toLE 4 size),
    fun q => .store (recordPos (q.beginOffset - totalSize) + 4)
    (toLE 4 (calcChecksum (data.take size) q.salt)),
    fun q => .store (recordPos (q.beginOffset - totalSize) + recHeaderSize) (data.take size),
    fun q => .store (recordPos q.beginOffset + 12) (toLE 4 totalSize),
    fun q => .setOffsets (q.beginOffset - totalSize) q.endOffset]

def pushFrontRaw (q : QueueFile) (data : Bytes) (size : Nat) : List (QueueFile → Effect) :=
  q.reserveFrontSpace ((recHeaderSize + size) % 2 ^ 32) ++
    prependRecord data size ((recHeaderSize + size) % 2 ^ 32)

def clear : List (QueueFile → Effect) :=
  [fun q => .setOffsets q.endOffset q.endOffset, fun q => .store (recordPos q.endOffset + 12) (toLE 4 0)]

def gc (q : QueueFile) : List (QueueFile → Effect) :=
  let bgn := q.beginOffset
  let len := q.endOffset + recHeaderSize - bgn
  if bgn < len then []
  else
    sync ++ [fun q => .store (recordPos 0) (slice q.file.bytes (recordPos bgn) len)] ++ sync ++
      [fun _ => .setOffsets 0 (len - recHeaderSize)] ++ sync ++
      [fun q => .resize (q.getRequiredFileSize 0)] ++ sync

def popFront (q : QueueFile) : Except Fault QueueFile :=
  if q.empty then .error (.exception "popFront:empty")
  else exec [fun q => .setOffsets (q.beginOffset + q.totalSizeAt q.beginOffset) q.endOffset] q

def popBack (q : QueueFile) : Except Fault QueueFile :=
  if q.empty then .error (.exception "popBack:empty")
  else exec [fun q => .setOffsets q.beginOffset (q.endOffset - q.toPrevAt q.endOffset)] q

/-- `init` of a file that has just been created, over whatever it held. -/
def create (f : MmappedFile) (salt : Nat) : Except Fault QueueFile :=
  exec ((fun _ => .store (recordPos 0) initBytes) :: sync) ⟨salt, 0, 0,
    f.resize (fileHeaderSize + recHeaderSize)⟩

def ofHeader (f : MmappedFile) (header : Bytes) : QueueFile :=
  ⟨ofLE ((header.drop 8).take 4), ofLE ((header.drop 12).take 8), ofLE ((header.drop 20).take 8), f⟩

def openFile (f : MmappedFile) : Except Fault QueueFile :=
  if isValidFileHeader (slice f.bytes 0 headerSize) then exec sync
    (ofHeader f (slice f.bytes 0 headerSize))
  else if isValidFileHeader (slice f.bytes headerSize headerSize) then
    exec sync (ofHeader f (slice f.bytes headerSize headerSize))
  else .error (.exception "Both header data broken.")

def assignString (q : QueueFile) (offset : Nat) : Bytes :=
  slice q.file.bytes (recordPos offset + recHeaderSize) (q.dataSizeAt offset)

def frontRaw (q : QueueFile) : Except Fault Bytes :=
  if q.empty then .error (.exception "frontRaw:empty") else .ok (q.assignString q.beginOffset)

def backRaw (q : QueueFile) : Except Fault Bytes :=
  if q.empty then .error (.exception "backRaw:empty")
  else .ok (q.assignString (q.endOffset - q.toPrevAt q.endOffset))

/-- The records from `offset` to `cend()`, by `operator++`; `none` when the end is
not met in that many steps. -/
def forward (q : QueueFile) : Nat → Nat → Option (List Bytes)
  | 0, offset => if offset = q.endOffset then some [] else none
  | n + 1, offset =>
      if offset = q.endOffset then some []
      else (forward q n (offset + q.totalSizeAt offset)).map (q.assignString offset :: ·)

/-- The records before `offset` down to `cbegin()`, by `operator--`. -/
def backward (q : QueueFile) : Nat → Nat → Option (List Bytes)
  | 0, offset => if offset = q.beginOffset then some [] else none
  | n + 1, offset =>
      if offset = q.beginOffset then some []
      else (backward q n (offset - q.toPrevAt offset)).map
        (q.assignString (offset - q.toPrevAt offset) :: ·)

end QueueFile

/-- `cybozu::save` and `cybozu::load` of the records. -/
structure Serializer (T : Type) where
  save : T → Bytes
  load : Bytes → Option T

def Serializer.Lawful {T : Type} (S : Serializer T) : Prop := ∀ t, S.load (S.save t) = some t

inductive Op (T : Type) where
  | pushFront (t : T)
  | pushBack (t : T)
  | popFront
  | popBack
  | clear
  | gc
  | reserveFrontSpace (size : Nat)
  | sync
  /-- The destructor, and the constructor of an existing file. -/
  | reopen

def Deque.step {T : Type} : Op T → List T → Except Fault (List T)
  | .pushFront t, l => .ok (t :: l)
  | .pushBack t, l => .ok (l ++ [t])
  | .popFront, l => if l = [] then .error (.exception "popFront:empty") else .ok l.tail
  | .popBack, l => if l = [] then .error (.exception "popBack:empty") else .ok l.dropLast
  | .clear, _ => .ok []
  | .gc, l => .ok l
  | .reserveFrontSpace _, l => .ok l
  | .sync, l => .ok l
  | .reopen, l => .ok l

variable {T : Type} (S : Serializer T)

theorem Deque.step_ne_segv (op : Op T) (l : List T) : Deque.step op l ≠ .error .segv := by
  cases op with
  | popFront | popBack =>
      rw [Deque.step]
      split_ifs
      · simp
      · simp
  | _ => simp [Deque.step]

namespace QueueFile

/-- The size of the serialized string becomes a `uint32_t`. -/
def rawSize (t : T) : Nat := (S.save t).length % 2 ^ 32

def step : Op T → QueueFile → Except Fault QueueFile
  | .pushFront t, q => exec (q.pushFrontRaw (S.save t) (rawSize S t)) q
  | .pushBack t, q => exec (q.pushBackRaw (S.save t) (rawSize S t)) q
  | .popFront, q => q.popFront
  | .popBack, q => q.popBack
  | .clear, q => exec QueueFile.clear q
  | .gc, q => exec q.gc q
  | .reserveFrontSpace size, q => exec (q.reserveFrontSpace size) q
  | .sync, q => exec QueueFile.sync q
  | .reopen, q =>
      match exec QueueFile.sync q with
      | .error e => .error e
      | .ok q' => openFile q'.file

def load (raw : Except Fault Bytes) : Except Fault T :=
  match raw with
  | .error e => .error e
  | .ok s =>
      match S.load s with
      | none => .error (.exception "load")
      | some t => .ok t

def front (q : QueueFile) : Except Fault T := load S q.frontRaw

def back (q : QueueFile) : Except Fault T := load S q.backRaw

end QueueFile

/-- An operation that throws leaves its state. -/
def run {σ : Type} (step : Op T → σ → Except Fault σ) : List (Op T) → σ → Option σ
  | [], s => some s
  | op :: ops, s =>
      match step op s with
      | .ok s' => run step ops s'
      | .error (.exception _) => run step ops s
      | .error .segv => none

/-- A record at a position of the file, but for its link to the one before. -/
structure RecordAt (mem : Nat → UInt8) (salt pos : Nat) (d : Bytes) : Prop where
  preamble : u32At mem pos = QUEUE_PREAMBLE
  checksum : u32At mem (pos + 4) = calcChecksum d salt
  dataSize : u32At mem (pos + 8) = d.length
  data : slice mem (pos + recHeaderSize) d.length = d

/-- The records from one position to another, each linked back from the next
header. The link of the first header and all else in the last one are free. -/
def Chain (mem : Nat → UInt8) (salt : Nat) : Nat → List Bytes → Nat → Prop
  | pos, [], last => pos = last
  | pos, d :: ds, last =>
      RecordAt mem salt pos d ∧ recHeaderSize + d.length < 2 ^ 32 ∧
        u32At mem (pos + recHeaderSize + d.length + 12) = recHeaderSize + d.length ∧
        Chain mem salt (pos + recHeaderSize + d.length) ds last

section Chain

variable {mem mem' : Nat → UInt8} {salt pos pos' last last' : Nat} {d : Bytes} {ds : List Bytes}

theorem RecordAt.move (h : RecordAt mem salt pos d)
    (hmem : ∀ i, i < recHeaderSize + d.length → ¬(12 ≤ i ∧ i < 16) → mem' (pos' + i) = mem (pos + i)) :
    RecordAt mem' salt pos' d := by
  have h32 : ∀ j, j ≤ 8 → u32At mem' (pos' + j) = u32At mem (pos + j) := by
    intro j hj
    refine u32At_move fun i hi => ?_
    rw [Nat.add_assoc, Nat.add_assoc]
    exact hmem _ (by simp only [recHeaderSize]; omega) (by omega)
  refine ⟨(h32 0 (by omega)).trans h.preamble, (h32 4 (by omega)).trans h.checksum,
    (h32 8 le_rfl).trans h.dataSize, ?_⟩
  rw [← h.data, length_slice]
  refine slice_move fun i hi => ?_
  rw [Nat.add_assoc, Nat.add_assoc]
  exact hmem _ (by omega) (by simp only [recHeaderSize]; omega)

theorem Chain.le (h : Chain mem salt pos ds last) : pos ≤ last := by
  induction ds generalizing pos with
  | nil => exact h.le
  | cons d ds ih =>
      have := ih h.2.2.2
      omega

theorem Chain.add_le (h : Chain mem salt pos ds last) (hne : pos ≠ last) :
    pos + recHeaderSize ≤ last := by
  cases ds with
  | nil => exact absurd h hne
  | cons d ds =>
      have := Chain.le h.2.2.2
      omega

theorem Chain.eq_iff (h : Chain mem salt pos ds last) : pos = last ↔ ds = [] := by
  cases ds with
  | nil => exact iff_of_true h rfl
  | cons d ds =>
      have := Chain.le h.2.2.2
      simp only [recHeaderSize] at this
      exact iff_of_false (by omega) (List.cons_ne_nil _ _)

theorem Chain.move (h : Chain mem salt pos ds last) (hlast : last' + pos = last + pos')
    (hmem : ∀ i, pos + i < last → ¬(12 ≤ i ∧ i < 16) → mem' (pos' + i) = mem (pos + i))
    (hlink : pos ≠ last → ∀ i, 12 ≤ i → i < 16 → mem' (last' + i) = mem (last + i)) :
    Chain mem' salt pos' ds last' := by
  induction ds generalizing pos pos' with
  | nil =>
      have : pos = last := h
      exact (by omega : pos' = last')
  | cons d ds ih =>
      obtain ⟨hrec, hlt, hprev, htail⟩ := h
      have hle := htail.le
      simp only [recHeaderSize] at hlt hprev htail hle
      change RecordAt mem' salt pos' d ∧ 16 + d.length < 2 ^ 32 ∧
        u32At mem' (pos' + 16 + d.length + 12) = 16 + d.length ∧
        Chain mem' salt (pos' + 16 + d.length) ds last'
      refine ⟨hrec.move fun i hi => hmem i (by simp only [recHeaderSize] at hi; omega), hlt, ?_, ?_⟩
      · rw [← hprev]
        refine u32At_move fun i hi => ?_
        rcases Nat.lt_or_ge (pos + 16 + d.length) last with hlt' | hge
        -- The link is in the next record, or in the stub.
        · have hle' : pos + 16 + d.length + 16 ≤ last := by
            cases ds with
            | nil => exact absurd (show pos + 16 + d.length = last from htail) (by omega)
            | cons d' ds' =>
                have := Chain.le htail.2.2.2
                simp only [recHeaderSize] at this
                omega
          have := hmem (16 + d.length + 12 + i) (by omega) (by omega)
          rwa [show pos' + (16 + d.length + 12 + i) = pos' + 16 + d.length + 12 + i by omega,
            show pos + (16 + d.length + 12 + i) = pos + 16 + d.length + 12 + i by omega] at this
        · have := hlink (by omega) (12 + i) (by omega) (by omega)
          rwa [show last' + (12 + i) = pos' + 16 + d.length + 12 + i by omega,
            show last + (12 + i) = pos + 16 + d.length + 12 + i by omega] at this
      · refine ih htail (by omega) (fun i hi hn => ?_) fun hne => hlink (by omega)
        have := hmem (16 + d.length + i) (by omega) (by omega)
        rwa [show pos' + (16 + d.length + i) = pos' + 16 + d.length + i by omega,
          show pos + (16 + d.length + i) = pos + 16 + d.length + i by omega] at this

theorem Chain.frame (h : Chain mem salt pos ds last)
    (hmem : ∀ a, pos ≤ a → a < last → ¬(pos + 12 ≤ a ∧ a < pos + 16) → mem' a = mem a)
    (hlink : pos ≠ last → ∀ a, last + 12 ≤ a → a < last + 16 → mem' a = mem a) :
    Chain mem' salt pos ds last :=
  h.move rfl (fun i hi hn => hmem _ (by omega) hi (by omega)) fun hne i hi hi' =>
    hlink hne _ (by omega) (by omega)

theorem chain_concat :
    Chain mem salt pos (ds ++ [d]) last ↔ ∃ mid, Chain mem salt pos ds mid ∧ RecordAt mem salt mid d ∧
      recHeaderSize + d.length < 2 ^ 32 ∧ u32At mem (last + 12) = recHeaderSize + d.length ∧
      last = mid + recHeaderSize + d.length := by
  induction ds generalizing pos with
  | nil =>
      constructor
      · rintro ⟨hrec, hlt, hprev, rfl⟩
        exact ⟨pos, rfl, hrec, hlt, hprev, rfl⟩
      · rintro ⟨mid, rfl, hrec, hlt, hprev, rfl⟩
        exact ⟨hrec, hlt, hprev, rfl⟩
  | cons e ds ih =>
      simp only [List.cons_append, Chain, ih]
      constructor
      · rintro ⟨hrec, hlt, hprev, mid, hchain, h⟩
        exact ⟨mid, ⟨hrec, hlt, hprev, hchain⟩, h⟩
      · rintro ⟨mid, ⟨hrec, hlt, hprev, hchain⟩, h⟩
        exact ⟨hrec, hlt, hprev, mid, hchain, h⟩

end Chain

section Checksum

theorem checksumPartial_word (v csum : Nat) (data : Bytes) :
    checksumPartial (toLE 4 v ++ data) csum = checksumPartial data ((csum + v) % 2 ^ 32) := by
  have h : ofLE (toLE 4 v) = v % 2 ^ 32 := ofLE_toLE 4 v
  rw [← Nat.add_mod_mod, ← h]
  rfl

theorem checksumPartial_headerBytes (salt b e csum : Nat) :
    checksumPartial (QueueFile.headerBytes salt b e csum) 0 =
      (QUEUE_PREAMBLE + salt + b + b / 2 ^ 32 + e + e / 2 ^ 32 + csum) % 2 ^ 32 := by
  simp only [QueueFile.headerBytes, toLE_eight, List.append_assoc, checksumPartial_word]
  rw [← List.append_nil (toLE 4 (e / 2 ^ 32)), checksumPartial_word, checksumPartial]
  omega

theorem calcChecksum_headerBytes (salt b e : Nat) :
    calcChecksum (QueueFile.headerBytes salt b e (calcChecksum
      (QueueFile.headerBytes salt b e 0) 0)) 0 = 0 := by
  simp only [calcChecksum, checksumPartial_headerBytes, checksumFinish]
  omega

end Checksum

namespace QueueFile

variable {q : QueueFile}

theorem length_headerBytes (salt b e csum : Nat) : (headerBytes salt b e csum).length = headerSize := by
  simp [headerBytes, headerSize]

theorem length_header : q.header.length = headerSize := length_headerBytes ..

theorem isValidFileHeader_header : isValidFileHeader q.header := by
  refine ⟨?_, calcChecksum_headerBytes ..⟩
  have h : q.header.take 4 = toLE 4 QUEUE_PREAMBLE := by simp [header, headerBytes]
  rw [h]
  rfl

theorem ofHeader_header (hs : q.salt < 2 ^ 32) (hb : q.beginOffset < 2 ^ 64) (he : q.endOffset < 2 ^ 64)
    (f : MmappedFile) : ofHeader f q.header = { q with file := f } := by
  have h₁ : (q.header.drop 8).take 4 = toLE 4 q.salt := rfl
  have h₂ : (q.header.drop 12).take 8 = toLE 8 q.beginOffset := rfl
  have h₃ : (q.header.drop 20).take 8 = toLE 8 q.endOffset := rfl
  rw [ofHeader, h₁, h₂, h₃, ofLE_toLE_of_lt (by simpa using hs), ofLE_toLE_of_lt (by simpa using hb),
    ofLE_toLE_of_lt (by simpa using he)]

section Fields

variable (q : QueueFile) (mem mem' : Nat → UInt8) (b e size : Nat)

@[simp] theorem withBytes_salt : (q.withBytes mem).salt = q.salt := rfl

@[simp] theorem withBytes_beginOffset : (q.withBytes mem).beginOffset = q.beginOffset := rfl

@[simp] theorem withBytes_endOffset : (q.withBytes mem).endOffset = q.endOffset := rfl

@[simp] theorem withBytes_size : (q.withBytes mem).file.size = q.file.size := rfl

@[simp] theorem withBytes_bytes : (q.withBytes mem).file.bytes = mem := rfl

@[simp] theorem withBytes_header : (q.withBytes mem).header = q.header := rfl

@[simp] theorem withBytes_withBytes : (q.withBytes mem).withBytes mem' = q.withBytes mem' := rfl

@[simp] theorem withOffsets_salt : (q.withOffsets b e).salt = q.salt := rfl

@[simp] theorem withOffsets_beginOffset : (q.withOffsets b e).beginOffset = b := rfl

@[simp] theorem withOffsets_endOffset : (q.withOffsets b e).endOffset = e := rfl

@[simp] theorem withOffsets_file : (q.withOffsets b e).file = q.file := rfl

@[simp] theorem resize_salt : (q.resize size).salt = q.salt := rfl

@[simp] theorem resize_beginOffset : (q.resize size).beginOffset = q.beginOffset := rfl

@[simp] theorem resize_endOffset : (q.resize size).endOffset = q.endOffset := rfl

@[simp] theorem resize_file : (q.resize size).file = q.file.resize size := rfl

end Fields

theorem totalSizeAt_eq {offset n : Nat} (h : q.dataSizeAt offset = n) (hn : recHeaderSize + n < 2 ^ 32) :
    q.totalSizeAt offset = recHeaderSize + n := by
  rw [totalSizeAt, h, Nat.mod_eq_of_lt hn]

variable {st : QueueFile → Effect} {sts sts' : List (QueueFile → Effect)}

theorem exec_store {off : Nat} {l : Bytes} (hst : st q = .store off l)
    (h : off + l.length ≤ q.file.size) :
    exec (st :: sts) q = exec sts (q.withBytes (poke q.file.bytes off l)) := by
  rw [exec, hst, perform, if_pos h]

theorem exec_resize {size : Nat} (hst : st q = .resize size) :
    exec (st :: sts) q = exec sts (q.resize size) := by
  rw [exec, hst]
  rfl

theorem exec_msync (hst : st q = .msync) : exec (st :: sts) q = exec sts q := by
  rw [exec, hst]
  rfl

theorem exec_setOffsets {b e : Nat} (hst : st q = .setOffsets b e) :
    exec (st :: sts) q = exec sts (q.withOffsets b e) := by
  rw [exec, hst]
  rfl

theorem exec_append {q' : QueueFile} (h : exec sts q = .ok q') :
    exec (sts ++ sts') q = exec sts' q' := by
  induction sts generalizing q with
  | nil =>
      cases h
      rfl
  | cons st sts ih =>
      rw [exec] at h
      rw [List.cons_append, exec]
      cases hp : q.perform (st q) with
      | none =>
          rw [hp] at h
          cases h
      | some q₁ =>
          rw [hp] at h
          exact ih h

/-- The file holds the records at the offsets of the header. -/
structure Represents (q : QueueFile) (ds : List Bytes) : Prop where
  chain : Chain q.file.bytes q.salt (recordPos q.beginOffset) ds (recordPos q.endOffset)
  inside : recordPos q.endOffset + recHeaderSize ≤ q.file.size
  salt_lt : q.salt < 2 ^ 32
  endOffset_lt : q.endOffset < 2 ^ 64

variable {q' : QueueFile} {ds : List Bytes}

theorem Represents.le (h : Represents q ds) : q.beginOffset ≤ q.endOffset := by
  have := h.chain.le
  simp only [recordPos] at this
  omega

theorem Represents.congr (h : Represents q ds) (hs : q'.salt = q.salt)
    (hb : q'.beginOffset = q.beginOffset)
    (he : q'.endOffset = q.endOffset) (hsize : recordPos q.endOffset + recHeaderSize ≤ q'.file.size)
    (hmem : ∀ a, recordPos q.beginOffset ≤ a → a < recordPos q.endOffset + recHeaderSize →
      q'.file.bytes a = q.file.bytes a) : Represents q' ds := by
  have hle := h.le
  refine ⟨?_, he ▸ hsize, hs ▸ h.salt_lt, he ▸ h.endOffset_lt⟩
  rw [hs, hb, he]
  simp only [recordPos, recHeaderSize] at hmem ⊢
  exact h.chain.frame (fun a ha ha' _ => hmem a ha (by simp only [recordPos] at ha'; omega))
    fun _ a ha ha' => hmem a (by simp only [recordPos] at ha; omega)
      (by simpa [recordPos, Nat.add_assoc] using ha')

def headed (mem : Nat → UInt8) (h : Bytes) : Nat → UInt8 := poke (poke mem 0 h) headerSize h

def synced (q : QueueFile) : QueueFile := q.withBytes (headed q.file.bytes q.header)

@[simp] theorem synced_salt (q : QueueFile) : q.synced.salt = q.salt := rfl

@[simp] theorem synced_beginOffset (q : QueueFile) : q.synced.beginOffset = q.beginOffset := rfl

@[simp] theorem synced_endOffset (q : QueueFile) : q.synced.endOffset = q.endOffset := rfl

@[simp] theorem synced_size (q : QueueFile) : q.synced.file.size = q.file.size := rfl

theorem exec_sync (h : fileHeaderSize ≤ q.file.size) : exec (sync ++ sts) q = exec sts q.synced := by
  have hlen := length_header (q := q)
  simp only [fileHeaderSize, headerSize] at h hlen
  rw [sync, List.cons_append, exec_store rfl (by omega), List.cons_append, exec_msync rfl,
    List.cons_append,
    exec_store rfl (by rw [withBytes_header, withBytes_size, hlen]; simp only [headerSize]; omega),
    List.cons_append,
    exec_msync rfl]
  rfl

theorem exec_sync_eq (h : fileHeaderSize ≤ q.file.size) : exec sync q = .ok q.synced := by
  rw [← List.append_nil sync, exec_sync h, exec]

theorem headed_of_le {mem : Nat → UInt8} {h : Bytes} (hlen : h.length = headerSize) {a : Nat}
    (ha : fileHeaderSize ≤ a) : headed mem h a = mem a := by
  simp only [fileHeaderSize, headerSize] at hlen ha
  rw [headed, poke_of_disjoint (.inr (by simp only [headerSize]; omega)),
    poke_of_disjoint (.inr (by omega))]

theorem slice_headed_fst {mem : Nat → UInt8} {h : Bytes} (hlen : h.length = headerSize) :
    slice (headed mem h) 0 headerSize = h := by
  rw [headed, slice_poke_of_disjoint (.inl (by omega)), ← hlen, slice_poke_self]

theorem slice_headed_snd {mem : Nat → UInt8} {h : Bytes} (hlen : h.length = headerSize) :
    slice (headed mem h) headerSize headerSize = h := by
  rw [headed, ← hlen, slice_poke_self]

structure Synced (q : QueueFile) : Prop where
  fst : slice q.file.bytes 0 headerSize = q.header
  snd : slice q.file.bytes headerSize headerSize = q.header

theorem synced_synced (q : QueueFile) : Synced q.synced := by
  constructor
  · rw [synced, withBytes_bytes, slice_headed_fst length_header, withBytes_header]
  · rw [synced, withBytes_bytes, slice_headed_snd length_header, withBytes_header]

theorem Represents.synced (h : Represents q ds) : Represents q.synced ds := by
  refine h.congr rfl rfl rfl ?_ fun a ha _ => ?_
  · rw [QueueFile.synced, withBytes_size]
    exact h.inside
  · rw [QueueFile.synced, withBytes_bytes, headed_of_le length_header]
    simp only [recordPos] at ha
    omega

theorem calcChecksum_lt (data : Bytes) (salt : Nat) : calcChecksum data salt < 2 ^ 32 :=
  Nat.mod_lt _ (by decide)

theorem length_initBytes : initBytes.length = recHeaderSize := rfl

def appended (mem : Nat → UInt8) (pos salt toPrev : Nat) (data : Bytes) : Nat → UInt8 :=
  poke (poke (poke (poke (poke (poke (poke mem pos initBytes) (pos + 8) (toLE 4 data.length))
    (pos + 4) (toLE 4 (calcChecksum data salt))) (pos + 12) (toLE 4 toPrev))
    (pos + (recHeaderSize + data.length)) initBytes)
    (pos + (recHeaderSize + data.length) + 12) (toLE 4 (recHeaderSize + data.length))) (pos +
      recHeaderSize) data

theorem exec_appendRecord {data : Bytes} (toPrev : Nat) (hlt : recHeaderSize + data.length < 2 ^ 32)
    (hroom : recordPos q.endOffset + recHeaderSize + data.length + recHeaderSize ≤ q.file.size) :
    exec (appendRecord data data.length toPrev) q = .ok
      ((q.withBytes (appended q.file.bytes (recordPos q.endOffset) q.salt toPrev data)).withOffsets
        q.beginOffset (q.endOffset + (recHeaderSize + data.length))) := by
  have htotal : ∀ mem : Nat → UInt8, u32At mem (recordPos q.endOffset + 8) = data.length →
      (q.withBytes mem).totalSizeAt q.endOffset = recHeaderSize + data.length :=
    fun mem hd => totalSizeAt_eq (by rw [dataSizeAt, withBytes_bytes, hd]) hlt
  have hlen : data.length < 2 ^ 32 := by omega
  simp only [recHeaderSize] at hroom
  -- The size that has been stored is read again by each `totalSize()`.
  have hd₄ : ∀ mem : Nat → UInt8, u32At (poke (poke (poke mem (recordPos q.endOffset + 8)
      (toLE 4 data.length))
        (recordPos q.endOffset + 4) (toLE 4 (calcChecksum data q.salt))) (recordPos q.endOffset +
          12) (toLE 4 toPrev))
        (recordPos q.endOffset + 8) = data.length := by
    intro mem
    rw [u32At_poke_of_disjoint (.inl le_rfl), u32At_poke_of_disjoint (.inr (by rw [length_toLE])),
      u32At_poke_self hlen]
  have hd₅ : ∀ (mem : Nat → UInt8) (off : Nat) (l : Bytes), recordPos q.endOffset + 12 ≤ off →
      u32At mem (recordPos q.endOffset + 8) = data.length →
      u32At (poke mem off l) (recordPos q.endOffset + 8) = data.length := by
    intro mem off l hoff hd
    rw [u32At_poke_of_disjoint (.inl hoff), hd]
  rw [appendRecord, List.take_length, exec_store rfl (by rw [length_initBytes, recHeaderSize]; omega),
    exec_store rfl (by simp only [length_toLE, withBytes_size, withBytes_endOffset]; omega),
    exec_store rfl (by simp only [length_toLE, withBytes_size, withBytes_endOffset]; omega),
    exec_store rfl (by simp only [length_toLE, withBytes_size, withBytes_endOffset]; omega)]
  simp only [withBytes_withBytes, withBytes_bytes, withBytes_endOffset, withBytes_salt]
  have hd := hd₄ (poke q.file.bytes (recordPos q.endOffset) initBytes)
  have h₅ := htotal _ hd
  rw [exec_store rfl (by
    simp only [withBytes_size, withBytes_endOffset, h₅, recordPos_add, length_initBytes]
    simp only [recHeaderSize]
    omega)]
  simp only [withBytes_withBytes, withBytes_bytes, withBytes_endOffset, h₅, recordPos_add]
  replace hd := hd₅ _ (recordPos q.endOffset + (recHeaderSize + data.length)) initBytes
    (by rw [recHeaderSize]; omega) hd
  have h₆ := htotal _ hd
  rw [exec_store rfl (by
    simp only [withBytes_size, withBytes_endOffset, h₆, length_toLE]
    simp only [recHeaderSize]
    omega)]
  simp only [withBytes_withBytes, withBytes_bytes, withBytes_endOffset, h₆]
  replace hd := hd₅ _ (recordPos q.endOffset + (recHeaderSize + data.length) + 12)
    (toLE 4 (recHeaderSize + data.length)) (by rw [recHeaderSize]; omega) hd
  rw [exec_store rfl (by simp only [withBytes_size, withBytes_endOffset, recHeaderSize]; omega),
    exec_setOffsets rfl, exec]
  simp only [withBytes_withBytes, withBytes_bytes, withBytes_endOffset, withBytes_beginOffset]
  replace hd := hd₅ _ (recordPos q.endOffset + recHeaderSize) data (by rw [recHeaderSize]; omega) hd
  rw [htotal _ hd, appended]

/-- The record is there, its successor links back to it, and the link at its own
position is the one given. -/
theorem recordAt_appended {mem : Nat → UInt8} {pos salt toPrev : Nat} {data : Bytes}
    (hlt : recHeaderSize + data.length < 2 ^ 32) :
    RecordAt (appended mem pos salt toPrev data) salt pos data := by
  have hlen : data.length < 2 ^ 32 := by omega
  constructor
  · simp only [appended, recHeaderSize]
    rw [u32At_poke_of_disjoint (.inl (by omega)), u32At_poke_of_disjoint (.inl (by omega)),
      u32At_poke_of_disjoint (.inl (by omega)), u32At_poke_of_disjoint (.inl (by omega)),
      u32At_poke_of_disjoint (.inl le_rfl), u32At_poke_of_disjoint (.inl (by omega)), initBytes,
      List.append_assoc,
      List.append_assoc, u32At_poke_prefix (by decide)]
  · simp only [appended, recHeaderSize]
    rw [u32At_poke_of_disjoint (.inl (by omega)), u32At_poke_of_disjoint (.inl (by omega)),
      u32At_poke_of_disjoint (.inl (by omega)), u32At_poke_of_disjoint (.inl (by omega)),
      u32At_poke_self (calcChecksum_lt ..)]
  · simp only [appended, recHeaderSize]
    rw [u32At_poke_of_disjoint (.inl (by omega)), u32At_poke_of_disjoint (.inl (by omega)),
      u32At_poke_of_disjoint (.inl (by omega)), u32At_poke_of_disjoint (.inl le_rfl),
      u32At_poke_of_disjoint (.inr (by rw [length_toLE])), u32At_poke_self hlen]
  · rw [appended, slice_poke_self]

theorem link_appended {mem : Nat → UInt8} {pos salt toPrev : Nat} {data : Bytes}
    (hlt : recHeaderSize + data.length < 2 ^ 32) :
    u32At (appended mem pos salt toPrev data) (pos + (recHeaderSize + data.length) + 12) =
      recHeaderSize + data.length := by
  simp only [appended, recHeaderSize]
  rw [u32At_poke_of_disjoint (.inr (by omega)), u32At_poke_self
    (show 16 + data.length < 2 ^ 32 from hlt)]

theorem slice_appended {mem : Nat → UInt8} {pos salt toPrev : Nat} {data : Bytes} :
    slice (appended mem pos salt toPrev data) (pos + 12) 4 = toLE 4 toPrev := by
  simp only [appended, recHeaderSize]
  rw [slice_poke_of_disjoint (.inl (by omega)), slice_poke_of_disjoint (.inl (by omega)),
    slice_poke_of_disjoint (.inl (by omega)), slice_poke_toLE]

theorem appended_of_lt {mem : Nat → UInt8} {pos salt toPrev a : Nat} {data : Bytes} (ha : a < pos) :
    appended mem pos salt toPrev data a = mem a := by
  simp only [appended]
  rw [poke_of_disjoint (.inl (by omega)), poke_of_disjoint (.inl (by omega)),
    poke_of_disjoint (.inl (by omega)),
    poke_of_disjoint (.inl (by omega)), poke_of_disjoint (.inl (by omega)),
    poke_of_disjoint (.inl (by omega)),
    poke_of_disjoint (.inl ha)]

theorem Represents.pushBackRaw (h : Represents q ds) {data : Bytes}
    (hlt : recHeaderSize + data.length < 2 ^ 32)
    (hreq : q.getRequiredFileSize data.length < 2 ^ 64) :
    ∃ q', exec (q.pushBackRaw data data.length) q = .ok q' ∧ Represents q' (ds ++ [data]) := by
  have hle := h.le
  have hin := h.inside
  generalize hn : q.getRequiredFileSize data.length = n at hreq
  have hn' : recordPos q.endOffset + recHeaderSize + data.length + recHeaderSize = n := by
    rw [← hn, getRequiredFileSize, recordPos]
    omega
  simp only [recordPos, fileHeaderSize, recHeaderSize] at hin hn'
  have hsize := q.file.le_resize_size (n := n) (by omega)
  have hkeep : ∀ a, a < recordPos q.endOffset + recHeaderSize →
      (q.file.resize n).bytes a = q.file.bytes a := by
    intro a ha
    simp only [recordPos, fileHeaderSize, recHeaderSize] at ha
    exact q.file.resize_bytes (by omega) (by omega)
  have hexec := exec_appendRecord (q := q.resize n) (q.toPrevAt q.endOffset) hlt (by
    simp only [resize_endOffset, resize_file, recordPos, fileHeaderSize, recHeaderSize]
    omega)
  refine ⟨_, (exec_resize (by rw [hn])).trans hexec, ?_, ?_, h.salt_lt, ?_⟩
  · simp only [withOffsets_salt, withOffsets_file, withOffsets_beginOffset, withOffsets_endOffset,
      withBytes_salt,
      withBytes_bytes, resize_salt, resize_beginOffset, resize_endOffset, resize_file]
    refine chain_concat.2 ⟨recordPos q.endOffset, h.chain.frame (fun a _ ha' _ => ?_)
      (fun _ a ha ha' => ?_),
      recordAt_appended hlt, hlt, ?_, ?_⟩
    · rw [appended_of_lt ha', hkeep a (by omega)]
    -- The link of the record that takes the place of the stub is kept.
    · have hs : slice (appended (q.file.resize n).bytes (recordPos q.endOffset) q.salt
          (q.toPrevAt q.endOffset) data)
            (recordPos q.endOffset + 12) 4 = slice q.file.bytes (recordPos q.endOffset + 12) 4 := by
        rw [slice_appended, toPrevAt, toLE_u32At]
      have := eq_of_slice_eq hs (i := a - (recordPos q.endOffset + 12)) (by omega)
      rwa [Nat.add_sub_cancel' ha] at this
    · rw [recordPos_add]
      exact link_appended hlt
    · rw [recordPos_add, Nat.add_assoc]
  · simp only [withOffsets_file, withOffsets_endOffset, withBytes_size, resize_endOffset,
      resize_file, recordPos,
      fileHeaderSize, recHeaderSize]
    omega
  · simp only [withOffsets_endOffset, resize_endOffset, recHeaderSize]
    omega

theorem Represents.resize (h : Represents q ds) {n : Nat}
    (hn : recordPos q.endOffset + recHeaderSize ≤ n) :
    Represents (q.resize n) ds := by
  have hin := h.inside
  simp only [recordPos, fileHeaderSize, headerSize, recHeaderSize] at hin hn
  have hsize := q.file.le_resize_size (n := n) (by omega)
  refine h.congr rfl rfl rfl ?_ fun a _ ha => ?_
  · rw [resize_file]
    simp only [recordPos, fileHeaderSize, headerSize, recHeaderSize]
    omega
  · simp only [recordPos, fileHeaderSize, headerSize, recHeaderSize] at ha
    exact q.file.resize_bytes (by omega) (by omega)

/-- The size of what `gc` and `reserveFrontSpace` copy: the records and the stub. -/
def bodySize (q : QueueFile) : Nat := q.endOffset + recHeaderSize - q.beginOffset

def copied (q : QueueFile) (newBgn : Nat) : QueueFile :=
  q.withBytes (poke q.file.bytes (recordPos newBgn) (slice q.file.bytes (recordPos q.beginOffset)
    q.bodySize))

section Copy

variable {newBgn : Nat} (h : Represents q ds)
  (hd : newBgn + q.bodySize ≤ q.beginOffset ∨ q.endOffset + recHeaderSize ≤ newBgn)

theorem copied_bytes {a : Nat} (ha : a < recordPos newBgn ∨ recordPos newBgn + q.bodySize ≤ a) :
    (q.copied newBgn).file.bytes a = q.file.bytes a :=
  poke_of_disjoint (by rwa [length_slice])

include h hd in
theorem Represents.copied : Represents (q.copied newBgn) ds := by
  have hle := h.le
  refine h.congr rfl rfl rfl h.inside fun a ha ha' => copied_bytes ?_
  simp only [bodySize, recordPos, recHeaderSize] at hd ha ha' ⊢
  omega

include h in
theorem Represents.copied_withOffsets (hsize : recordPos newBgn + q.bodySize ≤ q.file.size)
    (hlt : newBgn + q.bodySize - recHeaderSize < 2 ^ 64) :
    Represents ((q.copied newBgn).withOffsets newBgn (newBgn + q.bodySize - recHeaderSize)) ds := by
  have hle := h.le
  have hmem : ∀ i, i < q.bodySize →
      (q.copied newBgn).file.bytes (recordPos newBgn + i) =
      q.file.bytes (recordPos q.beginOffset + i) := by
    intro i hi
    change poke _ _ _ _ = _
    rw [poke_of_mem (by rwa [length_slice])]
    simp [slice]
  refine ⟨h.chain.move ?_ (fun i hi _ => hmem i ?_) fun _ i hi hi' => ?_, ?_, h.salt_lt, hlt⟩
  · simp only [withOffsets_endOffset, withOffsets_beginOffset, recordPos, bodySize, recHeaderSize]
    omega
  · simp only [recordPos, bodySize, recHeaderSize] at hi ⊢
    omega
  · have := hmem (q.endOffset - q.beginOffset + i) (by simp only [bodySize, recHeaderSize]; omega)
    rw [withOffsets_endOffset, withOffsets_file]
    rw [show recordPos q.endOffset + i = recordPos q.beginOffset + (q.endOffset - q.beginOffset + i) by
      simp only [recordPos]; omega, ← this]
    refine congrArg _ ?_
    simp only [recordPos, bodySize, recHeaderSize]
    omega
  · rw [withOffsets_endOffset, withOffsets_file]
    refine le_trans ?_ hsize
    simp only [recordPos, bodySize, recHeaderSize]
    omega

end Copy

theorem Represents.fileHeaderSize_le (h : Represents q ds) : fileHeaderSize ≤ q.file.size := by
  have := h.inside
  simp only [recordPos] at this
  omega

/-- The state after the header has been moved to the copied body. -/
def moved (q : QueueFile) (newBgn : Nat) : QueueFile :=
  ((q.copied newBgn).synced.withOffsets newBgn (newBgn + q.bodySize - recHeaderSize)).synced

theorem Represents.moved {newBgn : Nat} (h : Represents q ds)
    (hsize : recordPos newBgn + q.bodySize ≤ q.file.size)
    (hlt : newBgn + q.bodySize - recHeaderSize < 2 ^ 64) : Represents (q.moved newBgn) ds := by
  have hc := h.copied_withOffsets hsize hlt
  refine Represents.synced (hc.congr rfl rfl rfl hc.inside fun a ha _ => ?_)
  rw [withOffsets_file, withOffsets_file, QueueFile.synced, withBytes_bytes, headed_of_le length_header]
  simp only [withOffsets_beginOffset, recordPos] at ha
  omega

def reservedOffset (q : QueueFile) (size : Nat) : Nat := max (q.endOffset + recHeaderSize) size

theorem exec_reserveFrontSpace {size : Nat} (h : Represents q ds) (hlt : q.beginOffset < size) :
    exec (q.reserveFrontSpace size) q =
      .ok ((q.synced.resize (fileHeaderSize + q.reservedOffset size + q.bodySize)).moved
      (q.reservedOffset size)) := by
  have hfile := h.fileHeaderSize_le
  have hsize := q.synced.file.le_resize_size (n := fileHeaderSize + q.reservedOffset size + q.bodySize)
    (by simp only [fileHeaderSize, headerSize]; omega)
  rw [reserveFrontSpace, if_neg (not_le.2 hlt), List.append_assoc, List.append_assoc, List.append_assoc,
    exec_sync hfile, List.cons_append, exec_resize rfl, List.cons_append, List.nil_append,
    exec_store rfl (by rw [length_slice]; exact hsize), exec_sync, List.cons_append, exec_setOffsets rfl]
  · exact exec_sync_eq (le_trans (by omega) hsize)
  · exact le_trans (by omega) hsize

theorem bodySize_synced_resize (q : QueueFile) (n : Nat) :
    (q.synced.resize n).bodySize = q.bodySize := rfl

theorem Represents.reserveFrontSpace (h : Represents q ds) {size : Nat}
    (hreq : q.beginOffset < size → fileHeaderSize + q.reservedOffset size + q.bodySize < 2 ^ 64) :
    ∃ q', exec (q.reserveFrontSpace size) q = .ok q' ∧ Represents q' ds ∧ size ≤ q'.beginOffset := by
  rcases Nat.lt_or_ge q.beginOffset size with hlt | hge
  · refine ⟨_, exec_reserveFrontSpace h hlt, ?_, le_max_right _ _⟩
    have hle := h.le
    have hres : q.endOffset + recHeaderSize ≤ q.reservedOffset size := le_max_left _ _
    have hsize := q.synced.file.le_resize_size (n := fileHeaderSize + q.reservedOffset size + q.bodySize)
      (by simp only [fileHeaderSize, headerSize]; omega)
    refine (h.synced.resize ?_).moved hsize ?_
    · change recordPos q.endOffset + recHeaderSize ≤ _
      simp only [recordPos]
      omega
    · rw [bodySize_synced_resize]
      have := hreq hlt
      omega
  · exact ⟨q, by rw [QueueFile.reserveFrontSpace, if_pos hge, exec], h, hge⟩

theorem exec_gc (h : Represents q ds) (hle : q.bodySize ≤ q.beginOffset) :
    exec q.gc q = .ok (((q.synced.moved 0).resize
      ((q.synced.moved 0).getRequiredFileSize 0)).synced) := by
  have hfile := h.fileHeaderSize_le
  have hin := h.inside
  have hqle := h.le
  simp only [bodySize, recHeaderSize, recordPos] at hle hin
  have hroom : recordPos 0 + q.bodySize ≤ q.file.size := by
    simp only [bodySize, recordPos, recHeaderSize]
    omega
  rw [gc, if_neg (by simp only [recHeaderSize]; omega)]
  simp only [List.append_assoc]
  rw [exec_sync hfile, List.cons_append, List.nil_append,
    exec_store rfl (by rw [length_slice]; exact hroom),
    exec_sync (by simpa using hfile), List.cons_append, List.nil_append,
    exec_setOffsets (e := 0 + q.bodySize - recHeaderSize) (by rw [Nat.zero_add]; rfl),
    exec_sync (by simpa using hfile), List.cons_append, List.nil_append, exec_resize rfl]
  refine exec_sync_eq ?_
  refine le_trans ?_ (MmappedFile.le_resize_size _ ?_)
  · simp only [getRequiredFileSize]
    omega
  · simp only [getRequiredFileSize, recHeaderSize]
    omega

theorem Represents.gc (h : Represents q ds) : ∃ q', exec q.gc q = .ok q' ∧ Represents q' ds := by
  rcases Nat.lt_or_ge q.beginOffset q.bodySize with hlt | hge
  · exact ⟨q, by rw [QueueFile.gc]; exact congrArg (exec · q) (if_pos hlt), h⟩
  · have hin := h.inside
    have hle := h.le
    have hlt := h.endOffset_lt
    refine ⟨_, exec_gc h hge, Represents.synced ((h.synced.moved ?_ ?_).resize ?_)⟩
    · simp only [bodySize, synced_endOffset, synced_beginOffset, synced_size, recordPos] at hge hin ⊢
      omega
    · simp only [bodySize, synced_endOffset, synced_beginOffset, recHeaderSize] at hge ⊢
      omega
    · simp only [getRequiredFileSize, recordPos]
      omega

def prepended (mem : Nat → UInt8) (pos salt : Nat) (data : Bytes) : Nat → UInt8 :=
  poke (poke (poke (poke (poke mem pos initBytes) (pos + 8) (toLE 4 data.length))
    (pos + 4) (toLE 4 (calcChecksum data salt))) (pos + recHeaderSize) data)
    (pos + (recHeaderSize + data.length) + 12) (toLE 4 (recHeaderSize + data.length))

theorem exec_prependRecord {data : Bytes} (hroom : recHeaderSize + data.length ≤ q.beginOffset)
    (hsize : recordPos q.beginOffset + recHeaderSize ≤ q.file.size) :
    exec (prependRecord data data.length (recHeaderSize + data.length)) q = .ok
      ((q.withBytes (prepended q.file.bytes (recordPos (q.beginOffset -
        (recHeaderSize + data.length))) q.salt
        data)).withOffsets (q.beginOffset - (recHeaderSize + data.length)) q.endOffset) := by
  have hpos : recordPos q.beginOffset =
      recordPos (q.beginOffset - (recHeaderSize + data.length)) + (recHeaderSize + data.length) := by
    rw [← recordPos_add, Nat.sub_add_cancel hroom]
  rw [prependRecord, List.take_length, prepended, ← hpos]
  simp only [recHeaderSize] at hpos hsize
  rw [exec_store rfl (by rw [length_initBytes, recHeaderSize]; omega),
    exec_store rfl (by simp only [length_toLE, withBytes_size, withBytes_beginOffset, recHeaderSize]; omega),
    exec_store rfl (by simp only [length_toLE, withBytes_size, withBytes_beginOffset, recHeaderSize]; omega),
    exec_store rfl (by simp only [withBytes_size, withBytes_beginOffset, recHeaderSize]; omega),
    exec_store rfl (by simp only [length_toLE, withBytes_size, withBytes_beginOffset]; omega),
    exec_setOffsets rfl, exec]
  simp only [withBytes_withBytes, withBytes_bytes, withBytes_beginOffset, withBytes_endOffset,
    withBytes_salt]

theorem recordAt_prepended {mem : Nat → UInt8} {pos salt : Nat} {data : Bytes}
    (hlt : recHeaderSize + data.length < 2 ^ 32) :
    RecordAt (prepended mem pos salt data) salt pos data := by
  have hlen : data.length < 2 ^ 32 := by omega
  constructor
  · simp only [prepended, recHeaderSize]
    rw [u32At_poke_of_disjoint (.inl (by omega)), u32At_poke_of_disjoint (.inl (by omega)),
      u32At_poke_of_disjoint (.inl le_rfl), u32At_poke_of_disjoint (.inl (by omega)), initBytes,
      List.append_assoc,
      List.append_assoc, u32At_poke_prefix (by decide)]
  · simp only [prepended, recHeaderSize]
    rw [u32At_poke_of_disjoint (.inl (by omega)), u32At_poke_of_disjoint (.inl (by omega)),
      u32At_poke_self (calcChecksum_lt ..)]
  · simp only [prepended, recHeaderSize]
    rw [u32At_poke_of_disjoint (.inl (by omega)), u32At_poke_of_disjoint (.inl (by omega)),
      u32At_poke_of_disjoint (.inr (by rw [length_toLE])), u32At_poke_self hlen]
  · simp only [prepended, recHeaderSize]
    rw [slice_poke_of_disjoint (.inl (by omega)), slice_poke_self]

theorem prepended_of_le {mem : Nat → UInt8} {pos salt a : Nat} {data : Bytes}
    (ha : pos + (recHeaderSize + data.length) ≤ a)
    (ha' : ¬(pos + (recHeaderSize + data.length) + 12 ≤ a ∧
      a < pos + (recHeaderSize + data.length) + 16)) :
    prepended mem pos salt data a = mem a := by
  simp only [prepended, recHeaderSize] at ha ha' ⊢
  rw [poke_of_disjoint (by rw [length_toLE]; omega), poke_of_disjoint (.inr (by omega)),
    poke_of_disjoint (.inr (by rw [length_toLE]; omega)),
    poke_of_disjoint (.inr (by rw [length_toLE]; omega)),
    poke_of_disjoint (.inr (by rw [length_initBytes, recHeaderSize]; omega))]

theorem Represents.prependRecord (h : Represents q ds) {data : Bytes}
    (hlt : recHeaderSize + data.length < 2 ^ 32)
    (hroom : recHeaderSize + data.length ≤ q.beginOffset) :
    ∃ q', exec (prependRecord data data.length (recHeaderSize + data.length)) q = .ok q' ∧
      Represents q' (data :: ds) := by
  have hle := h.le
  have hin := h.inside
  refine ⟨_, exec_prependRecord hroom (le_trans (by simp only [recordPos]; omega) hin), ?_, hin,
    h.salt_lt,
    h.endOffset_lt⟩
  have hpos : recordPos q.beginOffset =
      recordPos (q.beginOffset - (recHeaderSize + data.length)) + (recHeaderSize + data.length) := by
    rw [← recordPos_add, Nat.sub_add_cancel hroom]
  simp only [withOffsets_salt, withOffsets_file, withOffsets_beginOffset, withOffsets_endOffset,
    withBytes_salt,
    withBytes_bytes]
  refine ⟨recordAt_prepended hlt, hlt, ?_, ?_⟩
  · rw [Nat.add_assoc (recordPos _), prepended, u32At_poke_self hlt]
  · rw [Nat.add_assoc (recordPos _), ← hpos]
    refine h.chain.frame (fun a ha ha' hn => ?_) fun hne a ha ha' => ?_
    · exact prepended_of_le (hpos ▸ ha) (hpos ▸ hn)
    · have := h.chain.add_le hne
      simp only [recHeaderSize] at this
      exact prepended_of_le (by omega) (by omega)

theorem Represents.pushFrontRaw (h : Represents q ds) {data : Bytes}
    (hlt : recHeaderSize + data.length < 2 ^ 32)
    (hreq : q.beginOffset < recHeaderSize + data.length →
      fileHeaderSize + q.reservedOffset (recHeaderSize + data.length) + q.bodySize < 2 ^ 64) :
    ∃ q', exec (q.pushFrontRaw data data.length) q = .ok q' ∧ Represents q' (data :: ds) := by
  obtain ⟨q₁, hq₁, h₁, hroom⟩ := h.reserveFrontSpace hreq
  obtain ⟨q₂, hq₂, h₂⟩ := h₁.prependRecord hlt hroom
  refine ⟨q₂, ?_, h₂⟩
  rw [QueueFile.pushFrontRaw, Nat.mod_eq_of_lt hlt, exec_append hq₁, hq₂]

section Read

variable {d : Bytes} {offset : Nat}

theorem assignString_of_recordAt (h : RecordAt q.file.bytes q.salt (recordPos offset) d) :
    q.assignString offset = d := by
  rw [assignString, dataSizeAt, h.dataSize, h.data]

theorem totalSizeAt_of_recordAt (h : RecordAt q.file.bytes q.salt (recordPos offset) d)
    (hlt : recHeaderSize + d.length < 2 ^ 32) : q.totalSizeAt offset = recHeaderSize + d.length :=
  totalSizeAt_eq h.dataSize hlt

theorem forward_eq (h : Chain q.file.bytes q.salt (recordPos offset) ds (recordPos q.endOffset))
    {n : Nat}
    (hn : ds.length ≤ n) : q.forward n offset = some ds := by
  induction ds generalizing offset n with
  | nil =>
      have hend : offset = q.endOffset :=
        Nat.add_left_cancel (show recordPos offset = recordPos q.endOffset from h)
      cases n with
      | zero => exact if_pos hend
      | succ n => exact if_pos hend
  | cons d ds ih =>
      obtain ⟨n, rfl⟩ : ∃ m, n = m + 1 := ⟨n - 1, by simp only [List.length_cons] at hn; omega⟩
      have hne : offset ≠ q.endOffset :=
        fun he => absurd (h.eq_iff.1 (congrArg recordPos he)) (List.cons_ne_nil _ _)
      obtain ⟨hrec, hlt, -, htail⟩ := h
      rw [Nat.add_assoc, ← recordPos_add] at htail
      rw [forward, if_neg hne, totalSizeAt_of_recordAt hrec hlt,
        ih htail (Nat.le_of_succ_le_succ hn), assignString_of_recordAt hrec]
      rfl

theorem backward_eq (h : Chain q.file.bytes q.salt (recordPos q.beginOffset) ds (recordPos offset))
    {n : Nat}
    (hn : ds.length ≤ n) : q.backward n offset = some ds.reverse := by
  induction ds using List.reverseRecOn generalizing offset n with
  | nil =>
      have hbegin : offset = q.beginOffset :=
        (Nat.add_left_cancel (show recordPos q.beginOffset = recordPos offset from h)).symm
      cases n with
      | zero => exact if_pos hbegin
      | succ n => exact if_pos hbegin
  | append_singleton ds d ih =>
      obtain ⟨n, rfl⟩ : ∃ m, n = m + 1 :=
        ⟨n - 1, by simp only [List.length_append, List.length_singleton] at hn; omega⟩
      have hne : offset ≠ q.beginOffset := fun he =>
        absurd (h.eq_iff.1 (congrArg recordPos he.symm))
          (List.append_ne_nil_of_right_ne_nil _ (List.cons_ne_nil _ _))
      obtain ⟨mid, hchain, hrec, -, hlink, hlast⟩ := chain_concat.1 h
      have hle := hchain.le
      have hmid : mid = recordPos (offset - (recHeaderSize + d.length)) := by
        simp only [recordPos] at hlast hle ⊢
        omega
      rw [hmid] at hchain hrec
      rw [List.length_append, List.length_singleton] at hn
      rw [backward, if_neg hne, toPrevAt, hlink, ih hchain (Nat.le_of_succ_le_succ hn),
        assignString_of_recordAt hrec,
        List.reverse_append]
      rfl

theorem Represents.empty_iff (h : Represents q ds) : q.empty ↔ ds = [] := by
  rw [← h.chain.eq_iff, empty]
  simp only [recordPos]
  omega

theorem Represents.frontRaw_cons (h : Represents q (d :: ds)) : q.frontRaw = .ok d := by
  have hne := mt h.empty_iff.1 (List.cons_ne_nil _ _)
  rw [frontRaw, if_neg hne, assignString_of_recordAt h.chain.1]

theorem Represents.last (h : Represents q (ds ++ [d])) :
    Chain q.file.bytes q.salt (recordPos q.beginOffset) ds
      (recordPos (q.endOffset - q.toPrevAt q.endOffset)) ∧
      RecordAt q.file.bytes q.salt (recordPos (q.endOffset - q.toPrevAt q.endOffset)) d := by
  obtain ⟨mid, hchain, hrec, -, hlink, hlast⟩ := chain_concat.1 h.chain
  have hle := hchain.le
  have hmid : mid = recordPos (q.endOffset - q.toPrevAt q.endOffset) := by
    rw [toPrevAt, hlink]
    simp only [recordPos] at hlast hle ⊢
    omega
  exact hmid ▸ ⟨hchain, hrec⟩

theorem Represents.backRaw_concat (h : Represents q (ds ++ [d])) : q.backRaw = .ok d := by
  have hne := mt h.empty_iff.1 (List.append_ne_nil_of_right_ne_nil _ (List.cons_ne_nil _ _))
  rw [backRaw, if_neg hne, assignString_of_recordAt h.last.2]

end Read

theorem Represents.popFront (h : Represents q ds) :
    if ds = [] then q.popFront = .error (.exception "popFront:empty")
    else ∃ q', q.popFront = .ok q' ∧ Represents q' ds.tail := by
  cases ds with
  | nil =>
      rw [if_pos rfl, QueueFile.popFront, if_pos (h.empty_iff.2 rfl)]
  | cons d ds =>
      obtain ⟨hrec, hlt, -, htail⟩ := h.chain
      rw [if_neg (List.cons_ne_nil _ _), QueueFile.popFront,
        if_neg (mt h.empty_iff.1 (List.cons_ne_nil _ _)),
        exec_setOffsets rfl]
      refine ⟨_, rfl, ?_, h.inside, h.salt_lt, h.endOffset_lt⟩
      rw [Nat.add_assoc, ← recordPos_add] at htail
      simpa only [withOffsets_beginOffset, withOffsets_endOffset, withOffsets_file, withOffsets_salt,
        totalSizeAt_of_recordAt hrec hlt, List.tail_cons] using htail

theorem Represents.popBack (h : Represents q ds) :
    if ds = [] then q.popBack = .error (.exception "popBack:empty")
    else ∃ q', q.popBack = .ok q' ∧ Represents q' ds.dropLast := by
  rcases List.eq_nil_or_concat ds with rfl | ⟨ds, d, rfl⟩
  · rw [if_pos rfl, QueueFile.popBack, if_pos (h.empty_iff.2 rfl)]
  · rw [List.concat_eq_append] at h ⊢
    have hne : ds ++ [d] ≠ [] := List.append_ne_nil_of_right_ne_nil _ (List.cons_ne_nil _ _)
    rw [if_neg hne, QueueFile.popBack, if_neg (mt h.empty_iff.1 hne), exec_setOffsets rfl,
      List.dropLast_concat]
    have hin := h.inside
    have hlt := h.endOffset_lt
    refine ⟨_, rfl, h.last.1, le_trans ?_ hin, h.salt_lt, lt_of_le_of_lt (Nat.sub_le _ _) hlt⟩
    simp only [withOffsets_endOffset, recordPos]
    omega

theorem Represents.clear (h : Represents q ds) :
    ∃ q', exec QueueFile.clear q = .ok q' ∧ Represents q' [] := by
  have hin := h.inside
  simp only [recHeaderSize] at hin
  rw [QueueFile.clear, exec_setOffsets rfl, exec_store rfl (by
    simp only [withOffsets_endOffset, withOffsets_file, length_toLE]
    omega), exec]
  exact ⟨_, rfl, rfl, hin, h.salt_lt, h.endOffset_lt⟩

theorem Represents.openFile (h : Represents q ds) (hs : slice q.file.bytes 0 headerSize = q.header) :
    openFile q.file = .ok q.synced := by
  have hb := lt_of_le_of_lt h.le h.endOffset_lt
  rw [QueueFile.openFile, hs, if_pos isValidFileHeader_header,
    ofHeader_header h.salt_lt hb h.endOffset_lt]
  exact exec_sync_eq h.fileHeaderSize_le

theorem represents_create (f : MmappedFile) {salt : Nat} (hs : salt < 2 ^ 32) :
    ∃ q, create f salt = .ok q ∧ Represents q [] := by
  have hsize := f.le_resize_size (n := fileHeaderSize + recHeaderSize) (by decide)
  have hfile : fileHeaderSize ≤ (f.resize (fileHeaderSize + recHeaderSize)).size :=
    le_trans (by decide) hsize
  rw [create, exec_store rfl (by rw [length_initBytes]; exact hsize)]
  refine ⟨_, exec_sync_eq hfile, Represents.synced ⟨rfl, hsize, hs, ?_⟩⟩
  exact show 0 < 2 ^ 64 by decide

/-- The record fits its 32 bit sizes, and the file grows within 64 bits. -/
def Fits (q : QueueFile) : Op T → Prop
  | .pushFront t =>
      recHeaderSize + (S.save t).length < 2 ^ 32 ∧
        (q.beginOffset < recHeaderSize + (S.save t).length →
          fileHeaderSize + q.reservedOffset (recHeaderSize + (S.save t).length) + q.bodySize < 2 ^ 64)
  | .pushBack t =>
      recHeaderSize + (S.save t).length < 2 ^ 32 ∧ q.getRequiredFileSize (S.save t).length < 2 ^ 64
  | .reserveFrontSpace size =>
      q.beginOffset < size → fileHeaderSize + q.reservedOffset size + q.bodySize < 2 ^ 64
  | _ => True

variable {S} {l : List T}

theorem rawSize_eq {t : T} (h : recHeaderSize + (S.save t).length < 2 ^ 32) :
    rawSize S t = (S.save t).length :=
  Nat.mod_eq_of_lt (by omega)

/-- Each operation does what it does to the deque. -/
theorem Represents.step (h : Represents q (l.map S.save)) {op : Op T} (hf : Fits S q op) :
    match Deque.step op l with
    | .ok l' => ∃ q', step S op q = .ok q' ∧ Represents q' (l'.map S.save)
    | .error e => step S op q = .error e := by
  cases op with
  | pushFront t =>
      obtain ⟨q', hq', h'⟩ := h.pushFrontRaw hf.1 hf.2
      exact ⟨q', by rw [QueueFile.step, rawSize_eq hf.1, hq'], h'⟩
  | pushBack t =>
      obtain ⟨q', hq', h'⟩ := h.pushBackRaw hf.1 hf.2
      exact ⟨q', by rw [QueueFile.step, rawSize_eq hf.1, hq'], by rwa [List.map_append]⟩
  | popFront =>
      have hp := h.popFront
      by_cases hl : l = []
      · subst hl
        exact hp
      · rw [if_neg (by simpa using hl), ← List.map_tail] at hp
        rw [Deque.step, if_neg hl]
        exact hp
  | popBack =>
      have hp := h.popBack
      by_cases hl : l = []
      · subst hl
        exact hp
      · rw [if_neg (by simpa using hl), ← List.map_dropLast] at hp
        rw [Deque.step, if_neg hl]
        exact hp
  | clear => exact h.clear
  | gc => exact h.gc
  | reserveFrontSpace size =>
      obtain ⟨q', hq', h', -⟩ := h.reserveFrontSpace hf
      exact ⟨q', hq', h'⟩
  | sync => exact ⟨_, exec_sync_eq h.fileHeaderSize_le, h.synced⟩
  | reopen =>
      refine ⟨q.synced.synced, ?_, h.synced.synced⟩
      have hsync : exec QueueFile.sync q = .ok q.synced := exec_sync_eq h.fileHeaderSize_le
      rw [QueueFile.step, hsync]
      exact h.synced.openFile (synced_synced q).fst

variable (S) in
/-- An operation that throws leaves the queue. -/
def after (q : QueueFile) (op : Op T) : QueueFile :=
  match step S op q with
  | .ok q' => q'
  | .error _ => q

variable (S) in
def FitsAll : QueueFile → List (Op T) → Prop
  | _, [] => True
  | q, op :: ops => Fits S q op ∧ FitsAll (after S q op) ops

instance (q : QueueFile) : ∀ op : Op T, Decidable (Fits S q op)
  | .pushFront _ => inferInstanceAs (Decidable (_ ∧ (_ → _)))
  | .pushBack _ => inferInstanceAs (Decidable (_ ∧ _))
  | .reserveFrontSpace _ => inferInstanceAs (Decidable (_ → _))
  | .popFront | .popBack | .clear | .gc | .sync | .reopen => isTrue trivial

instance decidableFitsAll : ∀ (q : QueueFile) (ops : List (Op T)), Decidable (FitsAll S q ops)
  | _, [] => isTrue trivial
  | q, op :: ops =>
      haveI := decidableFitsAll (after S q op) ops
      inferInstanceAs (Decidable (_ ∧ _))

theorem Represents.run (h : Represents q (l.map S.save)) {ops : List (Op T)} (hf : FitsAll S q ops) :
    ∃ q' l', Queue.run (QueueFile.step S) ops q = some q' ∧ Queue.run Deque.step ops l = some l' ∧
      Represents q' (l'.map S.save) := by
  induction ops generalizing q l with
  | nil => exact ⟨q, l, rfl, rfl, h⟩
  | cons op ops ih =>
      obtain ⟨hop, hops⟩ := hf
      have hstep := h.step hop
      cases hd : Deque.step op l with
      | ok l' =>
          rw [hd] at hstep
          obtain ⟨q', hq', h'⟩ := hstep
          rw [after, hq'] at hops
          rw [Queue.run, Queue.run, hq', hd]
          exact ih h' hops
      | error e =>
          rw [hd] at hstep
          replace hstep : QueueFile.step S op q = .error e := hstep
          rw [after, hstep] at hops
          rw [Queue.run, Queue.run, hstep, hd]
          cases e with
          | exception msg => exact ih h hops
          | segv => exact absurd hd (Deque.step_ne_segv op l)

variable (S) in
/-- All that can be seen of the queue is the deque. -/
structure Agrees (q : QueueFile) (l : List T) : Prop where
  empty : q.empty ↔ l = []
  front : front S q = l.head?.elim (.error (.exception "frontRaw:empty")) .ok
  back : back S q = l.getLast?.elim (.error (.exception "backRaw:empty")) .ok
  forward : ∀ n, l.length ≤ n → (q.forward n q.beginOffset).map (List.map S.load) = some (l.map some)
  backward : ∀ n, l.length ≤ n → (q.backward n q.endOffset).map (List.map S.load) =
    some (l.reverse.map some)

theorem Represents.agrees (hS : S.Lawful) (h : Represents q (l.map S.save)) : Agrees S q l where
  empty := by rw [h.empty_iff, List.map_eq_nil_iff]
  front := by
    cases l with
    | nil => rw [QueueFile.front, frontRaw, if_pos (h.empty_iff.2 rfl)]; rfl
    | cons t l => rw [QueueFile.front, Represents.frontRaw_cons h, load, hS t]; rfl
  back := by
    rcases List.eq_nil_or_concat l with rfl | ⟨l, t, rfl⟩
    · rw [QueueFile.back, backRaw, if_pos (h.empty_iff.2 rfl)]
      rfl
    · rw [List.concat_eq_append, List.map_append] at h
      rw [QueueFile.back, Represents.backRaw_concat h, load, hS t, List.concat_eq_append,
        List.getLast?_concat]
      rfl
  forward n hn := by
    rw [forward_eq h.chain (by rwa [List.length_map])]
    simp only [Option.map_some, List.map_map]
    exact congrArg some (List.map_congr_left fun t _ => hS t)
  backward n hn := by
    rw [backward_eq h.chain (by rwa [List.length_map]), ← List.map_reverse]
    simp only [Option.map_some, List.map_map]
    exact congrArg some (List.map_congr_left fun t _ => hS t)

/-- From its creation on, the queue is the deque of the same operations. -/
theorem queue_agrees (hS : S.Lawful) (f : MmappedFile) {salt : Nat} (hs : salt < 2 ^ 32) {q₀ : QueueFile}
    (h₀ : create f salt = .ok q₀) {ops : List (Op T)} (hf : FitsAll S q₀ ops) :
    ∃ q l, Queue.run (QueueFile.step S) ops q₀ = some q ∧ Queue.run Deque.step ops [] = some l ∧
      Agrees S q l := by
  obtain ⟨q, hq, h⟩ := represents_create f hs
  rw [h₀] at hq
  cases hq
  obtain ⟨q', l', hq', hl', h'⟩ := Represents.run (S := S) (l := []) h hf
  exact ⟨q', l', hq', hl', h'.agrees hS⟩

end QueueFile

def raw : Serializer Bytes := ⟨id, some⟩

theorem raw_lawful : raw.Lawful := fun _ => rfl

namespace QueueFile

def emptyFile : MmappedFile := ⟨4096, 0, fun _ => 0, by decide⟩

theorem queue_agrees_six :
    ∃ q₀ q l, create emptyFile 5 = .ok q₀ ∧
      Queue.run (QueueFile.step raw)
        [.pushBack [7], .pushFront [3, 4], .pushBack [], .popFront, .gc, .reopen] q₀ = some q ∧
      Queue.run Deque.step [.pushBack [7], .pushFront [3, 4], .pushBack [], .popFront, .gc,
      .reopen] [] = some l ∧
      Agrees raw q l := by
  obtain ⟨q₀, h₀, hf⟩ : ∃ q₀, create emptyFile 5 = .ok q₀ ∧
      FitsAll raw q₀ [.pushBack [7], .pushFront [3, 4], .pushBack [], .popFront, .gc, .reopen] :=
    ⟨_, rfl, by decide +kernel⟩
  obtain ⟨q, l, hq, hl, h⟩ := queue_agrees raw_lawful emptyFile (by decide) h₀ hf
  exact ⟨q₀, q, l, h₀, hq, hl, h⟩

theorem front_of_rawSize_eq_zero {d : Bytes} (hd : rawSize raw d = 0) :
    ∃ q₀ q, create emptyFile 5 = .ok q₀ ∧ QueueFile.step raw (.pushBack d) q₀ = .ok q ∧
      front raw q = .ok [] := by
  obtain ⟨q₀, h₀, hreq⟩ : ∃ q₀, create emptyFile 5 = .ok q₀ ∧ q₀.getRequiredFileSize 0 < 2 ^ 64 :=
    ⟨_, rfl, by decide +kernel⟩
  obtain ⟨q₁, h₁, h⟩ := represents_create emptyFile (show 5 < 2 ^ 32 by decide)
  rw [h₀] at h₁
  cases h₁
  obtain ⟨q, hq, hrep⟩ :=
    Represents.pushBackRaw h (by decide : recHeaderSize + ([] : Bytes).length < 2 ^ 32) hreq
  refine ⟨q₀, q, h₀, ?_, ?_⟩
  · rw [QueueFile.step, hd, ← hq]
    simp only [QueueFile.pushBackRaw, appendRecord, List.take_zero, List.length_nil]
  · rw [front, hrep.frontRaw_cons]
    rfl

theorem rawSize_replicate (n : Nat) : rawSize raw (List.replicate n 1) = n % 2 ^ 32 :=
  congrArg (· % 2 ^ 32) List.length_replicate

/-- A record of 4 GiB, which reads back as the empty one. -/
theorem long_record_lost :
    ∃ q₀ q, create emptyFile 5 = .ok q₀ ∧
      QueueFile.step raw (.pushBack (List.replicate (2 ^ 32) 1)) q₀ = .ok q ∧ front raw q = .ok [] :=
  front_of_rawSize_eq_zero ((rawSize_replicate (2 ^ 32)).trans (Nat.mod_self _))

end QueueFile

end WalbTools.Queue
