import WalbTools.Queue
import WalbTools.WriteBack

namespace WalbTools.QueueCrash

open Overlay ByteMemory Queue QueueFile
open WriteBack (Store)

/-- The file has at least that size, and any of the bytes that were stored since the last
`msync`. -/
structure Disk where
  size : Nat
  bytes : Store Nat UInt8

namespace Disk

def of (f : MmappedFile) : Disk := ⟨f.size, .settled f.bytes⟩

def after (D : Disk) (q : QueueFile) : Effect → Disk
  | .store off l => ⟨D.size, D.bytes.write (stretch off l)⟩
  | .resize n => ⟨min D.size (q.file.resize n).size,
      D.bytes.write fun a => if a < min q.file.size (q.file.resize n).size then none else some 0⟩
  | .msync => of q.file
  | .setOffsets _ _ => D

/-- What a power failure may leave. -/
def Image (D : Disk) (f : MmappedFile) : Prop :=
  D.size ≤ f.size ∧ ∀ a, a < D.size → f.bytes a ∈ D.bytes.left a

def exec (D : Disk) : List (QueueFile → Effect) → QueueFile → Disk
  | [], _ => D
  | st :: sts, q =>
      match q.perform (st q) with
      | none => D
      | some q' => exec (D.after q (st q)) sts q'

end Disk

/-- Where the records are, but for the link of the first one. -/
def Body (q : QueueFile) (a : Nat) : Prop :=
  recordPos q.beginOffset ≤ a ∧ a < recordPos q.endOffset + recHeaderSize ∧
    ¬(recordPos q.beginOffset + 12 ≤ a ∧ a < recordPos q.beginOffset + 16)

/-- Whatever has been written back, the disk has the header and the records of the queue. -/
structure Settled (q : QueueFile) (D : Disk) : Prop where
  synced : Synced q
  size_le : recordPos q.endOffset + recHeaderSize ≤ D.size
  holds : ∀ a, a < fileHeaderSize ∨ Body q a → D.bytes.Holds a (q.file.bytes a)

section Reopen

variable {q : QueueFile} {D : Disk} {f : MmappedFile} {ds : List Bytes}

theorem Settled.bytes (hS : Settled q D) (hf : D.Image f) {a : Nat}
    (ha : a < fileHeaderSize ∨ Body q a) :
    f.bytes a = q.file.bytes a := by
  have hle := hS.size_le
  refine (hS.holds a ha).eq_of_mem (hf.2 a ?_)
  rcases ha with ha | ha
  · simp only [recordPos] at hle
    omega
  · exact ha.2.1.trans_le hle

theorem Settled.store {off : Nat} {l : Bytes} (hS : Settled q D)
    (hout : ∀ a, a < fileHeaderSize ∨ Body q a → a < off ∨ off + l.length ≤ a) :
    Settled (q.withBytes (poke q.file.bytes off l)) (D.after q (.store off l)) := by
  have hhead : ∀ a, a < fileHeaderSize → poke q.file.bytes off l a = q.file.bytes a := fun a ha =>
    poke_of_disjoint (hout a (.inl ha))
  refine ⟨⟨?_, ?_⟩, hS.size_le, fun a ha => ?_⟩
  · refine (slice_congr fun a _ ha => hhead a ?_).trans hS.synced.fst
    simp only [fileHeaderSize]
    omega
  · refine (slice_congr fun a _ ha => hhead a ?_).trans hS.synced.snd
    simp only [fileHeaderSize]
    omega
  · rw [withBytes_bytes, poke_of_disjoint (hout a ha)]
    exact (hS.holds a ha).write (.inl (stretch_eq_none_iff.2 (hout a ha)))

theorem Settled.resize {n : Nat} (hS : Settled q D) (h : Represents q ds)
    (hn : recordPos q.endOffset + recHeaderSize ≤ n) : Settled (q.resize n) (D.after q (.resize n)) := by
  have hin := h.inside
  have hle := h.le
  have hsize := q.file.le_resize_size (n := n) (by simp only [recordPos, recHeaderSize] at hn; omega)
  have hkeep : ∀ a, a < recordPos q.endOffset + recHeaderSize →
      (q.resize n).file.bytes a = q.file.bytes a :=
    fun a ha => q.file.resize_bytes (ha.trans_le hin) (ha.trans_le hn)
  have hhead : ∀ a, a < fileHeaderSize → (q.resize n).file.bytes a = q.file.bytes a := fun a ha =>
    hkeep a (by simp only [recordPos]; omega)
  refine ⟨⟨?_, ?_⟩, le_min hS.size_le (hn.trans hsize), fun a ha => ?_⟩
  · refine (slice_congr fun a _ ha => hhead a ?_).trans hS.synced.fst
    simp only [fileHeaderSize]
    omega
  · refine (slice_congr fun a _ ha => hhead a ?_).trans hS.synced.snd
    simp only [fileHeaderSize]
    omega
  · have hlt : a < recordPos q.endOffset + recHeaderSize :=
      ha.elim (fun ha => by simp only [recordPos]; omega) fun hb => hb.2.1
    rw [hkeep a hlt]
    exact (hS.holds a ha).write (.inl (if_pos (lt_min (hlt.trans_le hin)
      (hlt.trans_le (hn.trans hsize)))))

end Reopen

section Statements

variable {q : QueueFile} {D : Disk} {f : MmappedFile} {ds : List Bytes} {k : Nat}
  {st : QueueFile → Effect}
  {sts : List (QueueFile → Effect)}

theorem Disk.Image.store {off : Nat} {l : Bytes} (h : D.Image f) : (D.after q (.store off l)).Image f :=
  ⟨h.1, fun a ha => .inr (h.2 a ha)⟩

def reserved (q : QueueFile) (size : Nat) : QueueFile :=
  if size ≤ q.beginOffset then q
  else q.withOffsets (q.reservedOffset size) (q.reservedOffset size + q.bodySize - recHeaderSize)

def fronted (q : QueueFile) (size : Nat) : QueueFile := q.withOffsets (q.beginOffset - size) q.endOffset

def Laid (f : MmappedFile) (salt pos : Nat) (d : Bytes) : Prop :=
  RecordAt f.bytes salt pos d ∧ u32At f.bytes (pos + recHeaderSize + d.length + 12) =
    recHeaderSize + d.length

section Fronted

variable {data : Bytes} (h : Represents q ds) (hroom : recHeaderSize + data.length ≤ q.beginOffset)
  (hs : slice f.bytes 0 headerSize = (fronted q (recHeaderSize + data.length)).header)

end Fronted

end Statements

section Mixes

end Mixes

inductive Compaction (T : Type) where
  | gc
  | reserveFrontSpace (size : Nat)
  /-- Followed by `sync`. -/
  | pushFront (t : T)

section Compaction

variable {T : Type} (S : Serializer T)

def Compaction.op : Compaction T → Op T
  | .gc => .gc
  | .reserveFrontSpace size => .reserveFrontSpace size
  | .pushFront t => .pushFront t

def Compaction.statements (q : QueueFile) : Compaction T → List (QueueFile → Effect)
  | .gc => q.gc
  | .reserveFrontSpace size => q.reserveFrontSpace size
  | .pushFront t => q.pushFrontRaw (S.save t) (rawSize S t) ++ sync

/-- The header of the new record has not been written back before the record. -/
def Compaction.Ordered (q : QueueFile) (f : MmappedFile) : Compaction T → Prop
  | .gc => True
  | .reserveFrontSpace _ => True
  | .pushFront t =>
      let totalSize := recHeaderSize + (S.save t).length
      slice f.bytes 0 headerSize = (fronted (reserved q totalSize) totalSize).header →
        Laid f q.salt (recordPos ((reserved q totalSize).beginOffset - totalSize)) (S.save t)

/-- What an operation does to the file. The destructor and the constructor both end with
`sync`; what changes the header in memory only does nothing. -/
def statements (q : QueueFile) : Op T → List (QueueFile → Effect)
  | .pushFront t => q.pushFrontRaw (S.save t) (rawSize S t)
  | .pushBack t => q.pushBackRaw (S.save t) (rawSize S t)
  | .popFront | .popBack => []
  | .clear => QueueFile.clear
  | .gc => q.gc
  | .reserveFrontSpace size => q.reserveFrontSpace size
  | .sync => sync
  | .reopen => sync ++ sync

def Disk.run (D : Disk) : List (Op T) → QueueFile → Disk
  | [], _ => D
  | op :: ops, q => (D.exec (statements S q op) q).run ops (QueueFile.after S q op)

variable {S} {q : QueueFile} {D : Disk} {f : MmappedFile} {l : List T} {k : Nat}

theorem Disk.exec_cons {st : QueueFile → Effect} {sts : List (QueueFile → Effect)} {q' : QueueFile}
    (hp : q.perform (st q) = some q') : D.exec (st :: sts) q = (D.after q (st q)).exec sts q' := by
  rw [Disk.exec, hp]

theorem Disk.exec_sync (h : fileHeaderSize ≤ q.file.size) : D.exec sync q = .of q.synced.file := by
  have hlen := length_header (q := q)
  simp only [fileHeaderSize] at h
  have hfst : q.perform (.store 0 q.header) = some (q.withBytes (poke q.file.bytes 0 q.header)) := by
    rw [perform, if_pos (by omega)]
  have hsnd : (q.withBytes (poke q.file.bytes 0 q.header)).perform (.store headerSize q.header) =
      some q.synced := by
    rw [perform, withBytes_size, if_pos (by omega)]
    rfl
  rw [sync, Disk.exec_cons hfst, Disk.exec_cons rfl, Disk.exec_cons hsnd, Disk.exec_cons rfl]
  rfl

end Compaction

section HeaderFirst

variable {q q' : QueueFile} {D : Disk} {f : MmappedFile} {k : Nat} {sts sts' : List (QueueFile → Effect)}

end HeaderFirst

end WalbTools.QueueCrash
