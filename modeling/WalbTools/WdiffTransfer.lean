import WalbTools.DiffCompressor
import WalbTools.DiffIssue
import WalbTools.MergeProgress
import WalbTools.PackFile

namespace WalbTools.WdiffTransfer

open ByteMemory DiffIo DiffIo.DiffRecIo DiffMem DiffMerge DiffPack DiffCompressor DiffHeader
  MergeProgress
open LogicalBlock (toBytes ofBytes)
open Compression (Codecs)
open DirtyHashSync (Msg)
open PackFile (packBytes verifyDiffPack verifyDiffPackSize Carries Delivers Narrow delivers_convertAs
  verifyDiffPack_packBytes readAll_packs)
open SortedFile (SortedDiffReader eofBytes)
open DiffIssue (DEFAULT_MERGE_BUFFER_LB DEFAULT_MAX_IO_LB)

/-- The compression libraries: `compress` of a type and a level, into a buffer of a given
size, and `uncompress` of a type. -/
structure Library where
  compress : Nat → Nat → Nat → Bytes → Option Bytes
  uncompress : Nat → Bytes → Option Bytes

structure Library.Lawful (lib : Library) : Prop where
  uncompress_compress : ∀ type level n b e, lib.compress type level n b = some e →
    lib.uncompress type e = some b

structure CompressOpt where
  type : Nat
  level : Nat
  numCpu : Nat
  type_lt : type < WALB_DIFF_CMPR_MAX
  level_le : level ≤ 9
  numCpu_pos : 0 < numCpu

def asIs : Codec := ⟨fun maxOutSize b => if maxOutSize < b.length then none else some b, some⟩

def Library.codec (lib : Library) (type level : Nat) : Codec :=
  if type = WALB_DIFF_CMPR_NONE then asIs else ⟨lib.compress type level, lib.uncompress type⟩

def Library.codecs (lib : Library) : Codecs := ⟨fun _ _ _ => none, lib.uncompress⟩

/-- Where the client's thread is: in `getAndRemove`, with a record, in `push` (with a record
that is still to be added, or behind the loop), in `pop` (in the loop, or behind it),
or done. -/
inductive Pc where
  | get
  | got (r : DiffRecIo LogicalBlock)
  | pushing (r : DiffRecIo LogicalBlock)
  | popping
  | pushingLast
  | draining
  | returned (b : Bool)
  | threw (e : String)

structure Client where
  merger : DiffMerger LogicalBlock
  packer : Pack
  pushedNum : Nat
  pc : Pc

/-- `file` holds what was written, from the header of the wdiff on. -/
structure Server where
  file : Bytes
  outcome : Option (Except String Bool)

/-- `wire` is what the server will still receive of what the client `sent`. -/
structure Transfer (n : Nat) where
  client : Client
  conv : ConverterQueue Pack Pack String n
  sent : List (Msg Bytes)
  wire : List (Msg Bytes)
  closed : Bool
  server : Server

/-- A step of a side, with what it finds if it asks whether it is to stop; a failure of
its own; a step in the converter; or the loss of the connection, with so many messages
of those in flight still received as a whole. -/
inductive Event (n : Nat) where
  | client (stop : Bool)
  | clientFails (e : String)
  | conv (ev : DiffCompressor.Event Pack n)
  | server (stop : Bool)
  | serverFails (e : String)
  | close (received : Nat)

def isCall {n : Nat} : DiffCompressor.Event Pack n → Bool
  | .push _ | .pop | .quit => true
  | _ => false

def packRecord (r : DiffRecIo LogicalBlock) : PackRecord :=
  ⟨r.record, WALB_DIFF_CMPR_NONE, 0, 0⟩

def popResult {n : Nat} (q : ConverterQueue Pack Pack String n) : Option (Except String (Option Pack)) :=
  match q.history.getLast? with
  | some (.popped r) => some r
  | _ => none

namespace Transfer

variable {n : Nat}

def send (s : Transfer n) (m : Msg Bytes) : Transfer n :=
  { s with sent := s.sent ++ [m], wire := if s.closed then s.wire else s.wire ++ [m] }

def setPc (s : Transfer n) (pc : Pc) : Transfer n := { s with client := { s.client with pc := pc } }

section Step

variable (lib : Library) (cmpr : CompressOpt) (fails : Pack → Option String)

def maxPushedNum : Nat := cmpr.numCpu * 2 + 1

def convert (p : Pack) : Except String (Option Pack) :=
  match fails p with
  | some e => .error e
  | none => .ok (some (PackCompressor.convertAs (lib.codec cmpr.type cmpr.level) cmpr.type p))

def call (s : Transfer n) (ev : DiffCompressor.Event Pack n) : Option (Transfer n) :=
  (s.conv.step (convert lib cmpr fails) ev).map fun q => { s with conv := q }

def finish (s : Transfer n) : Option (Transfer n) :=
  (s.call lib cmpr fails .quit).bind fun s => (s.setPc .draining).call lib cmpr fails .pop

/-- What the client does up to its next call or until it has to wait. -/
def clientTurn (s : Transfer n) (stop : Bool) : Option (Transfer n) :=
  match s.client.pc with
  | .get =>
      match s.client.merger.turn with
      | .error e => some (s.setPc (.threw e))
      | .ok (some ([], m)) => some { s with client := { s.client with merger := m } }
      | .ok (some (r :: _, m)) => some { s with client := { s.client with merger := m, pc := .got r } }
      | .ok none =>
          if s.client.packer.records = [] then s.finish lib cmpr fails
          else
            { s with client := { s.client with packer := .clear, pc := .pushingLast } }.call lib
              cmpr fails
              (.push (some s.client.packer))
  | .got r =>
      if stop then some (s.setPc (.returned false))
      else
        match s.client.packer.addRec (packRecord r) (toBytes r.io) with
        | some packer => some { s with client := { s.client with packer := packer, pc := .get } }
        | none =>
            { s with client := { s.client with packer := .clear, pc := .pushing r } }.call lib cmpr fails
              (.push (some s.client.packer))
  | .pushing r =>
      match s.conv.pusher with
      | .idle =>
          let packer := (Pack.clear.addRec (packRecord r) (toBytes r.io)).getD .clear
          let c : Client := ⟨s.client.merger, packer, s.client.pushedNum + 1, .get⟩
          if s.client.pushedNum + 1 < maxPushedNum cmpr then some { s with client := c }
          else { s with client := { c with pc := .popping } }.call lib cmpr fails .pop
      | _ => none
  | .popping =>
      match s.conv.popper, popResult s.conv with
      | .idle, some (.ok (some pack)) =>
          some ({ s with client := { s.client with
            pushedNum := s.client.pushedNum - 1, pc := .get } }.send (.next (packBytes pack)))
      | .idle, some (.ok none) => some (s.setPc (.threw "empty pack"))
      | .idle, some (.error e) => some (s.setPc (.threw e))
      | _, _ => none
  | .pushingLast =>
      match s.conv.pusher with
      | .idle => s.finish lib cmpr fails
      | _ => none
  | .draining =>
      match s.conv.popper, popResult s.conv with
      | .idle, some (.ok (some pack)) => (s.send (.next (packBytes pack))).call lib cmpr fails .pop
      | .idle, some (.ok none) => some ((s.send .stop).setPc (.returned true))
      | .idle, some (.error e) => some (s.setPc (.threw e))
      | _, _ => none
  | .returned _ => none
  | .threw _ => none

def receive (s : Server) (stop : Bool) : Msg Bytes → Server
  | .next buf =>
      if stop then { s with outcome := some (.ok false) }
      else
        match verifyDiffPackSize buf.length, verifyDiffPack buf with
        | .ok _, .ok _ => { s with file := s.file ++ buf }
        | .error e, _ => { s with outcome := some (.error e) }
        | _, .error e => { s with outcome := some (.error e) }
  | .stop => ⟨s.file ++ eofBytes, some (.ok true)⟩
  | _ => { s with outcome := some (.error "bad ctrl not end") }

def serverTurn (s : Transfer n) (stop : Bool) : Option (Transfer n) :=
  match s.server.outcome, s.wire with
  | none, m :: wire => some { s with wire := wire, server := receive s.server stop m }
  -- The rest of a message, if there is one, does not arrive.
  | none, [] =>
      if s.closed then some { s with server := { s.server with outcome := some (.error "read") } }
        else none
  | _, _ => none

def step (s : Transfer n) : Event n → Option (Transfer n)
  | .client stop => s.clientTurn lib cmpr fails stop
  | .clientFails e =>
      match s.client.pc with
      | .returned _ | .threw _ => none
      | _ => some (s.setPc (.threw e))
  | .conv ev => if isCall ev then none else s.call lib cmpr fails ev
  | .server stop => s.serverTurn stop
  | .serverFails e =>
      match s.server.outcome with
      | none => some { s with server := { s.server with outcome := some (.error e) } }
      | some _ => none
  | .close received => some { s with wire := s.wire.take received, closed := true }

def run (s : Transfer n) : List (Event n) → Option (Transfer n)
  | [] => some s
  | ev :: evs => (s.step lib cmpr fails ev).bind fun s' => s'.run evs

end Step

def start (cmpr : CompressOpt) (m : DiffMerger LogicalBlock) (header : DiffFileHeader) :
    Transfer cmpr.numCpu :=
  ⟨⟨m, .clear, 0, .get⟩, .init (maxPushedNum cmpr) cmpr.numCpu, [], [], false, ⟨header.toBytes, none⟩⟩

end Transfer

section Codec

variable {lib : Library} {type level : Nat}

theorem codec_lawful (hlib : lib.Lawful) : (lib.codec type level).Lawful := by
  constructor
  intro n b e h
  rw [Library.codec] at h ⊢
  split_ifs at h ⊢
  · change (if n < b.length then none else some b) = some e at h
    split_ifs at h
    exact h.symm
  · exact hlib.uncompress_compress type level n b e h

theorem codec_copies : (lib.codec type level).Copies type := by
  intro htype n b e h
  rw [Library.codec, if_pos htype] at h
  change (if n < b.length then none else some b) = some e at h
  split_ifs at h
  rw [Option.some.inj h]

theorem codec_uncompress (h : type ≠ WALB_DIFF_CMPR_NONE) :
    (lib.codec type level).uncompress = lib.codecs.uncompress type := by
  rw [Library.codec, if_neg h]
  rfl

end Codec

structure Filled (p : Pack) (ios : List (DiffRecIo LogicalBlock)) : Prop where
  holds : Holds p ios
  ne_nil : p.records ≠ []
  narrow : ∀ io, io ∈ ios → Narrow io

/-- The server takes these bytes. -/
def Accepted (buf : Bytes) : Prop := verifyDiffPackSize buf.length = .ok () ∧ verifyDiffPack buf = .ok ()

theorem Filled.delivers {lib : Library} (hlib : lib.Lawful) {type level : Nat}
    (htype : type < WALB_DIFF_CMPR_MAX) {p : Pack}
    {ios : List (DiffRecIo LogicalBlock)} (h : Filled p ios) :
    Delivers lib.codecs (PackCompressor.convertAs (lib.codec type level) type p) ios :=
  delivers_convertAs (codec_lawful hlib) htype codec_copies codec_uncompress h.holds h.ne_nil h.narrow

section Converter

variable {n : Nat} {q q' : ConverterQueue Pack Pack String n} {conv : Pack → Except String (Option Pack)}

/-- The pack that a call of `push` has still to put into the queue. -/
def pending {γ : Type} : Caller γ → List γ
  | .idle => []
  | .waiting a => [a]
  | .asleep a => [a]

inductive Inner (q q' : ConverterQueue Pack Pack String n) : Prop
  | silent : q'.history = q.history → pending q'.pusher = pending q.pusher →
      (q'.popper = .idle ↔ q.popper = .idle) → Inner q q'
  | pushed (p : Pack) : q.isQuit = false → q'.history = q.history ++ [.pushed p] →
      pending q.pusher = [p] →
      pending q'.pusher = [] → q'.popper = q.popper → Inner q q'
  | refused : q.isQuit = true → pending q.pusher ≠ [] → Inner q q'
  | popped (r : Except String (Option Pack)) : q'.history = q.history ++ [.popped r] →
      pending q'.pusher = pending q.pusher → q.popper ≠ .idle → q'.popper = .idle → Inner q q'

theorem pending_wake {γ : Type} (c : Caller γ) : pending c.wake = pending c := by
  cases c <;> rfl

theorem pending_eq_nil {γ : Type} {c : Caller γ} : pending c = [] ↔ c = .idle := by
  cases c <;> simp [pending]

theorem wake_eq_idle {γ : Type} {c : Caller γ} : c.wake = .idle ↔ c = .idle := by
  cases c <;> simp [Caller.wake]

theorem inner_pushLocked {p : Pack} {woken : Option (Fin n)} (hp : q.pusher = .waiting p)
    (h : q.pushLocked p woken = some q') : q'.isQuit = q.isQuit ∧ Inner q q' := by
  rw [ConverterQueue.pushLocked] at h
  split_ifs at h with hroom hquit
  · cases h
    refine ⟨rfl, .refused hquit ?_⟩
    rw [hp]
    exact List.cons_ne_nil _ _
  · obtain ⟨engines, -, rfl⟩ := Option.map_eq_some_iff.1 h
    refine ⟨rfl, .pushed p (Bool.not_eq_true _ ▸ hquit) rfl ?_ rfl rfl⟩
    rw [hp]
    rfl
  · cases h
    refine ⟨rfl, .silent rfl ?_ Iff.rfl⟩
    rw [hp]
    rfl

theorem inner_popLocked (hp : q.popper = .waiting ()) :
    q.popLocked.isQuit = q.isQuit ∧ Inner q q.popLocked := by
  have hne : q.popper ≠ .idle := by
    rw [hp]
    exact nofun
  have hasleep : (Caller.asleep () = .idle) ↔ q.popper = .idle := iff_of_false nofun hne
  rw [ConverterQueue.popLocked]
  split
  · split
    · exact ⟨rfl, .popped _ rfl rfl hne rfl⟩
    · exact ⟨rfl, .silent rfl rfl hasleep⟩
  · split
    · exact ⟨rfl, .popped _ rfl (pending_wake _) hne rfl⟩
    · exact ⟨rfl, .silent rfl rfl hasleep⟩

theorem inner_step {ev : DiffCompressor.Event Pack n} (hcall : isCall ev = false)
    (h : q.step conv ev = some q') :
    q'.isQuit = q.isQuit ∧ Inner q q' := by
  cases ev with
  | push | pop | quit => cases hcall
  | pushWait woken =>
      rw [ConverterQueue.step] at h
      split at h
      · exact inner_pushLocked ‹_› h
      · cases h
  | popWait =>
      rw [ConverterQueue.step] at h
      split at h
      · cases h
        exact inner_popLocked ‹_›
      · cases h
  | take e =>
      obtain ⟨-, h⟩ := Option.ite_none_right_eq_some.1 h
      cases h
      rw [ConverterQueue.takeLocked]
      split <;> exact ⟨rfl, .silent rfl rfl Iff.rfl⟩
  | convert e =>
      rw [ConverterQueue.step] at h
      split at h <;> cases h
      exact ⟨rfl, .silent rfl rfl Iff.rfl⟩
  | notify e =>
      obtain ⟨-, h⟩ := Option.ite_none_right_eq_some.1 h
      cases h
      exact ⟨rfl, .silent rfl rfl wake_eq_idle⟩
  | wakePusher =>
      cases h
      exact ⟨rfl, .silent rfl (pending_wake _) Iff.rfl⟩
  | wakePopper =>
      cases h
      exact ⟨rfl, .silent rfl rfl wake_eq_idle⟩
  | wakeEngine e =>
      cases h
      exact ⟨rfl, .silent rfl rfl Iff.rfl⟩

end Converter

section Merger

variable {β : Type} {m m' m'' : DiffMerger β} {out outs : List (DiffRecIo β)}

theorem emits_concat (h : Emits m outs m') (hturn : m'.turn = .ok (some (out, m''))) :
    Emits m (outs ++ out) m'' := by
  induction h with
  | refl m =>
      have hone := Emits.turn hturn (.refl m'')
      rwa [List.append_nil] at hone
  | turn ht _ ih =>
      rw [List.append_assoc]
      exact .turn ht (ih hturn)

theorem getAll_of_emits (h : Emits m outs m') (hturn : m'.turn = .ok none) :
    ∃ fuel, m.getAll fuel = .ok outs := by
  induction h with
  | refl m => exact ⟨1, by rw [DiffMerger.getAll, hturn]⟩
  | turn ht _ ih =>
      obtain ⟨fuel, hget⟩ := ih hturn
      refine ⟨fuel + 1, ?_⟩
      rw [DiffMerger.getAll, ht]
      dsimp only
      rw [hget]

theorem kept_of_emits {P Q : DiffRecIo β → Prop} {M : Nat} (hP : DiffMerger.Cuts P Q M)
    (h : Emits m outs m')
    (hm : DiffMerger.Kept P Q M m) : ∀ r, r ∈ outs → Q r := by
  induction h with
  | refl m => exact fun _ hr => absurd hr List.not_mem_nil
  | turn ht _ ih =>
      obtain ⟨hm', hout⟩ := hm.turn hP ht
      exact fun r hr => (List.mem_append.1 hr).elim (hout r) (ih hm' r)

/-- The addresses of a record of a wdiff have 64 bits, and only normal records have data. -/
structure Readable (r : DiffRecIo LogicalBlock) : Prop where
  dataSize_zero : r.record.type ≠ .normal → r.record.dataSize = 0
  end_le : r.record.endIoAddress ≤ 2 ^ 64

structure Packable (r : DiffRecIo LogicalBlock) : Prop extends Readable r where
  valid : r.Valid
  short : r.record.ioBlocks ≤ DEFAULT_MAX_IO_LB

theorem Readable.piece {r p : DiffRecIo LogicalBlock} (h : Readable r) (hp : Piece r p) : Readable p :=
  ⟨fun ht => hp.dataSize_zero (hp.type ▸ ht) (h.dataSize_zero (hp.type ▸ ht)), hp.end_le.trans h.end_le⟩

theorem cuts_packable : DiffMerger.Cuts Readable Packable DEFAULT_MAX_IO_LB where
  piece _ _ hr hp hsize := ⟨hr.piece hp, hp.valid, hsize (by decide)⟩
  hereditary _ _ hr hp := ⟨hr.toReadable.piece hp, hp.valid, hp.ioBlocks_le.trans hr.short⟩

variable {r : DiffRecIo LogicalBlock}

theorem Packable.narrow (h : Packable r) : Narrow r := by
  have hpos := h.valid.pos
  have hend := h.end_le
  have hshort := h.short
  rw [DiffRecord.endIoAddress] at hend
  refine ⟨by omega, ?_⟩
  rw [DEFAULT_MAX_IO_LB, lbs] at hshort
  omega

theorem Packable.recordOf (h : Packable r) : RecordOf (packRecord r) r := by
  refine ⟨rfl, rfl, Nat.two_pow_pos 32, ?_, h.valid⟩
  by_cases ht : r.record.type = .normal
  · rw [h.valid.dataSize ht, h.valid.io_length ht]
  · rw [h.dataSize_zero ht, h.valid.io_nil ht, List.length_nil, Nat.zero_mul]

theorem Packable.dataSize_le (h : Packable r) : (packRecord r).dataSize ≤ WALB_DIFF_PACK_MAX_SIZE := by
  have hshort := h.short
  by_cases ht : r.record.type = .normal
  · have hsize := h.valid.dataSize ht
    simp only [packRecord, WALB_DIFF_PACK_MAX_SIZE, DEFAULT_MAX_IO_LB, lbs] at hsize hshort ⊢
    omega
  · exact (h.dataSize_zero ht).le.trans (Nat.zero_le _)

theorem Packable.addRec (h : Packable r) {p : Pack} {ios : List (DiffRecIo LogicalBlock)}
    (hp : Holds p ios)
    (hc : p.canAdd (packRecord r).dataSize = true) :
    ∃ p', p.addRec (packRecord r) (toBytes r.io) = some p' ∧ Holds p' (ios ++ [r]) := by
  refine hp.addRec h.recordOf ?_ h.dataSize_le hc
  intro _
  rw [← h.recordOf.length_toBytes, List.take_length]

end Merger

namespace Pc

def rest : Pc → List (DiffRecIo LogicalBlock)
  | .got r => [r]
  | .pushing r => [r]
  | _ => []

def running : Pc → Bool
  | .returned _ => false
  | .threw _ => false
  | _ => true

def inPush : Pc → Bool
  | .pushing _ => true
  | .pushingLast => true
  | _ => false

def inPop : Pc → Bool
  | .popping => true
  | .draining => true
  | _ => false

def behindLoop : Pc → Bool
  | .pushingLast => true
  | .draining => true
  | _ => false

def quitDone : Pc → Bool
  | .draining => true
  | _ => false

end Pc

namespace Transfer

variable {n : Nat}

def Popped (h : List (Output Pack Pack String)) (packs : List Pack) : Prop :=
  delivered h = packs.map fun p => .ok (some p)

/-- `pop` has these packs behind it and is under way, or it has returned one result more. -/
def AtPop (q : ConverterQueue Pack Pack String n) (packs : List Pack) : Prop :=
  (q.popper ≠ .idle ∧ Popped q.history packs) ∨
    (q.popper = .idle ∧ ∃ h r, q.history = h ++ [.popped r] ∧ Popped h packs)

/-- Each record that the merger returned is in a pack that was pushed, in the packer or with
the client, in this order; each pack that was popped is sent. -/
structure Flow (m₀ : DiffMerger LogicalBlock) (s : Transfer n) (packs : List Pack) : Prop where
  sent : s.sent = (packs.map packBytes).map .next
  data : ∃ iss ios, Emits m₀ (iss.flatten ++ ios ++ s.client.pc.rest) s.client.merger ∧
    List.Forall₂ Filled (accepted s.conv.history ++ pending s.conv.pusher) iss ∧
    Holds s.client.packer ios
  quit : s.conv.isQuit = s.client.pc.quitDone
  pusher : s.client.pc.inPush = false → pending s.conv.pusher = []
  packer : s.client.pc.inPush = true ∨ s.client.pc.quitDone = true → s.client.packer.records = []
  popper : if s.client.pc.inPop then AtPop s.conv packs
    else s.conv.popper = .idle ∧ Popped s.conv.history packs
  drained : s.client.pc.behindLoop = true → s.client.merger.turn = .ok none

def Complete (lib : Library) (m₀ : DiffMerger LogicalBlock) (packs : List Pack) : Prop :=
  ∃ fuel iss, m₀.getAll fuel = .ok iss.flatten ∧ List.Forall₂ (Delivers lib.codecs) packs iss

inductive ClientInv (lib : Library) (m₀ : DiffMerger LogicalBlock) (s : Transfer n) : Prop
  | running (packs : List Pack) : s.client.pc.running = true → Flow m₀ s packs → ClientInv lib m₀ s
  | complete (packs : List Pack) : s.client.pc = .returned true →
      s.sent = (packs.map packBytes).map .next ++ [.stop] → Complete lib m₀ packs → ClientInv lib m₀ s
  | early : s.client.pc.running = false → .stop ∉ s.sent → ClientInv lib m₀ s

/-- What the server has got and will get is the begin of what was sent. -/
def Network (header : DiffFileHeader) (s : Transfer n) : Prop :=
  match s.server.outcome with
  | none => ∃ (bufs : List Bytes) (lost : List (Msg Bytes)), s.server.file = header.toBytes ++ bufs.flatten ∧
      bufs.map .next ++ s.wire ++ lost = s.sent ∧ (s.closed = false → lost = [])
  | some (.ok true) => ∃ (bufs : List Bytes) (lost : List (Msg Bytes)),
      s.server.file = header.toBytes ++ bufs.flatten ++ eofBytes ∧
      bufs.map .next ++ .stop :: lost = s.sent
  | some _ => True

structure Inv (lib : Library) (cmpr : CompressOpt) (fails : Pack → Option String)
    (m₀ : DiffMerger LogicalBlock)
    (header : DiffFileHeader) (s : Transfer n) : Prop where
  ledger : Ledger (convert lib cmpr fails) s.conv.taskQ s.conv.history s.conv.isQuit
  good : ∀ buf, .next buf ∈ s.sent → Accepted buf
  client : ClientInv lib m₀ s
  network : Network header s

section

variable {lib : Library} {cmpr : CompressOpt} {fails : Pack → Option String}
  {m₀ : DiffMerger LogicalBlock}
variable {header : DiffFileHeader} {s s' : Transfer n} {packs : List Pack}

theorem stop_not_mem (bufs : List Bytes) : (.stop : Msg Bytes) ∉ bufs.map .next := by
  intro h
  obtain ⟨p, -, hp⟩ := List.mem_map.1 h
  cases hp

theorem map_next_injective {ps qs : List Bytes} {ms : List (Msg Bytes)}
    (h : ps.map .next ++ (.stop : Msg Bytes) :: ms = qs.map .next ++ [.stop]) : ps = qs := by
  induction ps generalizing qs with
  | nil =>
      cases qs with
      | nil => rfl
      | cons q qs => cases (List.cons.inj h).1
  | cons p ps ih =>
      cases qs with
      | nil => cases (List.cons.inj h).1
      | cons q qs =>
          obtain ⟨hp, hrest⟩ := List.cons.inj h
          rw [Msg.next.inj hp, ih hrest]

theorem Network.send (h : Network header s) (m : Msg Bytes) : Network header (s.send m) := by
  unfold Network at h ⊢
  change match s.server.outcome with | none => _ | some (.ok true) => _ | some _ => _
  cases hout : s.server.outcome with
  | none =>
      rw [hout] at h
      obtain ⟨bufs, lost, hfile, heq, hclosed⟩ := h
      by_cases hc : s.closed = true
      · refine ⟨bufs, lost ++ [m], hfile, ?_, fun hn =>
          absurd hc (by rw [show s.closed = false from hn]; decide)⟩
        change bufs.map .next ++ (if s.closed then s.wire else s.wire ++ [m]) ++ (lost ++ [m]) =
          s.sent ++ [m]
        rw [if_pos hc, ← List.append_assoc, heq]
      · have hlost := hclosed (Bool.not_eq_true _ ▸ hc)
        refine ⟨bufs, [], hfile, ?_, fun _ => rfl⟩
        change bufs.map .next ++ (if s.closed then s.wire else s.wire ++ [m]) ++ [] = s.sent ++ [m]
        rw [if_neg hc, ← heq, hlost, List.append_nil, List.append_nil, List.append_assoc]
  | some r =>
      rw [hout] at h
      cases r with
      | error e => trivial
      | ok b =>
          cases b with
          | false => trivial
          | true =>
              obtain ⟨bufs, lost, hfile, heq⟩ := h
              refine ⟨bufs, lost ++ [m], hfile, ?_⟩
              change bufs.map .next ++ .stop :: (lost ++ [m]) = s.sent ++ [m]
              rw [← heq, List.append_assoc, List.cons_append]

theorem Network.receive (hout : s.server.outcome = none) {m : Msg Bytes} {wire : List (Msg Bytes)}
    (hwire : s.wire = m :: wire) (h : Network header s) (stop : Bool) :
    Network header { s with wire := wire, server := receive s.server stop m } := by
  unfold Network at h
  rw [hout] at h
  obtain ⟨bufs, lost, hfile, heq, hclosed⟩ := h
  rw [hwire] at heq
  cases m with
  | next buf =>
      rw [Transfer.receive]
      split_ifs with hstop
      · trivial
      · split
        · unfold Network
          dsimp only
          rw [hout]
          refine ⟨bufs ++ [buf], lost, ?_, ?_, hclosed⟩
          · rw [hfile, List.flatten_concat, List.append_assoc]
          · rw [← heq, List.map_append, List.append_assoc, List.append_assoc, List.append_assoc]
            rfl
        · trivial
        · trivial
  | stop =>
      refine ⟨bufs, wire ++ lost, ?_, ?_⟩
      · dsimp only [Transfer.receive]
        rw [hfile]
      · rw [← heq, List.append_assoc, List.cons_append]
  | error => trivial
  | dummy => trivial

theorem Network.serverTurn {stop : Bool} (h : Network header s) (hs : s.serverTurn stop = some s') :
    Network header s' ∧ s'.client = s.client ∧ s'.conv = s.conv ∧ s'.sent = s.sent := by
  rw [Transfer.serverTurn] at hs
  split at hs
  · cases hs
    exact ⟨Network.receive ‹_› ‹_› h stop, rfl, rfl, rfl⟩
  · split_ifs at hs
    cases hs
    exact ⟨trivial, rfl, rfl, rfl⟩
  · cases hs

theorem Network.close (h : Network header s) (received : Nat) :
    Network header { s with wire := s.wire.take received, closed := true } := by
  unfold Network at h ⊢
  dsimp only
  cases hout : s.server.outcome with
  | none =>
      rw [hout] at h
      obtain ⟨bufs, lost, hfile, heq, -⟩ := h
      refine ⟨bufs, s.wire.drop received ++ lost, hfile, ?_, nofun⟩
      rw [← heq, List.append_assoc, List.append_assoc, ← List.append_assoc (s.wire.take received),
        List.take_append_drop]
  | some r =>
      rw [hout] at h
      cases r with
      | error e => trivial
      | ok b =>
          cases b with
          | false => trivial
          | true => exact h

theorem Popped.concat {h : List (Output Pack Pack String)} (hp : Popped h packs)
    {o : Output Pack Pack String}
    (ho : o.delivered = none) : Popped (h ++ [o]) packs := by
  rw [Popped, delivered_concat, ho]
  exact (List.append_nil _).trans hp

theorem inPush_of_inPop {pc : Pc} (h : pc.inPop = true) : pc.inPush = false := by
  cases pc <;> first | rfl | cases h

theorem inPush_of_quitDone {pc : Pc} (h : pc.quitDone = true) : pc.inPush = false := by
  cases pc <;> first | rfl | cases h

/-- The threads of the converter do nothing to what is accepted and in which order. -/
theorem Flow.inner (F : Flow m₀ s packs) {q : ConverterQueue Pack Pack String n}
    (hquit : q.isQuit = s.conv.isQuit)
    (hi : Inner s.conv q) : Flow m₀ { s with conv := q } packs := by
  obtain ⟨iss, ios, hemits, hholds, hpacker⟩ := F.data
  have hpopper := F.popper
  cases hi with
  | silent hhist hpush hpop =>
      refine ⟨F.sent, ⟨iss, ios, hemits, ?_, hpacker⟩, hquit.trans F.quit, ?_, F.packer, ?_, F.drained⟩
      · dsimp only
        rwa [hhist, hpush]
      · dsimp only
        rw [hpush]
        exact F.pusher
      · dsimp only
        split_ifs at hpopper ⊢
        · rw [AtPop] at hpopper ⊢
          rwa [hhist, Ne, hpop]
        · rwa [hhist, hpop]
  | pushed p hnot hhist hold hnew hpop =>
      have hin : s.client.pc.inPush = true := by
        by_contra hn
        have hnil := F.pusher (Bool.not_eq_true _ ▸ hn)
        rw [hold] at hnil
        cases hnil
      refine ⟨F.sent, ⟨iss, ios, hemits, ?_, hpacker⟩, hquit.trans F.quit, fun _ => hnew, F.packer,
        ?_, F.drained⟩
      · dsimp only
        rw [hhist, hnew, accepted_concat, List.append_nil]
        rwa [hold] at hholds
      · dsimp only
        split_ifs at hpopper ⊢ with hp
        · rw [inPush_of_inPop hp] at hin
          cases hin
        · rw [hhist, hpop]
          exact ⟨hpopper.1, hpopper.2.concat rfl⟩
  | refused hq hold =>
      rw [F.quit] at hq
      exact absurd (F.pusher (inPush_of_quitDone hq)) hold
  | popped r hhist hpush hne hidle =>
      refine ⟨F.sent, ⟨iss, ios, hemits, ?_, hpacker⟩, hquit.trans F.quit, ?_, F.packer, ?_, F.drained⟩
      · dsimp only
        rw [hhist, hpush, accepted_concat]
        change List.Forall₂ Filled (accepted s.conv.history ++ [] ++ _) _
        rwa [List.append_nil]
      · dsimp only
        rw [hpush]
        exact F.pusher
      · dsimp only
        split_ifs at hpopper ⊢
        · rcases hpopper with ⟨-, hp⟩ | ⟨hp, -⟩
          · exact .inr ⟨hidle, s.conv.history, r, hhist, hp⟩
          · exact absurd hp hne
        · exact absurd hpopper.1 hne

theorem Inv.conv (h : Inv lib cmpr fails m₀ header s) {ev : DiffCompressor.Event Pack n}
    (hcall : isCall ev = false)
    (hs : s.call lib cmpr fails ev = some s') : Inv lib cmpr fails m₀ header s' := by
  rw [call, Option.map_eq_some_iff] at hs
  obtain ⟨q, hq, rfl⟩ := hs
  obtain ⟨hquit, hi⟩ := inner_step hcall hq
  refine ⟨h.ledger.change (s.conv.step_change hq), h.good, ?_, h.network⟩
  cases h.client with
  | running packs hrun F => exact .running packs hrun (F.inner hquit hi)
  | complete packs hpc hsent hall => exact .complete packs hpc hsent hall
  | early hrun hstop => exact .early hrun hstop

theorem popResult_concat {q : ConverterQueue Pack Pack String n} {h : List (Output Pack Pack String)}
    {r : Except String (Option Pack)} (hq : q.history = h ++ [.popped r]) : popResult q = some r := by
  rw [popResult, hq, List.getLast?_concat]

theorem convert_eq_ok {p p' : Pack} (h : convert lib cmpr fails p = .ok (some p')) :
    p' = PackCompressor.convertAs (lib.codec cmpr.type cmpr.level) cmpr.type p := by
  rw [convert] at h
  split at h
  · cases h
  · exact (Option.some.inj (Except.ok.inj h)).symm

/-- What comes out of the converter is the conversion of a pack that the client made. -/
theorem accepted_of_delivered (hlib : lib.Lawful) {ts : List (Task Pack Pack String)}
    {h : List (Output Pack Pack String)}
    {isQuit : Bool} {rest : List Pack} {iss : List (List (DiffRecIo LogicalBlock))}
    (L : Ledger (convert lib cmpr fails) ts h isQuit)
    (hfilled : List.Forall₂ Filled (accepted h ++ rest) iss) {p : Pack}
    (hp : .ok (some p) ∈ delivered h) : Accepted (packBytes p) := by
  have hmem := List.mem_append_left (ts.map fun t => convert lib cmpr fails t.inBuf) hp
  rw [L.balance] at hmem
  obtain ⟨p₀, hp₀, hconv⟩ := List.mem_map.1 hmem
  obtain ⟨ios, -, hios⟩ : ∃ ios, ios ∈ iss ∧ Filled p₀ ios := by
    obtain ⟨i, hi, rfl⟩ := List.mem_iff_getElem.1 (List.mem_append_left rest hp₀)
    have hlen := hfilled.length_eq
    exact ⟨iss.get ⟨i, hlen ▸ hi⟩, List.getElem_mem _, hfilled.get hi (hlen ▸ hi)⟩
  rw [convert_eq_ok hconv]
  exact verifyDiffPack_packBytes (hios.delivers hlib cmpr.type_lt).exact

theorem delivers_of_map (hlib : lib.Lawful) {ps : List Pack} {iss : List (List (DiffRecIo LogicalBlock))}
    (hfilled : List.Forall₂ Filled ps iss)
    (h : (packs.map fun p => .ok (some p)) = ps.map (convert lib cmpr fails)) :
    List.Forall₂ (Delivers lib.codecs) packs iss := by
  induction hfilled generalizing packs with
  | nil =>
      rw [List.map_nil, List.map_eq_nil_iff] at h
      rw [h]
      exact .nil
  | cons hp _ ih =>
      cases packs with
      | nil => cases h
      | cons q qs =>
          obtain ⟨hq, hqs⟩ := List.cons.inj h
          rw [convert_eq_ok hq.symm]
          exact .cons (hp.delivers hlib cmpr.type_lt) (ih hqs)

theorem call_push {p : Pack} (hs : s.call lib cmpr fails (.push (some p)) = some s')
    (hidle : s.conv.pusher = .idle) :
    s' = { s with conv := { s.conv with pusher := .waiting p } } := by
  simp only [call, ConverterQueue.step, hidle, Option.map_some] at hs
  exact (Option.some.inj hs).symm

theorem call_pop (hs : s.call lib cmpr fails .pop = some s') (hidle : s.conv.popper = .idle) :
    s' = { s with conv := { s.conv with popper := .waiting () } } := by
  simp only [call, ConverterQueue.step, hidle, Option.map_some] at hs
  exact (Option.some.inj hs).symm

theorem holds_records_nil {p : Pack} {ios : List (DiffRecIo LogicalBlock)} (h : Holds p ios)
    (hp : p.records = []) :
    ios = [] := by
  have hrecords := h.records
  rwa [hp, List.forall₂_nil_left_iff] at hrecords

variable (hm : DiffMerger.Kept Readable Packable DEFAULT_MAX_IO_LB m₀)

include hm in
theorem filled_of_emits {iss : List (List (DiffRecIo LogicalBlock))}
    {ios rest : List (DiffRecIo LogicalBlock)}
    (hemits : Emits m₀ (iss.flatten ++ ios ++ rest) s.client.merger) (hios : Holds s.client.packer ios)
    (hne : s.client.packer.records ≠ []) : Filled s.client.packer ios :=
  ⟨hios, hne, fun io hio =>
    (kept_of_emits cuts_packable hemits hm io (List.mem_append_left _
      (List.mem_append_right _ hio))).narrow⟩

include hm in
theorem Flow.packable (F : Flow m₀ s packs) {r : DiffRecIo LogicalBlock}
    (hr : r ∈ s.client.pc.rest) : Packable r := by
  obtain ⟨iss, ios, hemits, -⟩ := F.data
  exact kept_of_emits cuts_packable hemits hm r (List.mem_append_right _ hr)

theorem records_ne_nil {p : Pack} {size : Nat} (h : ¬p.canAdd size = true) : p.records ≠ [] := by
  intro hnil
  rw [Pack.canAdd, DiffPack.canAdd, hnil] at h
  exact h rfl

theorem Flow.stop_not_mem (F : Flow m₀ s packs) : .stop ∉ s.sent := by
  rw [F.sent]
  exact Transfer.stop_not_mem _

theorem Inv.finish (h : Inv lib cmpr fails m₀ header s) (F : Flow m₀ s packs)
    (hrest : s.client.pc.rest = [])
    (hpop : s.client.pc.inPop = false) (hpush : s.conv.pusher = .idle)
    (hpacker : s.client.packer.records = [])
    (hturn : s.client.merger.turn = .ok none) (hs : s.finish lib cmpr fails = some s') :
    Inv lib cmpr fails m₀ header s' := by
  have hpopper := F.popper
  rw [hpop, if_neg Bool.false_ne_true] at hpopper
  obtain ⟨iss, ios, hemits, hholds, hios⟩ := F.data
  have hquit : s.call lib cmpr fails .quit = some { s with
      conv := { s.conv with
        isQuit := true
        engines := fun e => (s.conv.engines e).wake
        pusher := s.conv.pusher.wake
        popper := s.conv.popper.wake
        history := s.conv.history ++ [.quit] } } := rfl
  rw [Transfer.finish, hquit, Option.bind_some] at hs
  obtain rfl := call_pop hs (wake_eq_idle.2 hpopper.1)
  refine ⟨h.ledger.change (.quit _ _ _), h.good, .running packs rfl ?_, h.network⟩
  refine ⟨F.sent, ⟨iss, ios, ?_, ?_, hios⟩, rfl, fun _ => ?_, fun _ => hpacker, ?_, fun _ => hturn⟩
  · rwa [hrest] at hemits
  · change List.Forall₂ Filled (accepted (s.conv.history ++ [.quit]) ++ pending s.conv.pusher.wake) iss
    rw [accepted_concat, pending_wake]
    change List.Forall₂ Filled (accepted s.conv.history ++ [] ++ _) iss
    rwa [List.append_nil]
  · change pending s.conv.pusher.wake = []
    rw [hpush]
    rfl
  · exact .inl ⟨nofun, hpopper.2.concat rfl⟩

theorem Inv.ends (h : Inv lib cmpr fails m₀ header s) (F : Flow m₀ s packs) {pc : Pc}
    (hpc : pc.running = false) :
    Inv lib cmpr fails m₀ header (s.setPc pc) :=
  ⟨h.ledger, h.good, .early hpc F.stop_not_mem, h.network⟩

include hm in
theorem Inv.get (h : Inv lib cmpr fails m₀ header s) (F : Flow m₀ s packs)
    (hpc : s.client.pc = .get) {stop : Bool}
    (hs : s.clientTurn lib cmpr fails stop = some s') : Inv lib cmpr fails m₀ header s' := by
  have hpush := F.pusher
  have hpopper := F.popper
  have hquit := F.quit
  obtain ⟨iss, ios, hemits, hholds, hios⟩ := F.data
  rw [hpc] at hemits hpush hpopper hquit
  have hnil := hpush rfl
  have hidle := pending_eq_nil.1 hnil
  change Emits m₀ (iss.flatten ++ ios ++ []) s.client.merger at hemits
  rw [List.append_nil] at hemits
  unfold clientTurn at hs
  rw [hpc] at hs
  dsimp only at hs
  split at hs
  · cases hs
    exact h.ends F rfl
  · rename_i m hturn
    cases hs
    refine ⟨h.ledger, h.good, .running packs (by rw [hpc]; rfl) ?_, h.network⟩
    refine ⟨F.sent, ⟨iss, ios, ?_, hholds, hios⟩, F.quit, F.pusher, F.packer, F.popper, ?_⟩
    · rw [hpc]
      exact emits_concat hemits hturn
    · rw [hpc]
      exact nofun
  · rename_i r rest m hturn
    obtain rfl : rest = [] := by
      rcases DiffMerger.turn_out hturn with hout | ⟨r', hout⟩
      · cases hout
      · exact (List.cons.inj hout).2
    cases hs
    refine ⟨h.ledger, h.good, .running packs rfl ?_, h.network⟩
    exact ⟨F.sent, ⟨iss, ios, emits_concat hemits hturn, hholds, hios⟩, hquit, fun _ => hnil, nofun,
      hpopper, nofun⟩
  · rename_i hturn
    split_ifs at hs with hrecords
    · exact h.finish F (by rw [hpc]; rfl) (by rw [hpc]; rfl) hidle hrecords hturn hs
    · obtain rfl := call_push hs hidle
      refine ⟨h.ledger, h.good, .running packs rfl ?_, h.network⟩
      refine ⟨F.sent, ⟨iss ++ [ios], [], ?_, ?_, holds_clear⟩, hquit, nofun, fun _ => rfl, hpopper,
        fun _ => hturn⟩
      · change Emits m₀ ((iss ++ [ios]).flatten ++ [] ++ []) s.client.merger
        rwa [List.append_nil, List.append_nil, List.flatten_append, List.flatten_singleton]
      · rw [hnil, List.append_nil] at hholds
        have hrest : iss.flatten ++ ios ++ [] = iss.flatten ++ ios := List.append_nil _
        exact List.rel_append hholds (.cons (filled_of_emits hm (hrest ▸ hemits) hios hrecords) .nil)

include hm in
theorem Inv.got (h : Inv lib cmpr fails m₀ header s) (F : Flow m₀ s packs) {r : DiffRecIo LogicalBlock}
    (hpc : s.client.pc = .got r) {stop : Bool} (hs : s.clientTurn lib cmpr fails stop = some s') :
    Inv lib cmpr fails m₀ header s' := by
  have hpush := F.pusher
  have hpopper := F.popper
  have hquit := F.quit
  have hr : Packable r := F.packable hm (by rw [hpc]; exact List.mem_singleton_self r)
  obtain ⟨iss, ios, hemits, hholds, hios⟩ := F.data
  rw [hpc] at hemits hpush hpopper hquit
  have hnil := hpush rfl
  unfold clientTurn at hs
  rw [hpc] at hs
  dsimp only at hs
  split_ifs at hs
  · cases hs
    exact h.ends F rfl
  · by_cases hc : s.client.packer.canAdd (packRecord r).dataSize = true
    · obtain ⟨packer, hadd, hpacker⟩ := hr.addRec hios hc
      rw [hadd] at hs
      cases hs
      refine ⟨h.ledger, h.good, .running packs rfl ?_, h.network⟩
      refine ⟨F.sent, ⟨iss, ios ++ [r], ?_, hholds, hpacker⟩, hquit, fun _ => hnil,
        fun hclosed => absurd hclosed (not_or.2 ⟨Bool.false_ne_true, Bool.false_ne_true⟩), hpopper,
        fun hdone => absurd hdone Bool.false_ne_true⟩
      change Emits m₀ (iss.flatten ++ (ios ++ [r]) ++ []) s.client.merger
      rw [List.append_nil, ← List.append_assoc]
      exact hemits
    · have hfull : s.client.packer.addRec (packRecord r) (toBytes r.io) = none := by
        rw [Pack.addRec, Pack.addRecord, if_neg hc, Option.map_none]
      rw [hfull] at hs
      dsimp only at hs
      obtain rfl := call_push hs (pending_eq_nil.1 hnil)
      refine ⟨h.ledger, h.good, .running packs rfl ?_, h.network⟩
      refine ⟨F.sent, ⟨iss ++ [ios], [], ?_, ?_, holds_clear⟩, hquit,
        fun hopen => absurd hopen.symm Bool.false_ne_true, fun _ => rfl, hpopper,
        fun hdone => absurd hdone Bool.false_ne_true⟩
      · change Emits m₀ ((iss ++ [ios]).flatten ++ [] ++ [r]) s.client.merger
        rw [List.append_nil, List.flatten_append, List.flatten_singleton]
        exact hemits
      · rw [hnil, List.append_nil] at hholds
        exact List.rel_append hholds (.cons (filled_of_emits hm hemits hios (records_ne_nil hc)) .nil)

include hm in
theorem Inv.pushing (h : Inv lib cmpr fails m₀ header s) (F : Flow m₀ s packs)
    {r : DiffRecIo LogicalBlock}
    (hpc : s.client.pc = .pushing r) {stop : Bool} (hs : s.clientTurn lib cmpr fails stop = some s') :
    Inv lib cmpr fails m₀ header s' := by
  have hpopper := F.popper
  have hquit := F.quit
  have hclear := F.packer
  have hr : Packable r := F.packable hm (by rw [hpc]; exact List.mem_singleton_self r)
  obtain ⟨iss, ios, hemits, hholds, hios⟩ := F.data
  rw [hpc] at hemits hpopper hquit hclear
  obtain rfl := holds_records_nil hios (hclear (.inl rfl))
  obtain ⟨packer, hadd, hpacker⟩ := hr.addRec holds_clear (canAdd_clear _)
  unfold clientTurn at hs
  rw [hpc] at hs
  dsimp only at hs
  split at hs
  · rename_i hidle
    rw [hadd, Option.getD_some] at hs
    have hnil := pending_eq_nil.2 hidle
    have hdata : Emits m₀ (iss.flatten ++ ([] ++ [r]) ++ []) s.client.merger := by
      rw [List.append_nil, ← List.append_assoc]
      exact hemits
    split_ifs at hs
    · cases hs
      refine ⟨h.ledger, h.good, .running packs rfl ?_, h.network⟩
      exact ⟨F.sent, ⟨iss, [] ++ [r], hdata, hholds, hpacker⟩, hquit, fun _ => hnil, nofun, hpopper,
        nofun⟩
    · obtain rfl := call_pop hs hpopper.1
      refine ⟨h.ledger, h.good, .running packs rfl ?_, h.network⟩
      exact ⟨F.sent, ⟨iss, [] ++ [r], hdata, hholds, hpacker⟩, hquit, fun _ => hnil, nofun,
        .inl ⟨nofun, hpopper.2⟩, nofun⟩
  · cases hs

theorem Inv.popped (hlib : lib.Lawful) (h : Inv lib cmpr fails m₀ header s) (F : Flow m₀ s packs)
    (hpop : s.client.pc.inPop = true)
    (hidle : s.conv.popper = .idle) {p : Pack} (hres : popResult s.conv = some (.ok (some p))) :
    Popped s.conv.history (packs ++ [p]) ∧
      (s.send (.next (packBytes p))).sent = ((packs ++ [p]).map packBytes).map .next ∧
      ∀ buf, .next buf ∈ (s.send (.next (packBytes p))).sent → Accepted buf := by
  have hpopper := F.popper
  rw [if_pos hpop] at hpopper
  obtain ⟨iss, ios, -, hholds, -⟩ := F.data
  rcases hpopper with ⟨hne, -⟩ | ⟨-, h₀, r, hhist, hpopped⟩
  · exact absurd hidle hne
  · rw [popResult_concat hhist] at hres
    cases hres
    have hnew : Popped s.conv.history (packs ++ [p]) := by
      rw [Popped, hhist, delivered_concat, hpopped, List.map_append]
      rfl
    refine ⟨hnew, ?_, fun buf hbuf => ?_⟩
    · rw [List.map_append, List.map_append, ← F.sent]
      rfl
    · rcases List.mem_append.1 hbuf with hbuf | hbuf
      · exact h.good buf hbuf
      · obtain rfl := Msg.next.inj (List.mem_singleton.1 hbuf)
        apply accepted_of_delivered hlib h.ledger hholds
        rw [hnew]
        exact List.mem_map.2 ⟨p, List.mem_append_right _ (List.mem_singleton_self p), rfl⟩

theorem Inv.popping (hlib : lib.Lawful) (h : Inv lib cmpr fails m₀ header s) (F : Flow m₀ s packs)
    (hpc : s.client.pc = .popping)
    {stop : Bool} (hs : s.clientTurn lib cmpr fails stop = some s') :
    Inv lib cmpr fails m₀ header s' := by
  have hpush := F.pusher
  have hquit := F.quit
  obtain ⟨iss, ios, hemits, hholds, hios⟩ := F.data
  rw [hpc] at hemits hpush hquit
  unfold clientTurn at hs
  rw [hpc] at hs
  dsimp only at hs
  split at hs
  · rename_i p hidle hres
    obtain ⟨hpopped, hsent, hgood⟩ := h.popped hlib F (by rw [hpc]; rfl) hidle hres
    cases hs
    refine ⟨h.ledger, hgood, .running (packs ++ [p]) rfl ?_, h.network.send _⟩
    exact ⟨hsent, ⟨iss, ios, hemits, hholds, hios⟩, hquit, fun _ => hpush rfl, nofun,
      ⟨hidle, hpopped⟩, nofun⟩
  · cases hs
    exact h.ends F rfl
  · cases hs
    exact h.ends F rfl
  · cases hs

theorem Inv.pushingLast (h : Inv lib cmpr fails m₀ header s) (F : Flow m₀ s packs)
    (hpc : s.client.pc = .pushingLast)
    {stop : Bool} (hs : s.clientTurn lib cmpr fails stop = some s') :
    Inv lib cmpr fails m₀ header s' := by
  have hpacker := F.packer
  have hturn := F.drained
  rw [hpc] at hpacker hturn
  unfold clientTurn at hs
  rw [hpc] at hs
  dsimp only at hs
  split at hs
  · exact h.finish F (by rw [hpc]; rfl) (by rw [hpc]; rfl) ‹_› (hpacker (.inl rfl)) (hturn rfl) hs
  · cases hs

theorem Inv.draining (hlib : lib.Lawful) (h : Inv lib cmpr fails m₀ header s) (F : Flow m₀ s packs)
    (hpc : s.client.pc = .draining) {stop : Bool} (hs : s.clientTurn lib cmpr fails stop = some s') :
    Inv lib cmpr fails m₀ header s' := by
  have hpush := F.pusher
  have hquit := F.quit
  have hclear := F.packer
  have hturn := F.drained
  have hpopper := F.popper
  obtain ⟨iss, ios, hemits, hholds, hios⟩ := F.data
  rw [hpc] at hemits hpush hquit hclear hturn hpopper
  have hnil := hclear (.inr rfl)
  unfold clientTurn at hs
  rw [hpc] at hs
  dsimp only at hs
  split at hs
  · rename_i p hidle hres
    obtain ⟨hpopped, hsent, hgood⟩ := h.popped hlib F (by rw [hpc]; rfl) hidle hres
    obtain rfl := call_pop hs hidle
    refine ⟨h.ledger, hgood,
      .running (packs ++ [p]) (by change s.client.pc.running = true; rw [hpc]; rfl) ?_,
      h.network.send _⟩
    refine ⟨hsent, ⟨iss, ios, ?_, hholds, hios⟩, F.quit, F.pusher, F.packer, ?_, F.drained⟩
    · change Emits m₀ (iss.flatten ++ ios ++ s.client.pc.rest) s.client.merger
      rwa [hpc]
    · change if s.client.pc.inPop = true then _ else _
      rw [hpc]
      exact .inl ⟨nofun, hpopped⟩
  · rename_i hidle hres
    cases hs
    rcases hpopper with ⟨hne, -⟩ | ⟨-, h₀, r, hhist, hpopped⟩
    · exact absurd hidle hne
    · rw [popResult_concat hhist] at hres
      cases hres
      obtain ⟨-, hall⟩ := h.ledger.ended h₀ [] hhist
      rw [hpush rfl, List.append_nil] at hholds
      obtain rfl := holds_records_nil hios hnil
      change Emits m₀ (iss.flatten ++ [] ++ []) s.client.merger at hemits
      rw [List.append_nil, List.append_nil] at hemits
      obtain ⟨fuel, hget⟩ := getAll_of_emits hemits (hturn rfl)
      have hdelivers := delivers_of_map hlib hholds (hpopped.symm.trans hall)
      refine ⟨h.ledger, fun buf hbuf => ?_, .complete packs rfl ?_ ⟨fuel, _, hget, hdelivers⟩,
        h.network.send _⟩
      · rcases List.mem_append.1 hbuf with hbuf | hbuf
        · exact h.good buf hbuf
        · cases List.mem_singleton.1 hbuf
      · exact congrArg (· ++ [.stop]) F.sent
  · cases hs
    exact h.ends F rfl
  · cases hs

include hm in
theorem Inv.clientTurn (hlib : lib.Lawful) (h : Inv lib cmpr fails m₀ header s) {stop : Bool}
    (hs : s.clientTurn lib cmpr fails stop = some s') : Inv lib cmpr fails m₀ header s' := by
  have hrunning : s.client.pc.running = true := by
    by_contra hn
    unfold Transfer.clientTurn at hs
    cases hpc : s.client.pc <;> rw [hpc] at hs hn <;> first | cases hs | exact hn rfl
  cases h.client with
  | running packs _ F =>
      cases hpc : s.client.pc with
      | get => exact h.get hm F hpc hs
      | got r => exact h.got hm F hpc hs
      | pushing r => exact h.pushing hm F hpc hs
      | popping => exact h.popping hlib F hpc hs
      | pushingLast => exact h.pushingLast F hpc hs
      | draining => exact h.draining hlib F hpc hs
      | returned b =>
          rw [hpc] at hrunning
          cases hrunning
      | threw e =>
          rw [hpc] at hrunning
          cases hrunning
  | complete _ hpc =>
      rw [hpc] at hrunning
      cases hrunning
  | early hn =>
      rw [hn] at hrunning
      cases hrunning

theorem Inv.failed (h : Inv lib cmpr fails m₀ header s) {e : String}
    (hrun : s.client.pc.running = true) :
    Inv lib cmpr fails m₀ header (s.setPc (.threw e)) := by
  cases h.client with
  | running packs _ F => exact h.ends F rfl
  | complete _ hpc =>
      rw [hpc] at hrun
      cases hrun
  | early hn =>
      rw [hn] at hrun
      cases hrun

theorem Inv.congr (h : Inv lib cmpr fails m₀ header s) (hclient : s'.client = s.client)
    (hconv : s'.conv = s.conv)
    (hsent : s'.sent = s.sent) (hnetwork : Network header s') : Inv lib cmpr fails m₀ header s' := by
  refine ⟨by rw [hconv]; exact h.ledger, by rw [hsent]; exact h.good, ?_, hnetwork⟩
  cases h.client with
  | running packs hrun F =>
      refine .running packs (by rwa [hclient]) ⟨hsent.trans F.sent, ?_, ?_, ?_, ?_, ?_, ?_⟩
      · rw [hclient, hconv]
        exact F.data
      · rw [hclient, hconv]
        exact F.quit
      · rw [hclient, hconv]
        exact F.pusher
      · rw [hclient]
        exact F.packer
      · rw [hclient, hconv]
        exact F.popper
      · rw [hclient]
        exact F.drained
  | complete packs hpc hs hall => exact .complete packs (by rwa [hclient]) (hsent.trans hs) hall
  | early hn hstop => exact .early (by rwa [hclient]) (by rwa [hsent])

include hm in
theorem Inv.step (hlib : lib.Lawful) (h : Inv lib cmpr fails m₀ header s) {ev : Event n}
    (hs : s.step lib cmpr fails ev = some s') : Inv lib cmpr fails m₀ header s' := by
  cases ev with
  | client stop => exact h.clientTurn hm hlib hs
  | clientFails e =>
      rw [Transfer.step] at hs
      split at hs
      · cases hs
      · cases hs
      · rename_i hret hthrew
        cases hs
        apply h.failed
        cases hpc : s.client.pc with
        | returned b => exact absurd hpc (hret b)
        | threw e => exact absurd hpc (hthrew e)
        | get | got | pushing | popping | pushingLast | draining => rfl
  | conv ev =>
      rw [Transfer.step] at hs
      split_ifs at hs with hcall
      exact h.conv (Bool.not_eq_true _ ▸ hcall) hs
  | server stop =>
      obtain ⟨hnetwork, hclient, hconv, hsent⟩ := h.network.serverTurn hs
      exact h.congr hclient hconv hsent hnetwork
  | serverFails e =>
      rw [Transfer.step] at hs
      split at hs
      · cases hs
        exact h.congr rfl rfl rfl trivial
      · cases hs
  | close received =>
      cases hs
      exact h.congr rfl rfl rfl (h.network.close received)

include hm in
theorem Inv.run (hlib : lib.Lawful) {evs : List (Event n)} (h : Inv lib cmpr fails m₀ header s)
    (hs : s.run lib cmpr fails evs = some s') : Inv lib cmpr fails m₀ header s' := by
  induction evs generalizing s with
  | nil =>
      cases hs
      exact h
  | cons ev evs ih =>
      obtain ⟨s₁, h₁, h₂⟩ := Option.bind_eq_some_iff.1 hs
      exact ih (h.step hm hlib h₁) h₂

theorem inv_start (m : DiffMerger LogicalBlock) (header : DiffFileHeader) :
    Inv lib cmpr fails m header (start cmpr m header) := by
  refine ⟨.init, fun buf hbuf => absurd hbuf List.not_mem_nil, .running [] rfl ?_, [], [], ?_, rfl,
    fun _ => rfl⟩
  · exact ⟨rfl, ⟨[], [], .refl m, .nil, holds_clear⟩, rfl, fun _ => rfl, fun _ => rfl, ⟨rfl, rfl⟩, nofun⟩
  · exact (List.append_nil _).symm

theorem Inv.complete (h : Inv lib cmpr fails m₀ header s) (hout : s.server.outcome = some (.ok true)) :
    s.client.pc = .returned true ∧
      ∃ packs, s.server.file = header.toBytes ++ packs.flatMap packBytes ++ eofBytes ∧
      Complete lib m₀ packs := by
  have hnetwork := h.network
  unfold Network at hnetwork
  rw [hout] at hnetwork
  obtain ⟨bufs, lost, hfile, hsent⟩ := hnetwork
  have hstop : .stop ∈ s.sent := hsent ▸ List.mem_append_right _ List.mem_cons_self
  cases h.client with
  | running packs _ F => exact absurd hstop F.stop_not_mem
  | early _ hn => exact absurd hstop hn
  | complete packs hpc hs hall =>
      rw [hs] at hsent
      rw [map_next_injective hsent, ← List.flatMap_def] at hfile
      exact ⟨hpc, packs, hfile, hall⟩

end

end Transfer

end WalbTools.WdiffTransfer
