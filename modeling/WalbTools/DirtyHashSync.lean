import WalbTools.PackFile

namespace WalbTools.DirtyHashSync

open Overlay ByteMemory DiffIo DiffMem DiffPack DiffRecIo DiffHeader
open LogicalBlock (toBytes)
open Compression (Codecs)
open PackFile (packBytes Carries Delivers delivers_convertAs readAll_packs)
open SortedFile (SortedDiffReader eofBytes)

structure Args where
  sizeLb : Nat
  bulkLb : Nat
  bulkLb_pos : 0 < bulkLb
  bulkLb_lt : bulkLb < 2 ^ 16

def DIRTY_HASH_SYNC_MAX_PACK_AREA_LB : Nat := 256 * 1024 * 1024 / lbs

/-- A mark of `StreamControl2`, with what is sent after `Next`. -/
inductive Msg (α : Type) where
  | next (a : α)
  | stop
  | error
  | dummy
  deriving DecidableEq

namespace Msg

def payload {α : Type} : Msg α → Option α
  | .next a => some a
  | _ => none

end Msg

inductive Status where
  | running
  | finished
  | failed (msg : String)
  deriving DecidableEq

structure Client where
  addr : Nat
  remainingLb : Nat
  packer : Pack
  status : Status

/-- The server's main thread. `eof` tells whether the last pack of the file is written. -/
structure Server where
  packs : List Pack
  eof : Bool
  status : Status

variable {η : Type} (C : Codec) (hash : Bytes → η) (p : Args)

def piece (img : Nat → LogicalBlock) (addr : Nat) : List LogicalBlock :=
  slice img addr (min (p.sizeLb - addr) p.bulkLb)

section Client

variable [DecidableEq η] (img : Nat → LogicalBlock)

def compressAndSend (packer : Pack) : Msg Pack := .next (PackCompressor.convert C packer)

def flushArea (s : Client) : List (Msg Pack) × Pack :=
  match s.packer.records with
  | [] => ([], s.packer)
  | r :: _ =>
      if DIRTY_HASH_SYNC_MAX_PACK_AREA_LB ≤ s.addr - r.ioAddress then ([compressAndSend C s.packer],
        .clear)
      else ([], s.packer)

/-- The piece is added when the hashes differ, to a new pack if this one is full. -/
def addPiece (recvHash : η) (addr : Nat) (io : List LogicalBlock) (packer : Pack) :
    List (Msg Pack) × Pack :=
  if recvHash = hash (toBytes io) then ([], packer)
  else
    match packer.add addr io.length (toBytes io) with
    | some packer' => ([], packer')
    | none => ([compressAndSend C packer], (Pack.clear.add addr io.length (toBytes io)).getD .clear)

def clientTurn (s : Client) : Msg η → Client × List (Msg Pack)
  | .next recvHash =>
      if s.remainingLb = 0 then ({ s with status := .failed "has next but remainingLb is zero" }, [])
      else
        let io := slice img s.addr (min s.remainingLb p.bulkLb)
        let (out₀, packer₀) := flushArea C s
        let (out₁, packer₁) := addPiece C hash recvHash s.addr io packer₀
        (⟨s.addr + io.length, s.remainingLb - io.length, packer₁, .running⟩, .dummy :: (out₀ ++ out₁))
  | m =>
      if s.remainingLb ≠ 0 then ({ s with status := .failed "no next but remainingLb is not zero" }, [])
      else
        let out := if s.packer.records = [] then [] else [compressAndSend C s.packer]
        if m = .error then (⟨s.addr, 0, .clear, .failed "recvCtl"⟩, out)
        else (⟨s.addr, 0, .clear, .finished⟩, out ++ [.stop])

end Client

section Server

def readPackAndWrite (s : Server) (pack : Pack) : Server :=
  match pack.verifyDiffPackSize, pack.verifyDiffPack with
  | .ok _, .ok _ => { s with packs := s.packs ++ [pack] }
  | .error e, _ => { s with status := .failed e }
  | _, .error e => { s with status := .failed e }

/-- The bytes of the wdiff. -/
def Server.file (header : DiffFileHeader) (s : Server) : Bytes :=
  header.toBytes ++ s.packs.flatMap packBytes ++ if s.eof then eofBytes else []

def serverTurn (s : Server) : Msg Pack → Server
  | .next pack => readPackAndWrite s pack
  | .dummy => s
  | .stop => { s with eof := true, status := .finished }
  | .error => { s with status := .failed "client sent an error" }

end Server

/-- The three threads and the messages in flight. `pending` has not yet been taken
by the client's socket. -/
structure Net (η : Type) where
  hashLb : Nat
  readerDone : Bool
  hashes : List (Msg η)
  client : Client
  pending : List (Msg Pack)
  packs : List (Msg Pack)
  server : Server

inductive Party where
  | reader
  | client
  | socket
  | server
  deriving DecidableEq

/-- How many messages beyond one are held in flight in each direction. -/
structure Window where
  hashes : Nat
  packs : Nat

namespace Net

variable (cimg simg : Nat → LogicalBlock)

def start : Net η := ⟨0, false, [], ⟨0, p.sizeLb, .clear, .running⟩, [], [], ⟨[], false, .running⟩⟩

def readerTurn (s : Net η) : Net η :=
  if s.hashLb < p.sizeLb then
    { s with
      hashLb := s.hashLb + (piece p simg s.hashLb).length
      hashes := s.hashes ++ [.next (hash (toBytes (piece p simg s.hashLb)))] }
  else { s with readerDone := true, hashes := s.hashes ++ [.stop] }

variable [DecidableEq η]

def step (w : Window) (s : Net η) : Party → Option (Net η)
  | .reader =>
      if s.readerDone = false ∧ s.hashes.length ≤ w.hashes then some (s.readerTurn hash p simg)
        else none
  | .client =>
      match s.client.status, s.pending, s.hashes with
      | .running, [], m :: hashes =>
          let (client, out) := clientTurn C hash p cimg s.client m
          some { s with hashes := hashes, client := client, pending := out }
      | _, _, _ => none
  | .socket =>
      match s.pending with
      | m :: pending =>
          if s.packs.length ≤ w.packs then some { s with
            pending := pending, packs := s.packs ++ [m] } else none
      | [] => none
  | .server =>
      match s.server.status, s.packs with
      | .running, m :: packs => some { s with packs := packs, server := serverTurn s.server m }
      | _, _ => none

/-- The steps of the parties in any order. -/
def run (w : Window) : List Party → Net η → Option (Net η)
  | [], s => some s
  | q :: qs, s => (s.step C hash p cimg simg w q).bind (run w qs)

end Net

def zeroBlock : LogicalBlock := ⟨List.replicate lbs 0, List.length_replicate⟩

/-- The block that a record of the wdiff stands for. -/
def value : Cell LogicalBlock → LogicalBlock
  | .data b => b
  | .zero => zeroBlock
  | .discard => zeroBlock

def readPacks : List Pack → Except String (List (DiffRecIo LogicalBlock))
  | [] => .ok []
  | q :: qs => do
      let ios ← readIos C q.records q.data
      let rest ← readPacks qs
      .ok (ios ++ rest)

theorem readPacks_append {qs qs' : List Pack} {ios ios' : List (DiffRecIo LogicalBlock)}
    (h : readPacks C qs = .ok ios) (h' : readPacks C qs' = .ok ios') :
    readPacks C (qs ++ qs') = .ok (ios ++ ios') := by
  induction qs generalizing ios with
  | nil =>
      cases h
      exact h'
  | cons q qs ih =>
      rw [readPacks] at h
      rw [List.cons_append, readPacks]
      cases hq : readIos C q.records q.data with
      | error e =>
          rw [hq] at h
          cases h
      | ok l =>
          rw [hq] at h
          change (readPacks C qs >>= fun rest => .ok (l ++ rest)) = _ at h
          cases hqs : readPacks C qs with
          | error e =>
              rw [hqs] at h
              cases h
          | ok l' =>
              rw [hqs] at h
              cases h
              change (readPacks C (qs ++ qs') >>= fun rest => .ok (l ++ rest)) = _
              rw [ih hqs, List.append_assoc]
              rfl

theorem readPacks_singleton {q : Pack} {ios : List (DiffRecIo LogicalBlock)}
    (h : readIos C q.records q.data = .ok ios) :
    readPacks C [q] = .ok ios := by
  rw [readPacks, h]
  change Except.ok (ios ++ []) = _
  rw [List.append_nil]

section Image

variable (cimg simg : Nat → LogicalBlock)

/-- The IOs make the server's image that of the client below the address. -/
structure UpTo (addr : Nat) (ios : List (DiffRecIo LogicalBlock)) : Prop where
  wf : WF ios
  end_le : ∀ r, r ∈ ios → r.record.endIoAddress ≤ addr
  ioBlocks_lt : ∀ r, r ∈ ios → r.record.ioBlocks < 2 ^ 16
  image : ∀ a, a < addr → write (mapVal value (content ios)) simg a = cimg a

variable {cimg simg} {addr n a : Nat} {ios : List (DiffRecIo LogicalBlock)} {c : Cell LogicalBlock}

theorem eq_zeroBlock {b : LogicalBlock} (h : ∀ x, x ∈ b.bytes → x = 0) : b = zeroBlock := by
  cases b with
  | mk bytes hlen =>
      have hb : bytes = List.replicate lbs 0 := List.eq_replicate_iff.2 ⟨hlen, h⟩
      subst hb
      rfl

theorem value_pieceOf (h : (pieceOf addr (slice cimg addr n)).cell a = some c) :
    addr ≤ a ∧ a < addr + n ∧ value c = cimg a := by
  have hcov : (pieceOf addr (slice cimg addr n)).record.Covers a := by
    by_contra hn
    rw [DiffRecIo.cell, if_neg hn] at h
    cases h
  rw [DiffRecIo.cell, if_pos hcov] at h
  rw [DiffRecord.Covers, DiffRecord.endIoAddress, pieceOf_ioAddress, pieceOf_ioBlocks, length_slice]
    at hcov
  obtain ⟨hle, hlt⟩ := hcov
  refine ⟨hle, hlt, ?_⟩
  rw [pieceOf] at h
  split_ifs at h with hz
  · cases h
    apply Eq.symm
    apply eq_zeroBlock
    intro x hx
    rw [Pack.isAllZero, List.all_eq_true] at hz
    have hmem : cimg a ∈ slice cimg addr n := mem_slice.2 ⟨a, hle, hlt, rfl⟩
    simpa using hz x (List.mem_flatMap.2 ⟨_, hmem, hx⟩)
  · rw [getElem?_slice (by dsimp only; omega), Option.map_some, Nat.add_sub_cancel' hle] at h
    cases h
    rfl

theorem UpTo.content_eq_none (h : UpTo cimg simg addr ios) (ha : addr ≤ a) : content ios a = none := by
  rw [content, overlay_eq_none_iff]
  intro f hf
  obtain ⟨r, hr, rfl⟩ := List.mem_map.1 hf
  have hend := h.end_le r hr
  exact if_neg fun hc => absurd (hc.2.trans_le hend) (not_lt.2 ha)

theorem upTo_zero : UpTo cimg simg 0 [] := ⟨WF.nil, by simp, by simp, by simp⟩

theorem UpTo.skip (h : UpTo cimg simg addr ios) (heq : slice cimg addr n = slice simg addr n) :
    UpTo cimg simg (addr + n) ios where
  wf := h.wf
  end_le r hr := (h.end_le r hr).trans (Nat.le_add_right _ _)
  ioBlocks_lt := h.ioBlocks_lt
  image a ha := by
    rcases Nat.lt_or_ge a addr with hlt | hge
    · exact h.image a hlt
    · rw [write_of_none (mapVal_eq_none_iff.2 (h.content_eq_none hge))]
      have hk := congrArg (fun l => l[a - addr]?) heq
      simp only [getElem?_slice (show a - addr < n by omega), Nat.add_sub_cancel' hge] at hk
      exact (Option.some.inj hk).symm

theorem UpTo.add (h : UpTo cimg simg addr ios) (hn : 0 < n) (hlt : n < 2 ^ 16) :
    UpTo cimg simg (addr + n) (ios ++ [pieceOf addr (slice cimg addr n)]) := by
  have hvalid : (pieceOf addr (slice cimg addr n)).Valid := pieceOf_valid (by rwa [length_slice])
  have hwf : WF (ios ++ [pieceOf addr (slice cimg addr n)]) := by
    constructor
    · intro r hr
      rcases List.mem_append.1 hr with hr | hr
      · exact h.wf.valid r hr
      · rw [List.mem_singleton.1 hr]
        exact hvalid
    · refine List.pairwise_append.2 ⟨h.wf.pairwise, List.pairwise_singleton _ _, fun r hr s hs => ?_⟩
      rw [List.mem_singleton.1 hs, DiffRecIo.Before, pieceOf_ioAddress]
      exact h.end_le r hr
  refine ⟨hwf, ?_, ?_, ?_⟩
  · intro r hr
    rcases List.mem_append.1 hr with hr | hr
    · exact (h.end_le r hr).trans (Nat.le_add_right _ _)
    · rw [List.mem_singleton.1 hr, DiffRecord.endIoAddress, pieceOf_ioAddress, pieceOf_ioBlocks,
        length_slice]
  · intro r hr
    rcases List.mem_append.1 hr with hr | hr
    · exact h.ioBlocks_lt r hr
    · rw [List.mem_singleton.1 hr, pieceOf_ioBlocks, length_slice]
      exact hlt
  · intro a ha
    have hcontent : content (ios ++ [pieceOf addr (slice cimg addr n)]) a =
        ((pieceOf addr (slice cimg addr n)).cell a).or (content ios a) := by
      rw [content_append, cover, content_cons, content, List.map_nil, overlay, none_cover]
    rw [write, mapVal, hcontent]
    cases hc : (pieceOf addr (slice cimg addr n)).cell a with
    | none =>
        have hlt : a < addr := by
          by_contra hge
          refine (hvalid.cell_eq_none_iff.1 hc) ⟨?_, ?_⟩
          · rw [pieceOf_ioAddress]
            exact not_lt.1 hge
          · rw [DiffRecord.endIoAddress, pieceOf_ioAddress, pieceOf_ioBlocks, length_slice]
            exact ha
        rw [Option.none_or]
        exact h.image a hlt
    | some c =>
        rw [Option.some_or]
        exact (value_pieceOf hc).2.2

end Image

section Sending

def Msg.Good : Msg Pack → Prop
  | .next q => Accepted q
  | .dummy => True
  | _ => False

def payloads (ms : List (Msg Pack)) : List Pack := ms.filterMap Msg.payload

def Distinguishes (cimg simg : Nat → LogicalBlock) : Prop :=
  ∀ addr, p.bulkLb ∣ addr → addr < p.sizeLb →
    hash (toBytes (piece p simg addr)) = hash (toBytes (piece p cimg addr)) →
    piece p cimg addr = piece p simg addr

def Packs (C : Codec) (q : Pack) (ios : List (DiffRecIo LogicalBlock)) : Prop :=
  ∃ packer, q = PackCompressor.convert C packer ∧ packer.records ≠ [] ∧ Holds packer ios

theorem readPacks_flatten {C : Codec} (hC : C.Lawful) {qs : List Pack}
    {iss : List (List (DiffRecIo LogicalBlock))}
    (h : List.Forall₂ (Packs C) qs iss) : readPacks C qs = .ok iss.flatten := by
  induction h with
  | nil => rfl
  | cons hq _ ih =>
      obtain ⟨packer, rfl, -, hholds⟩ := hq
      obtain ⟨-, -, -, hconv⟩ := hholds.convert hC
      exact readPacks_append C (readPacks_singleton C hconv) ih

/-- What has been sent and what is in the packer is the difference below the address. -/
structure Sending (cimg simg : Nat → LogicalBlock) (sent : List Pack) (s : Client) : Prop where
  addr_add : s.addr + s.remainingLb = p.sizeLb
  aligned : 0 < s.remainingLb → p.bulkLb ∣ s.addr
  content : ∃ iss ios, List.Forall₂ (Packs C) sent iss ∧ Holds s.packer ios ∧
    UpTo cimg simg s.addr (iss.flatten ++ ios)

variable {C hash p} {cimg simg : Nat → LogicalBlock} {sent : List Pack} {s : Client}

theorem Sending.flush (hC : C.Lawful) (h : Sending C p cimg simg sent s) (hne : s.packer.records ≠ []) :
    Accepted (PackCompressor.convert C s.packer) ∧
      Sending C p cimg simg (sent ++ [PackCompressor.convert C s.packer])
      { s with packer := .clear } := by
  obtain ⟨iss, ios, hsent, hholds, hup⟩ := h.content
  obtain ⟨hsize, hverify, -, -⟩ := hholds.convert hC
  refine ⟨⟨hsize, hverify⟩, h.addr_add, h.aligned, iss ++ [ios], [], ?_, holds_clear, ?_⟩
  · exact List.rel_append hsent (.cons ⟨s.packer, rfl, hne, hholds⟩ .nil)
  · rw [List.append_nil, List.flatten_concat]
    exact hup

theorem Sending.flushArea (hC : C.Lawful) (h : Sending C p cimg simg sent s) :
    (∀ m, m ∈ (flushArea C s).1 → m.Good) ∧ (flushArea C s).1.length ≤ 1 ∧
      Sending C p cimg simg (sent ++ payloads (flushArea C s).1)
      { s with packer := (flushArea C s).2 } := by
  have hkeep : Sending C p cimg simg (sent ++ []) s := by
    rw [List.append_nil]
    exact h
  rw [DirtyHashSync.flushArea]
  cases hrecords : s.packer.records with
  | nil => exact ⟨by simp, Nat.zero_le _, hkeep⟩
  | cons r rs =>
      dsimp only
      split_ifs with harea
      · obtain ⟨hacc, hnew⟩ := h.flush hC (hrecords ▸ List.cons_ne_nil r rs)
        refine ⟨?_, le_rfl, hnew⟩
        intro m hm
        rw [List.mem_singleton.1 hm]
        exact hacc
      · exact ⟨by simp, Nat.zero_le _, hkeep⟩

theorem piece_eq (h : Sending C p cimg simg sent s) (img : Nat → LogicalBlock) :
    piece p img s.addr = slice img s.addr (min s.remainingLb p.bulkLb) := by
  rw [piece, ← h.addr_add, Nat.add_sub_cancel_left]

theorem Sending.advance {packer : Pack} (h : Sending C p cimg simg sent s)
    (hcontent : ∃ iss ios, List.Forall₂ (Packs C) sent iss ∧ Holds packer ios ∧
      UpTo cimg simg (s.addr + min s.remainingLb p.bulkLb) (iss.flatten ++ ios)) :
    Sending C p cimg simg sent
      ⟨s.addr + min s.remainingLb p.bulkLb, s.remainingLb - min s.remainingLb p.bulkLb, packer,
        .running⟩ := by
  have hadd := h.addr_add
  refine ⟨?_, ?_, hcontent⟩
  · dsimp only
    omega
  · intro hpos
    dsimp only at hpos ⊢
    have hmin : min s.remainingLb p.bulkLb = p.bulkLb := by omega
    rw [hmin]
    exact (Nat.dvd_add_left (dvd_refl _)).2 (h.aligned (by omega))

variable [DecidableEq η]

theorem Sending.addPiece (hC : C.Lawful) (hd : Distinguishes hash p cimg simg)
    (h : Sending C p cimg simg sent s)
    (hpos : 0 < s.remainingLb) :
    let n := min s.remainingLb p.bulkLb
    let out := DirtyHashSync.addPiece C hash (hash (toBytes (slice simg s.addr n))) s.addr
      (slice cimg s.addr n) s.packer
    (∀ m, m ∈ out.1 → m.Good) ∧ out.1.length ≤ 1 ∧
      Sending C p cimg simg (sent ++ payloads out.1) ⟨s.addr + n, s.remainingLb - n, out.2,
      .running⟩ := by
  intro n out
  have hn : 0 < n := lt_min hpos p.bulkLb_pos
  have hlt : n < 2 ^ 16 := (Nat.min_le_right _ _).trans_lt p.bulkLb_lt
  have hadd := h.addr_add
  have hlen : (slice cimg s.addr n).length = n := length_slice
  obtain ⟨iss, ios, hsent, hholds, hup⟩ := h.content
  have hout : out = DirtyHashSync.addPiece C hash (hash (toBytes (slice simg s.addr n))) s.addr
    (slice cimg s.addr n) s.packer := rfl
  rw [DirtyHashSync.addPiece] at hout
  split_ifs at hout with heq
  · rw [hout]
    refine ⟨by simp, Nat.zero_le _, ?_⟩
    have hpieces := hd s.addr (h.aligned hpos) (by omega)
    rw [piece_eq h, piece_eq h] at hpieces
    change Sending C p cimg simg (sent ++ []) _
    rw [List.append_nil]
    exact h.advance ⟨iss, ios, hsent, hholds, hup.skip (hpieces heq)⟩
  · have hpacker :=
      hholds.add s.addr (hlen.symm ▸ hn : 0 < (slice cimg s.addr n).length) (hlen.symm ▸ hlt)
    split_ifs at hpacker with hcan
    · obtain ⟨packer, hadded, hnew⟩ := hpacker
      rw [hadded] at hout
      rw [hout]
      refine ⟨by simp, Nat.zero_le _, ?_⟩
      change Sending C p cimg simg (sent ++ []) _
      rw [List.append_nil]
      refine h.advance ⟨iss, _, hsent, hnew, ?_⟩
      rw [← List.append_assoc]
      exact hup.add hn hlt
    · obtain ⟨hacc, hflushed⟩ := h.flush hC hpacker.2
      have hclear := holds_clear.add s.addr (hlen.symm ▸ hn : 0 < (slice cimg s.addr n).length)
        (hlen.symm ▸ hlt)
      rw [if_pos (canAdd_clear _)] at hclear
      obtain ⟨packer, hadded, hnew⟩ := hclear
      rw [hpacker.1, hadded] at hout
      rw [hout]
      refine ⟨?_, le_rfl, ?_⟩
      · intro m hm
        rw [List.mem_singleton.1 hm]
        exact hacc
      · obtain ⟨iss₁, ios₁, hsent₁, hholds₁, hup₁⟩ := hflushed.content
        rw [List.forall₂_nil_left_iff.1 hholds₁.records, List.append_nil] at hup₁
        have hnext : Sending C p cimg simg (sent ++ [PackCompressor.convert C s.packer])
            ⟨s.addr + n, s.remainingLb - n, packer, .running⟩ :=
          hflushed.advance ⟨iss₁, _, hsent₁, hnew, hup₁.add hn hlt⟩
        exact hnext

theorem payloads_append (ms ms' : List (Msg Pack)) :
    payloads (ms ++ ms') = payloads ms ++ payloads ms' :=
  List.filterMap_append

theorem Sending.turn_next (hC : C.Lawful) (hd : Distinguishes hash p cimg simg)
    (h : Sending C p cimg simg sent s)
    (hpos : 0 < s.remainingLb) :
    ∃ s' out, clientTurn C hash p cimg s (.next (hash (toBytes (piece p simg s.addr)))) = (s', out) ∧
      s'.status = .running ∧ s'.addr = s.addr + (piece p simg s.addr).length ∧ (∀ m, m ∈ out → m.Good) ∧
      out.length ≤ 3 ∧ Sending C p cimg simg (sent ++ payloads out) s' := by
  obtain ⟨hgood, hlen, hflushed⟩ := h.flushArea hC
  obtain ⟨hgood', hlen', hadded⟩ := Sending.addPiece hC hd hflushed hpos
  rw [clientTurn, if_neg hpos.ne', piece_eq h, length_slice]
  dsimp only
  rw [length_slice]
  refine ⟨_, _, rfl, rfl, rfl, ?_, ?_, ?_⟩
  · intro m hm
    rcases List.mem_cons.1 hm with rfl | hm
    · exact trivial
    · exact (List.mem_append.1 hm).elim (hgood m) (hgood' m)
  · rw [List.length_cons, List.length_append]
    exact Nat.succ_le_succ (Nat.add_le_add hlen hlen')
  · rw [List.append_assoc, ← payloads_append] at hadded
    exact hadded

theorem Sending.turn_stop (hash : Bytes → η) (hC : C.Lawful) (h : Sending C p cimg simg sent s)
    (hz : s.remainingLb = 0) :
    ∃ ms, clientTurn C hash p cimg s .stop = (⟨s.addr, 0, .clear, .finished⟩, ms ++ [.stop]) ∧
      (∀ m, m ∈ ms → m.Good) ∧ ms.length ≤ 1 ∧
      Sending C p cimg simg (sent ++ payloads ms) ⟨s.addr, 0, .clear, .finished⟩ := by
  have hsz : s.addr = p.sizeLb := by
    rw [← h.addr_add, hz, Nat.add_zero]
  rw [clientTurn, if_neg (not_not.2 hz), if_neg (by simp)]
  · by_cases hp : s.packer.records = []
    · rw [if_pos hp]
      obtain ⟨iss, ios, hsent, hholds, hup⟩ := h.content
      have hnil : ios = [] := by
        have hr := hholds.records
        rwa [hp, List.forall₂_nil_left_iff] at hr
      refine ⟨[], rfl, by simp, Nat.zero_le _, hsz, fun hlt => absurd hlt (lt_irrefl 0), iss, [],
        ?_, holds_clear, ?_⟩
      · change List.Forall₂ _ (sent ++ []) _
        rw [List.append_nil]
        exact hsent
      · rw [← hnil]
        exact hup
    · rw [if_neg hp]
      obtain ⟨hacc, hflushed⟩ := h.flush hC hp
      refine ⟨_, rfl, ?_, le_rfl, hsz, fun hlt => absurd hlt (lt_irrefl 0), hflushed.content⟩
      intro m hm
      rw [List.mem_singleton.1 hm]
      exact hacc
  · exact nofun

end Sending

section Stream

variable {hash p} {simg : Nat → LogicalBlock} {addr : Nat}

variable (hash p simg) in
def hashStream (addr : Nat) : List (Msg η) :=
  if _h : addr < p.sizeLb then
    .next (hash (toBytes (piece p simg addr))) :: hashStream (addr + (piece p simg addr).length)
  else [.stop]
termination_by p.sizeLb - addr
decreasing_by
  have hb := p.bulkLb_pos
  rw [piece, length_slice]
  omega

theorem length_piece_pos (h : addr < p.sizeLb) : 0 < (piece p simg addr).length := by
  rw [piece, length_slice]
  exact lt_min (Nat.sub_pos_of_lt h) p.bulkLb_pos

theorem hashStream_of_lt (h : addr < p.sizeLb) : hashStream hash p simg addr =
    .next (hash (toBytes (piece p simg addr))) :: hashStream hash p simg
    (addr + (piece p simg addr).length) := by
  rw [hashStream, dif_pos h]

theorem hashStream_of_ge (h : p.sizeLb ≤ addr) : hashStream hash p simg addr = [.stop] := by
  rw [hashStream, dif_neg (not_lt.2 h)]

theorem hashStream_ne_nil : hashStream hash p simg addr ≠ [] := by
  rw [hashStream]
  split_ifs <;> exact List.cons_ne_nil _ _

end Stream

namespace Net

/-- What holds in every state that the parties reach. -/
structure Inv (cimg simg : Nat → LogicalBlock) (s : Net η) : Prop where
  status : s.client.status = .running ∨ (s.client.status = .finished ∧ s.client.remainingLb = 0 ∧
    s.client.packer = .clear)
  stream : (if s.client.status = .finished then [] else hashStream hash p simg s.client.addr) =
    s.hashes ++ if s.readerDone then [] else hashStream hash p simg s.hashLb
  sending : Sending C p cimg simg (s.server.packs ++ payloads (s.packs ++ s.pending)) s.client
  flow : (s.server.status = .running ∧ s.server.eof = false ∧
      ∃ ms, s.packs ++ s.pending = ms ++ (if s.client.status = .finished then [.stop] else []) ∧
      ∀ m, m ∈ ms → m.Good) ∨
    (s.server.status = .finished ∧ s.server.eof = true ∧ s.packs ++ s.pending = [] ∧
    s.client.status = .finished)

def fuel (s : Net η) : Nat :=
  8 * (p.sizeLb - s.hashLb) + (if s.readerDone then 0 else 8) + 7 * s.hashes.length +
    2 * s.pending.length +
    s.packs.length

variable {C hash p} {cimg simg : Nat → LogicalBlock} {w : Window} {s s' : Net η}

theorem inv_start : Inv C hash p cimg simg (start p) where
  status := .inl rfl
  stream := rfl
  sending := ⟨Nat.zero_add _, fun _ => dvd_zero _, [], [], .nil, holds_clear, upTo_zero⟩
  flow := .inl ⟨rfl, rfl, [], rfl, by simp⟩

theorem Inv.reader (h : Inv C hash p cimg simg s) (hr : s.readerDone = false) :
    Inv C hash p cimg simg (s.readerTurn hash p simg) ∧
      (s.readerTurn hash p simg).fuel p < s.fuel p := by
  have hstream := h.stream
  rw [hr, if_neg Bool.false_ne_true] at hstream
  rw [readerTurn]
  split_ifs with hlt
  · have hpos : 0 < (piece p simg s.hashLb).length := length_piece_pos hlt
    rw [hashStream_of_lt hlt] at hstream
    refine ⟨⟨h.status, ?_, h.sending, h.flow⟩, ?_⟩
    · simp only [hr, Bool.false_eq_true, if_false, List.append_assoc, List.singleton_append]
      exact hstream
    · simp only [fuel, hr, List.length_append, List.length_singleton]
      omega
  · rw [hashStream_of_ge (not_lt.1 hlt)] at hstream
    refine ⟨⟨h.status, ?_, h.sending, h.flow⟩, ?_⟩
    · simp only [if_true, List.append_nil]
      exact hstream
    · simp only [fuel, hr, List.length_append, List.length_singleton, Bool.false_eq_true, if_false,
        if_true]
      omega

theorem Inv.socket (h : Inv C hash p cimg simg s) {m : Msg Pack} {pending : List (Msg Pack)}
    (hm : s.pending = m :: pending) :
    Inv C hash p cimg simg { s with pending := pending, packs := s.packs ++ [m] } ∧
      ({ s with pending := pending, packs := s.packs ++ [m] } : Net η).fuel p < s.fuel p := by
  have hmove : s.packs ++ [m] ++ pending = s.packs ++ s.pending := by
    rw [hm, List.append_assoc, List.singleton_append]
  refine ⟨⟨h.status, h.stream, ?_, ?_⟩, ?_⟩
  · rw [hmove]
    exact h.sending
  · rw [hmove]
    exact h.flow
  · simp only [fuel, hm, List.length_append, List.length_cons, List.length_nil]
    omega

theorem Inv.server (h : Inv C hash p cimg simg s) (hrun : s.server.status = .running) {m : Msg Pack}
    {packs : List (Msg Pack)} (hm : s.packs = m :: packs) :
    Inv C hash p cimg simg { s with packs := packs, server := serverTurn s.server m } ∧
      ({ s with packs := packs, server := serverTurn s.server m } : Net η).fuel p < s.fuel p := by
  have hfuel : ({ s with packs := packs, server := serverTurn s.server m } : Net η).fuel p <
      s.fuel p := by
    simp only [fuel, hm, List.length_cons]
    omega
  refine ⟨?_, hfuel⟩
  have hsending := h.sending
  rcases h.flow with ⟨-, heof, ms, hms, hgood⟩ | ⟨hfin, -⟩
  · rw [hm, List.cons_append] at hms hsending
    cases ms with
    | nil =>
        rw [List.nil_append] at hms
        split_ifs at hms with hclient
        obtain ⟨rfl, hrest⟩ := List.cons.inj hms
        exact ⟨h.status, h.stream, hsending, .inr ⟨rfl, rfl, hrest, hclient⟩⟩
    | cons m' ms =>
        obtain ⟨rfl, hrest⟩ := List.cons.inj hms
        obtain ⟨hm', hgood'⟩ := List.forall_mem_cons.1 hgood
        cases m with
        | next q =>
            have hturn : serverTurn s.server (.next q) =
                { s.server with packs := s.server.packs ++ [q] } := by
              rw [serverTurn, readPackAndWrite, hm'.1, hm'.2]
            rw [hturn]
            refine ⟨h.status, h.stream, ?_, .inl ⟨hrun, heof, ms, hrest, hgood'⟩⟩
            rw [List.append_assoc]
            exact hsending
        | dummy => exact ⟨h.status, h.stream, hsending, .inl ⟨hrun, heof, ms, hrest, hgood'⟩⟩
        | stop => exact hm'.elim
        | error => exact hm'.elim
  · rw [hrun] at hfin
    cases hfin

variable [DecidableEq η]

theorem Inv.client (hC : C.Lawful) (hd : Distinguishes hash p cimg simg) (h : Inv C hash p cimg simg s)
    (hrun : s.client.status = .running) (hpending : s.pending = []) {m : Msg η} {hashes : List (Msg η)}
    (hm : s.hashes = m :: hashes) :
    let out := clientTurn C hash p cimg s.client m
    Inv C hash p cimg simg { s with hashes := hashes, client := out.1, pending := out.2 } ∧
      ({ s with hashes := hashes, client := out.1, pending := out.2 } : Net η).fuel p < s.fuel p := by
  have hstream := h.stream
  have hsending := h.sending
  have hadd := hsending.addr_add
  rw [if_neg (by rw [hrun]; exact nofun), hm, List.cons_append] at hstream
  have hflow : s.server.status = .running ∧ s.server.eof = false ∧ ∀ m, m ∈ s.packs → m.Good := by
    rcases h.flow with ⟨hs, he, ms, hms, hgood⟩ | ⟨-, -, -, hfin⟩
    · rw [hrun, hpending, List.append_nil, if_neg nofun, List.append_nil] at hms
      exact ⟨hs, he, hms ▸ hgood⟩
    · rw [hrun] at hfin
      cases hfin
  rw [hpending, List.append_nil] at hsending
  obtain ⟨hserver, heof, hgood⟩ := hflow
  rcases Nat.eq_zero_or_pos s.client.remainingLb with hz | hpos
  -- The stream is at its end.
  · rw [hashStream_of_ge (by omega)] at hstream
    obtain ⟨rfl, hrest⟩ := List.cons.inj hstream
    obtain ⟨ms, hturn, hms, hlen, hnew⟩ := Sending.turn_stop hash hC hsending hz
    rw [hturn]
    refine ⟨⟨.inr ⟨rfl, rfl, rfl⟩, hrest, ?_, .inl ⟨hserver, heof, s.packs ++ ms, ?_, ?_⟩⟩, ?_⟩
    · rw [payloads_append, payloads_append]
      rw [List.append_assoc] at hnew
      change Sending C p cimg simg (s.server.packs ++ (payloads s.packs ++ (payloads ms ++ []))) _
      rw [List.append_nil]
      exact hnew
    · exact (List.append_assoc ..).symm
    · intro m hm
      exact (List.mem_append.1 hm).elim (hgood m) (hms m)
    · simp only [fuel, hm, hpending, List.length_append, List.length_cons, List.length_nil]
      omega
  -- The hash is that of the piece at the client's address.
  · rw [hashStream_of_lt (by omega)] at hstream
    obtain ⟨rfl, hrest⟩ := List.cons.inj hstream
    obtain ⟨s₁, out, hturn, hstatus, haddr, hms, hlen, hnew⟩ := hsending.turn_next hC hd hpos
    rw [hturn]
    refine ⟨⟨.inl hstatus, ?_, ?_, .inl ⟨hserver, heof, s.packs ++ out, ?_, ?_⟩⟩, ?_⟩
    · dsimp only
      rw [hstatus, if_neg nofun, haddr]
      exact hrest
    · rw [payloads_append]
      rw [List.append_assoc] at hnew
      exact hnew
    · dsimp only
      rw [hstatus, if_neg nofun, List.append_nil]
    · intro m hm
      exact (List.mem_append.1 hm).elim (hgood m) (hms m)
    · simp only [fuel, hm, hpending, List.length_cons, List.length_nil]
      omega

/-- A step keeps the invariant, and brings the end nearer. -/
theorem Inv.step (hC : C.Lawful) (hd : Distinguishes hash p cimg simg)
    (h : Inv C hash p cimg simg s) {q : Party}
    (hs : s.step C hash p cimg simg w q = some s') :
    Inv C hash p cimg simg s' ∧ s'.fuel p < s.fuel p := by
  cases q with
  | reader =>
      rw [Net.step] at hs
      split_ifs at hs with hr
      cases hs
      exact h.reader hr.1
  | client =>
      rw [Net.step] at hs
      split at hs
      · next hrun hpending hm =>
        cases hs
        exact h.client hC hd hrun hpending hm
      · cases hs
  | socket =>
      rw [Net.step] at hs
      split at hs
      · next hm =>
        split_ifs at hs
        cases hs
        exact h.socket hm
      · cases hs
  | server =>
      rw [Net.step] at hs
      split at hs
      · next hrun hm =>
        cases hs
        exact h.server hrun hm
      · cases hs

theorem Inv.run (hC : C.Lawful) (hd : Distinguishes hash p cimg simg) {qs : List Party}
    (h : Inv C hash p cimg simg s) (hs : run C hash p cimg simg w qs s = some s') :
    Inv C hash p cimg simg s' ∧ qs.length + s'.fuel p ≤ s.fuel p := by
  induction qs generalizing s with
  | nil =>
      cases hs
      exact ⟨h, by simp⟩
  | cons q qs ih =>
      rw [Net.run, Option.bind_eq_some_iff] at hs
      obtain ⟨s₁, h₁, hs⟩ := hs
      obtain ⟨hinv, hlt⟩ := h.step hC hd h₁
      obtain ⟨hinv', hle⟩ := ih hinv hs
      refine ⟨hinv', ?_⟩
      rw [List.length_cons]
      omega

structure Finished (s : Net η) : Prop where
  reader : s.readerDone = true
  client : s.client.status = .finished
  server : s.server.status = .finished
  eof : s.server.eof = true
  hashes : s.hashes = []
  pending : s.pending = []
  packs : s.packs = []

theorem Inv.finished (h : Inv C hash p cimg simg s) (hw : ∀ q, s.step C hash p cimg simg w q = none) :
    s.Finished := by
  have hserver : s.server.status = .finished ∧ s.server.eof = true ∧ s.packs ++ s.pending = [] ∧
      s.client.status = .finished := by
    rcases h.flow with ⟨hrun, heof, ms, hms, -⟩ | hfin
    · exfalso
      have hpacks : s.packs = [] := by
        have hq := hw .server
        rw [Net.step, hrun] at hq
        cases hp : s.packs with
        | nil => rfl
        | cons m packs =>
            rw [hp] at hq
            cases hq
      have hpending : s.pending = [] := by
        have hq := hw .socket
        rw [Net.step, hpacks] at hq
        cases hp : s.pending with
        | nil => rfl
        | cons m pending =>
            rw [hp] at hq
            cases hq
      rcases h.status with hc | ⟨hc, -⟩
      · have hstream := h.stream
        have hhashes : s.hashes = [] := by
          have hq := hw .client
          rw [Net.step, hc, hpending] at hq
          cases hp : s.hashes with
          | nil => rfl
          | cons m hashes =>
              rw [hp] at hq
              cases hq
        have hreader : s.readerDone = true := by
          have hq := hw .reader
          rw [Net.step, hhashes] at hq
          by_contra hn
          rw [if_pos ⟨Bool.eq_false_iff.2 hn, Nat.zero_le _⟩] at hq
          cases hq
        rw [hc, if_neg nofun, hhashes, hreader, if_pos rfl] at hstream
        exact hashStream_ne_nil hstream
      · rw [hpacks, hpending, hc, if_pos rfl] at hms
        exact List.append_ne_nil_of_right_ne_nil _ (List.cons_ne_nil _ _) hms.symm
    · exact hfin
  obtain ⟨hs, heof, hflight, hc⟩ := hserver
  obtain ⟨hpacks, hpending⟩ := List.append_eq_nil_iff.1 hflight
  have hstream := h.stream
  rw [hc, if_pos rfl] at hstream
  obtain ⟨hhashes, hrest⟩ := List.append_eq_nil_iff.1 hstream.symm
  refine ⟨?_, hc, hs, heof, hhashes, hpending, hpacks⟩
  by_contra hn
  rw [if_neg hn] at hrest
  exact hashStream_ne_nil hrest

omit [DecidableEq η] in
theorem Inv.sent (h : Inv C hash p cimg simg s) (hfin : s.Finished) :
    ∃ iss, List.Forall₂ (Packs C) s.server.packs iss ∧ UpTo cimg simg p.sizeLb iss.flatten := by
  obtain ⟨hz, hclear⟩ := (h.status.resolve_left (by rw [hfin.client]; exact nofun)).2
  obtain ⟨iss, ios, hsent, hholds, hup⟩ := h.sending.content
  have haddr := h.sending.addr_add
  rw [hz, Nat.add_zero] at haddr
  rw [hclear] at hholds
  rw [hfin.packs, hfin.pending] at hsent
  change List.Forall₂ _ (s.server.packs ++ []) _ at hsent
  rw [List.append_nil] at hsent
  rw [List.forall₂_nil_left_iff.1 hholds.records, List.append_nil, haddr] at hup
  exact ⟨iss, hsent, hup⟩

end Net

/-- The wdiff is sorted, without overlaps and inside the device, and makes the
server's image that of the client. -/
def IsDiff (C : Codec) (p : Args) (cimg simg : Nat → LogicalBlock) (packs : List Pack) : Prop :=
  ∃ ios, readPacks C packs = .ok ios ∧ WF ios ∧ (∀ r, r ∈ ios → r.record.endIoAddress ≤ p.sizeLb) ∧
    ∀ a, a < p.sizeLb → write (mapVal value (content ios)) simg a = cimg a

/-- In whatever order the parties take their steps, none of them fails, the number
of steps is bounded, and where no step is left both sides have returned and the
wdiff is the difference. -/
theorem hash_sync_exact {η : Type} [DecidableEq η] {C : Codec} {hash : Bytes → η} {p : Args}
    {cimg simg : Nat → LogicalBlock} {w : Window} (hC : C.Lawful) (hd : Distinguishes hash p cimg simg)
    {qs : List Party} {s : Net η} (hs : Net.run C hash p cimg simg w qs (Net.start p) = some s) :
    (∀ e, s.client.status ≠ .failed e ∧ s.server.status ≠ .failed e) ∧ qs.length ≤ 8 * p.sizeLb + 8 ∧
      ((∀ q, s.step C hash p cimg simg w q = none) → s.Finished ∧
      IsDiff C p cimg simg s.server.packs) := by
  obtain ⟨h, hlen⟩ := Net.inv_start.run hC hd hs
  refine ⟨fun e => ⟨?_, ?_⟩, ?_, fun hw => ?_⟩
  · rcases h.status with hc | ⟨hc, -⟩
    · rw [hc]
      exact nofun
    · rw [hc]
      exact nofun
  · rcases h.flow with ⟨hf, -⟩ | ⟨hf, -⟩
    · rw [hf]
      exact nofun
    · rw [hf]
      exact nofun
  · have hstart : (Net.start p : Net η).fuel p = 8 * p.sizeLb + 8 := rfl
    omega
  · have hfin := h.finished hw
    obtain ⟨iss, hsent, hup⟩ := h.sent hfin
    exact ⟨hfin, iss.flatten, readPacks_flatten hC hsent, hup.wf, hup.end_le, hup.image⟩

def noCodec : Codec := ⟨fun _ _ => none, some⟩

theorem noCodec_lawful : noCodec.Lawful := ⟨nofun⟩

def oneBlock : Args := ⟨1, 4, by decide, by decide⟩

def sevens : LogicalBlock := ⟨List.replicate lbs 7, List.length_replicate⟩

def oneBlockRun : Option (Net Bytes) :=
  Net.run noCodec id oneBlock (fun _ => sevens) (fun _ => zeroBlock) ⟨0, 0⟩
    [.reader, .client, .reader, .socket, .server, .client, .socket, .server, .socket, .server]
      (Net.start oneBlock)

theorem distinguishes_id (p : Args) (cimg simg : Nat → LogicalBlock) : Distinguishes id p cimg simg := by
  intro addr _ _ h
  have hblocks := congrArg LogicalBlock.ofBytes h
  rw [id, id, LogicalBlock.ofBytes_toBytes, LogicalBlock.ofBytes_toBytes] at hblocks
  exact hblocks.symm

theorem hash_sync_exact_one :
    ∃ s, oneBlockRun = some s ∧ s.Finished ∧
      IsDiff noCodec oneBlock (fun _ => sevens) (fun _ => zeroBlock) s.server.packs := by
  have hrun : oneBlockRun.any (fun s => [.reader, .client, .socket, .server].all fun q =>
      (s.step noCodec id oneBlock (fun _ => sevens) (fun _ => zeroBlock) ⟨0, 0⟩ q).isNone) = true := by
    decide +kernel
  obtain ⟨s, hs, hstuck⟩ := (Option.any_eq_true _ _).1 hrun
  have hw : ∀ q, s.step noCodec id oneBlock (fun _ => sevens) (fun _ => zeroBlock) ⟨0, 0⟩ q = none := by
    intro q
    apply Option.isNone_iff_eq_none.1
    apply List.all_eq_true.1 hstuck
    cases q <;> simp
  exact ⟨s, hs, (hash_sync_exact noCodec_lawful (distinguishes_id _ _ _) hs).2.2 hw⟩

theorem Packs.delivers {C : Codec} (hC : C.Lawful) {Z : Codecs}
    (hZ : C.uncompress = Z.uncompress WALB_DIFF_CMPR_SNAPPY)
    {q : Pack} {ios : List (DiffRecIo LogicalBlock)} (h : Packs C q ios)
    (hios : ∀ r, r ∈ ios → PackFile.Narrow r) :
    Delivers Z q ios := by
  obtain ⟨packer, rfl, hne, hholds⟩ := h
  exact delivers_convertAs hC (by decide) (fun hz => by cases hz) (fun _ => hZ) hholds hne hios

/-- The file that the server leaves is read as the IOs of its packs. -/
theorem server_file_reads {η : Type} [DecidableEq η] {C : Codec} {hash : Bytes → η} {p : Args}
    {cimg simg : Nat → LogicalBlock} {w : Window} (hC : C.Lawful) (hd : Distinguishes hash p cimg simg)
    {qs : List Party} {s : Net η} (hs : Net.run C hash p cimg simg w qs (Net.start p) = some s)
    (hw : ∀ q, s.step C hash p cimg simg w q = none) {Z : Codecs}
    (hZ : C.uncompress = Z.uncompress WALB_DIFF_CMPR_SNAPPY)
    {header : DiffFileHeader} (hheader : header.Fits) (hsize : p.sizeLb ≤ 2 ^ 64) (calcChecksum : Bool) :
    ∃ ios r outs, readPacks C s.server.packs = .ok ios ∧
      (SortedDiffReader.setFile (s.server.file header)).readHeader = .ok (header, r) ∧
      SortedDiffReader.readAll Z calcChecksum (s.server.file header) = (outs, .ok ()) ∧
      List.Forall₂ Carries ios outs := by
  obtain ⟨h, -⟩ := Net.inv_start.run hC hd hs
  have hfin := h.finished hw
  obtain ⟨iss, hsent, hup⟩ := h.sent hfin
  have hnarrow : ∀ r, r ∈ iss.flatten → PackFile.Narrow r := by
    intro r hr
    have hend := hup.end_le r hr
    have hpos := (hup.wf.valid r hr).pos
    rw [DiffRecord.endIoAddress] at hend
    exact ⟨by omega, (hup.ioBlocks_lt r hr).trans (by decide)⟩
  have hdelivers : List.Forall₂ (Delivers Z) s.server.packs iss := by
    refine List.forall₂_iff_get.2 ⟨hsent.length_eq, fun i hi hi' => ?_⟩
    refine (hsent.get hi hi').delivers hC hZ fun r hr =>
      hnarrow r (List.mem_flatten.2 ⟨_, List.get_mem iss ⟨i, hi'⟩, hr⟩)
  obtain ⟨r, outs, hread, hall, hcarries⟩ := readAll_packs hheader hdelivers calcChecksum
  have hfile : s.server.file header = header.toBytes ++ s.server.packs.flatMap packBytes ++
      eofBytes := by
    rw [Server.file, hfin.eof, if_pos rfl]
  rw [hfile]
  exact ⟨iss.flatten, r, outs, readPacks_flatten hC hsent, hread, hall, hcarries⟩

end WalbTools.DirtyHashSync
