import WalbTools.WriteBack

namespace WalbTools.DirtyFullSync

open Overlay WriteBack

/-- The compressor, on whole blocks `β`; `ω` is a byte of its output. -/
structure Snappy (β ω : Type) where
  compress : List β → List ω
  uncompress : List ω → Option (List β)

structure Snappy.Lawful {β ω : Type} (C : Snappy β ω) : Prop where
  compress_ne_nil : ∀ b, b ≠ [] → C.compress b ≠ []
  uncompress_compress : ∀ b, b ≠ [] → C.uncompress (C.compress b) = some b

/-- The arguments on which both sides agree. `parseBulkLb` accepts at most 8192
blocks; below the bound here `lb` and `size` do not wrap around. -/
structure Args where
  startLb : Nat
  sizeLb : Nat
  bulkLb : Nat
  startLb_le : startLb ≤ sizeLb
  bulkLb_pos : 0 < bulkLb
  bulkLb_lt : bulkLb < 2 ^ 23

structure ServerArgs where
  skipZero : Bool
  fsyncIntervalSize : Nat
  /-- Whether a state to save the progress in is given. -/
  fullReplSt : Bool

namespace Args

variable (p : Args) {remainingLb : Nat}

def chunkLb (remainingLb : Nat) : Nat := min p.bulkLb remainingLb % 2 ^ 32

theorem chunkLb_eq : p.chunkLb remainingLb = min p.bulkLb remainingLb := by
  have h := p.bulkLb_lt
  exact Nat.mod_eq_of_lt (by omega)

theorem chunkLb_pos (h : 0 < remainingLb) : 0 < p.chunkLb remainingLb := by
  rw [chunkLb_eq]
  exact lt_min p.bulkLb_pos h

end Args

variable {β ω : Type} (C : Snappy β ω) (zero : β) (p : Args) (q : ServerArgs) (img : Nat → β)

section Client

variable [DecidableEq β]

def isAllZero (buf : List β) : Prop := ∀ b, b ∈ buf → b = zero

instance (buf : List β) : Decidable (isAllZero zero buf) :=
  inferInstanceAs (Decidable (∀ b, b ∈ buf → _))

/-- One message; the empty one stands for `encSize` 0. -/
def encode (buf : List β) : List ω := if isAllZero zero buf then [] else C.compress buf

/-- The buffer is read into from its front and keeps the rest of what it held. -/
def readInto (addr lb : Nat) (buf : List β) : List β := slice img addr lb ++ buf.drop lb

def clientLoop (buf : List β) (remainingLb : Nat) : List (List ω) :=
  if 0 < remainingLb then
    let lb := p.chunkLb remainingLb
    let buf := readInto img (p.sizeLb - remainingLb) lb buf
    encode C zero buf :: clientLoop buf (remainingLb - lb)
  else []
termination_by remainingLb
decreasing_by
  have := p.chunkLb_pos ‹_›
  omega

/-- What `dirtyFullSyncClient` sends when it is not stopped. The initial content
of the buffer is whatever its memory held. -/
def dirtyFullSyncClient (buf : List β) : List (List ω) :=
  clientLoop C zero p img buf (p.sizeLb - p.startLb)

end Client

/-- The data must not be larger than its destination, and fills it. -/
def uncompressSnappy (src : List ω) (dstLb : Nat) : Except String (List β) :=
  match C.uncompress src with
  | none => .error "dirtyFullSyncServer:snappy_uncompress failed"
  | some b =>
      if dstLb < b.length then .error "dirtyFullSyncServer:snappy_uncompress failed"
      else if b.length ≠ dstLb then .error "assertion failed: dst.size() == decSize"
      else .ok b

/-- The offset of the file is `progressLb` at the head of each turn. -/
structure Server (β : Type) where
  blocks : Store Nat β
  progressLb : Nat
  remainingLb : Nat
  writeSize : Nat
  saved : Option Nat

namespace Server

def start (blocks : Store Nat β) : Server β := ⟨blocks, p.startLb, p.sizeLb - p.startLb, 0, none⟩

/-- The blocks that a message makes the server write; none when it seeks. -/
def chunk (lb : Nat) : List ω → Except String (Option (List β))
  | [] => .ok (if q.skipZero then none else some (List.replicate lb zero))
  | msg@(_ :: _) => (uncompressSnappy C msg lb).map some

def advance (s : Server β) (lb : Nat) (data : Option (List β)) : Server β where
  blocks := data.elim s.blocks fun l => s.blocks.write (stretch s.progressLb l)
  progressLb := s.progressLb + lb
  remainingLb := s.remainingLb - lb
  writeSize := s.writeSize + lb * 512
  saved := s.saved

def receive (s : Server β) (msg : List ω) : Except String (Server β) :=
  (chunk C zero q (p.chunkLb s.remainingLb) msg).map (s.advance (p.chunkLb s.remainingLb))

def fsyncIfNecessary (s : Server β) : Server β :=
  if s.writeSize ≥ q.fsyncIntervalSize then
    { s with
      blocks := s.blocks.flush, writeSize := 0,
      saved := if q.fullReplSt then some s.progressLb else s.saved }
  else s

def turn (s : Server β) (msg : List ω) : Except String (Server β) :=
  (s.receive C zero p q msg).map (fsyncIfNecessary q)

/-- The loop over the messages of the packet stream; returns with what is left of it. -/
def loop : Server β → List (List ω) → Except String (Server β × List (List ω))
  | s, [] =>
      if 0 < s.remainingLb then .error "packet: read failed"
      else .ok ({ s with blocks := s.blocks.flush }, [])
  | s, msg :: msgs =>
      if 0 < s.remainingLb then
        match s.turn C zero p q msg with
        | .error e => .error e
        | .ok s' => s'.loop msgs
      else .ok ({ s with blocks := s.blocks.flush }, msg :: msgs)

end Server

def dirtyFullSyncServer (blocks : Store Nat β) (msgs : List (List ω)) :
    Except String (Server β × List (List ω)) :=
  (Server.start p blocks).loop C zero p q msgs

/-- A server at the head of its loop and the messages that it has not read. -/
inductive Server.Reaches : Server β → List (List ω) → Server β → List (List ω) → Prop
  | refl (s : Server β) (msgs : List (List ω)) : Reaches s msgs s msgs
  | turn {s s' t : Server β} {msg : List ω} {msgs rest : List (List ω)} (hrem : 0 < s.remainingLb)
      (h : s.turn C zero p q msg = .ok s') (ht : Reaches s' msgs t rest) : Reaches s (msg :: msgs) t rest

/-- The two loops at the head of a turn with `remainingLb` blocks to go; `dev` is
the device as the server found it. -/
structure InStep (dev : Store Nat β) (remainingLb : Nat) (buf : List β) (s : Server β) : Prop where
  remaining : s.remainingLb = remainingLb
  remaining_le : remainingLb ≤ p.sizeLb - p.startLb
  progress : s.progressLb = p.sizeLb - remainingLb
  length_buf : buf.length = p.bulkLb
  copied : ∀ a, p.startLb ≤ a → a < s.progressLb → s.blocks.now a = img a
  ahead : q.skipZero = true → ∀ a, s.progressLb ≤ a → a < p.sizeLb → s.blocks.now a = zero
  outside : ∀ a, a < p.startLb ∨ p.sizeLb ≤ a → s.blocks.now a = dev.now a
  below : ∀ a v, a < p.startLb → dev.Holds a v → s.blocks.Holds a v
  saved : ∀ n, s.saved = some n →
    p.startLb ≤ n ∧ n ≤ s.progressLb ∧ ∀ a, p.startLb ≤ a → a < n → s.blocks.Holds a (img a)

variable {C zero p q img} {dev : Store Nat β} {remainingLb : Nat} {buf : List β} {s : Server β}

theorem inStep_start (hbuf : buf.length = p.bulkLb)
    (hskip : q.skipZero = true → ∀ a, p.startLb ≤ a → a < p.sizeLb → dev.now a = zero) :
    InStep zero p q img dev (p.sizeLb - p.startLb) buf (Server.start p dev) where
  remaining := rfl
  remaining_le := le_rfl
  progress := (Nat.sub_sub_self p.startLb_le).symm
  length_buf := hbuf
  copied a ha h := absurd h (not_lt.2 ha)
  ahead := hskip
  outside _ _ := rfl
  below _ _ _ h := h
  saved n h := by cases h

theorem InStep.fsyncIfNecessary (h : InStep zero p q img dev remainingLb buf s) :
    InStep zero p q img dev remainingLb buf (s.fsyncIfNecessary q) := by
  unfold Server.fsyncIfNecessary
  split_ifs with hsize hst
  · have hle : p.startLb ≤ s.progressLb := by
      rw [h.progress]
      have := h.remaining_le
      have := p.startLb_le
      omega
    refine ⟨h.remaining, h.remaining_le, h.progress, h.length_buf, h.copied, h.ahead, h.outside,
      fun a v ha hv => (h.below a v ha hv).flush, ?_⟩
    rintro n ⟨⟩
    exact ⟨hle, le_rfl, fun a ha hn => Store.holds_flush.2 (h.copied a ha hn)⟩
  · refine ⟨h.remaining, h.remaining_le, h.progress, h.length_buf, h.copied, h.ahead, h.outside,
      fun a v ha hv => (h.below a v ha hv).flush, fun n hn => ?_⟩
    obtain ⟨hle, hle', hh⟩ := h.saved n hn
    exact ⟨hle, hle', fun a ha hn => (hh a ha hn).flush⟩
  · exact h

theorem length_readInto {addr lb : Nat} (h : lb ≤ buf.length) :
    (readInto img addr lb buf).length = buf.length := by
  simp [readInto, h]

theorem slice_eq_replicate {addr lb : Nat} (h : isAllZero zero (readInto img addr lb buf)) :
    slice img addr lb = List.replicate lb zero :=
  List.eq_replicate_iff.2 ⟨length_slice, fun b hb => h b (List.mem_append_left _ hb)⟩

/-- What a turn does to the device: the next blocks are those of the image. -/
theorem InStep.advance (h : InStep zero p q img dev remainingLb buf s) (hrem : 0 < remainingLb)
    {lb : Nat}
    (hlb : lb = p.chunkLb remainingLb) {data : Option (List β)}
    (hnone : data = none → q.skipZero = true ∧ slice img s.progressLb lb = List.replicate lb zero)
    (hsome : ∀ l, data = some l → l = slice img s.progressLb lb) :
    InStep zero p q img dev (remainingLb - lb) (readInto img s.progressLb lb buf)
      (s.advance lb data) := by
  have hle := h.remaining_le
  have hstart := p.startLb_le
  have hpos : 0 < lb := hlb ▸ p.chunkLb_pos hrem
  rw [p.chunkLb_eq] at hlb
  have hbulk : lb ≤ p.bulkLb := hlb ▸ min_le_left _ _
  have hlbrem : lb ≤ remainingLb := hlb ▸ min_le_right _ _
  have hprog := h.progress
  have hnow : ∀ a, (s.advance lb data).blocks.now a =
      if s.progressLb ≤ a ∧ a < s.progressLb + lb then img a else s.blocks.now a := by
    intro a
    cases data with
    | none =>
        obtain ⟨hskip, hz⟩ := hnone rfl
        split_ifs with ha
        · have hmem : img a ∈ List.replicate lb zero := hz ▸ mem_slice.2 ⟨a, ha.1, ha.2, rfl⟩
          rw [List.eq_of_mem_replicate hmem]
          exact h.ahead hskip a ha.1 (by omega)
        · rfl
    | some l =>
        obtain rfl := hsome l rfl
        change Overlay.write (stretch s.progressLb (slice img s.progressLb lb)) s.blocks.now a = _
        split_ifs with ha
        · rw [Overlay.write, stretch_slice ha.1 ha.2]
          rfl
        · refine write_of_none (stretch_eq_none_iff.2 ?_)
          rw [length_slice]
          omega
  have hholds : ∀ a v, a < s.progressLb → s.blocks.Holds a v → (s.advance lb data).blocks.Holds a v := by
    intro a v ha hv
    cases data with
    | none => exact hv
    | some l => exact hv.write (.inl (stretch_eq_none_iff.2 (.inl ha)))
  refine ⟨?_, by omega, ?_, ?_, ?_, ?_, ?_, ?_, ?_⟩
  · rw [← h.remaining]
    rfl
  · change s.progressLb + lb = _
    omega
  · rw [length_readInto (h.length_buf ▸ hbulk), h.length_buf]
  · intro a ha ha'
    rw [hnow]
    split_ifs with hin
    · rfl
    · have : a < s.progressLb + lb := ha'
      exact h.copied a ha (by omega)
  · intro hskip a ha ha'
    have : s.progressLb + lb ≤ a := ha
    rw [hnow, if_neg (by omega)]
    exact h.ahead hskip a (by omega) ha'
  · intro a ha
    rw [hnow, if_neg (by omega)]
    exact h.outside a ha
  · intro a v ha hv
    exact hholds a v (by omega) (h.below a v ha hv)
  · intro n hn
    obtain ⟨hs, hle', hh⟩ := h.saved n hn
    exact ⟨hs, le_trans hle' (Nat.le_add_right _ _), fun a ha han => hholds a _ (by omega) (hh a ha han)⟩

theorem Server.Reaches.loop_eq {t : Server β} {msgs rest : List (List ω)}
    (hr : Server.Reaches C zero p q s msgs t rest) :
    s.loop C zero p q msgs = t.loop C zero p q rest := by
  induction hr with
  | refl s msgs => rfl
  | turn hrem ht _ ih => rw [Server.loop, if_pos hrem, ht, ← ih]

theorem Server.reaches_of_loop {r : Server β × List (List ω)} :
    ∀ {s : Server β} {msgs : List (List ω)}, s.loop C zero p q msgs = .ok r →
      ∃ t, Server.Reaches C zero p q s msgs t r.2 ∧ t.remainingLb = 0 ∧
      r.1 = { t with blocks := t.blocks.flush }
  | s, [], h => by
      rw [Server.loop] at h
      split_ifs at h with hrem
      cases h
      exact ⟨s, .refl s [], Nat.eq_zero_of_not_pos hrem, rfl⟩
  | s, msg :: msgs, h => by
      rw [Server.loop] at h
      split_ifs at h with hrem
      · cases ht : s.turn C zero p q msg with
        | error e =>
            rw [ht] at h
            cases h
        | ok s' =>
            rw [ht] at h
            obtain ⟨t, hr, hz, he⟩ := Server.reaches_of_loop h
            exact ⟨t, .turn hrem ht hr, hz, he⟩
      · cases h
        exact ⟨s, .refl s _, Nat.eq_zero_of_not_pos hrem, rfl⟩

/-- Either the last chunk is a full one, or the client's buffer holds only zeros
when it has read the last chunk: that chunk, and behind it what remains of the
chunk before, or of the buffer's memory when there was none. -/
def LastChunkFits (zero : β) (p : Args) (img : Nat → β) (remainingLb : Nat) (buf : List β) : Prop :=
  remainingLb % p.bulkLb = 0 ∨
    (p.bulkLb ≤ remainingLb ∧ ∀ a, p.sizeLb - p.bulkLb ≤ a → a < p.sizeLb → img a = zero) ∨
    (remainingLb < p.bulkLb ∧ (∀ a, p.sizeLb - remainingLb ≤ a → a < p.sizeLb → img a = zero) ∧
      isAllZero zero (buf.drop remainingLb))

theorem isAllZero_append {l m : List β} : isAllZero zero (l ++ m) ↔ isAllZero zero l ∧
    isAllZero zero m :=
  List.forall_mem_append

theorem isAllZero_slice {addr n : Nat} :
    isAllZero zero (slice img addr n) ↔ ∀ a, addr ≤ a → a < addr + n → img a = zero := by
  constructor
  · intro h a ha hn
    exact h _ (mem_slice.2 ⟨a, ha, hn, rfl⟩)
  · intro h b hb
    obtain ⟨a, ha, hn, rfl⟩ := mem_slice.1 hb
    exact h a ha hn

theorem lastChunkFits_short (hpos : 0 < remainingLb) (hlt : remainingLb < p.bulkLb)
    (hle : remainingLb ≤ p.sizeLb) :
    LastChunkFits zero p img remainingLb buf ↔
      isAllZero zero (readInto img (p.sizeLb - remainingLb) remainingLb buf) := by
  have hmod : remainingLb % p.bulkLb ≠ 0 := by
    rw [Nat.mod_eq_of_lt hlt]
    omega
  rw [readInto, isAllZero_append, isAllZero_slice, Nat.sub_add_cancel hle, LastChunkFits]
  constructor
  · rintro (h | ⟨h, -⟩ | ⟨-, h⟩)
    · exact absurd h hmod
    · omega
    · exact h
  · exact fun h => .inr (.inr ⟨hlt, h⟩)

theorem lastChunkFits_full (hge : p.bulkLb ≤ remainingLb) (hle : remainingLb ≤ p.sizeLb)
    (hbuf : buf.length = p.bulkLb) :
    LastChunkFits zero p img remainingLb buf ↔
      LastChunkFits zero p img (remainingLb - p.bulkLb)
      (readInto img (p.sizeLb - remainingLb) p.bulkLb buf) := by
  have hpos := p.bulkLb_pos
  have hread : readInto img (p.sizeLb - remainingLb) p.bulkLb buf =
      slice img (p.sizeLb - remainingLb) p.bulkLb := by
    rw [readInto, List.drop_of_length_le hbuf.le, List.append_nil]
  rw [hread, LastChunkFits, LastChunkFits, ← Nat.mod_eq_sub_mod hge, drop_slice, isAllZero_slice]
  refine or_congr_right ?_
  rcases Nat.lt_or_ge (remainingLb - p.bulkLb) p.bulkLb with hlt | hge'
  -- The stale blocks and those read last are together the last `bulkLb` ones.
  · constructor
    · rintro (⟨-, h⟩ | ⟨h, -⟩)
      · exact .inr ⟨hlt, fun a ha => h a (by omega), fun a ha ha' => h a (by omega) (by omega)⟩
      · omega
    · rintro (⟨h, -⟩ | ⟨-, h, h'⟩)
      · omega
      · refine .inl ⟨hge, fun a ha ha' => ?_⟩
        by_cases hin : p.sizeLb - (remainingLb - p.bulkLb) ≤ a
        · exact h a hin ha'
        · exact h' a (by omega) (by omega)
  · constructor
    · rintro (⟨-, h⟩ | ⟨h, -⟩)
      · exact .inl ⟨hge', h⟩
      · omega
    · rintro (⟨-, h⟩ | ⟨h, -⟩)
      · exact .inl ⟨hge, h⟩
      · omega

section Turn

variable [DecidableEq β]

theorem InStep.receive (hC : C.Lawful) (h : InStep zero p q img dev remainingLb buf s)
    (hrem : 0 < remainingLb)
    (hfit : p.bulkLb ≤ remainingLb ∨ isAllZero zero (readInto img s.progressLb
      (p.chunkLb remainingLb) buf)) :
    ∃ s', s.receive C zero p q (encode C zero (readInto img s.progressLb (p.chunkLb remainingLb)
      buf)) = .ok s' ∧
      InStep zero p q img dev (remainingLb - p.chunkLb remainingLb)
        (readInto img s.progressLb (p.chunkLb remainingLb) buf) s' := by
  rw [Server.receive, h.remaining]
  generalize hlb : p.chunkLb remainingLb = lb at *
  generalize hbuf' : readInto img s.progressLb lb buf = buf' at *
  by_cases hz : isAllZero zero buf'
  · have hslice : slice img s.progressLb lb = List.replicate lb zero := slice_eq_replicate (hbuf' ▸ hz)
    rw [encode, if_pos hz, Server.chunk]
    refine ⟨_, rfl, hbuf' ▸ h.advance hrem hlb.symm (fun hn => ?_) (fun l hl => ?_)⟩
    · refine ⟨?_, hslice⟩
      by_contra hs
      rw [if_neg hs] at hn
      cases hn
    · split_ifs at hl
      cases hl
      exact hslice.symm
  · have hge := hfit.resolve_right hz
    have hlb' : lb = p.bulkLb := by rw [← hlb, p.chunkLb_eq, min_eq_left hge]
    have hslice : buf' = slice img s.progressLb lb := by
      rw [← hbuf', readInto, List.drop_of_length_le (by rw [h.length_buf, hlb']), List.append_nil]
    have hne : buf' ≠ [] := by
      rintro rfl
      exact hz (fun b hb => by cases hb)
    have hlen : buf'.length = lb := by rw [hslice, length_slice]
    obtain ⟨c, cs, hcs⟩ := List.exists_cons_of_ne_nil (hC.compress_ne_nil buf' hne)
    have hun : uncompressSnappy C (c :: cs) lb = .ok buf' := by
      rw [uncompressSnappy, ← hcs, hC.uncompress_compress buf' hne]
      simp [hlen]
    rw [encode, if_neg hz, hcs, Server.chunk, hun]
    refine ⟨_, rfl, hbuf' ▸ h.advance hrem hlb.symm (fun hn => by cases hn) (fun l hl => ?_)⟩
    cases hl
    exact hbuf'.trans hslice

/-- Otherwise the server is handed the whole buffer for a shorter destination. -/
theorem InStep.receive_error (hC : C.Lawful) (h : InStep zero p q img dev remainingLb buf s)
    (hlt : remainingLb < p.bulkLb)
    (hz : ¬isAllZero zero (readInto img s.progressLb (p.chunkLb remainingLb) buf)) :
    s.receive C zero p q (encode C zero (readInto img s.progressLb (p.chunkLb remainingLb) buf)) =
      .error "dirtyFullSyncServer:snappy_uncompress failed" := by
  have hlb : p.chunkLb remainingLb = remainingLb := by rw [p.chunkLb_eq, min_eq_right hlt.le]
  rw [Server.receive, h.remaining, hlb]
  rw [hlb] at hz
  generalize hbuf' : readInto img s.progressLb remainingLb buf = buf' at *
  have hlen : buf'.length = p.bulkLb := by
    rw [← hbuf', length_readInto (by rw [h.length_buf]; exact hlt.le), h.length_buf]
  have hne : buf' ≠ [] := by
    rintro rfl
    exact hz (fun b hb => by cases hb)
  obtain ⟨c, cs, hcs⟩ := List.exists_cons_of_ne_nil (hC.compress_ne_nil buf' hne)
  have hun : uncompressSnappy C (c :: cs) remainingLb =
      .error "dirtyFullSyncServer:snappy_uncompress failed" := by
    rw [uncompressSnappy, ← hcs, hC.uncompress_compress buf' hne]
    simp [hlen, hlt]
  rw [encode, if_neg hz, hcs, Server.chunk, hun]
  rfl

theorem InStep.received (hC : C.Lawful) (h : InStep zero p q img dev remainingLb buf s)
    (hrem : 0 < remainingLb)
    {s' : Server β}
    (hs : s.receive C zero p q (encode C zero (readInto img s.progressLb (p.chunkLb remainingLb)
      buf)) = .ok s') :
    InStep zero p q img dev (remainingLb - p.chunkLb remainingLb)
      (readInto img s.progressLb (p.chunkLb remainingLb) buf) s' := by
  by_cases hfit : p.bulkLb ≤ remainingLb ∨ isAllZero zero
    (readInto img s.progressLb (p.chunkLb remainingLb) buf)
  · obtain ⟨t, hrecv, hin⟩ := h.receive hC hrem hfit
    rw [hrecv] at hs
    cases hs
    exact hin
  · obtain ⟨hlt, hz⟩ := not_or.1 hfit
    rw [h.receive_error hC (not_le.1 hlt) hz] at hs
    cases hs

theorem InStep.turn (hC : C.Lawful) (h : InStep zero p q img dev remainingLb buf s)
    (hrem : 0 < remainingLb)
    {s' : Server β}
    (ht : s.turn C zero p q (encode C zero (readInto img s.progressLb (p.chunkLb remainingLb)
      buf)) = .ok s') :
    InStep zero p q img dev (remainingLb - p.chunkLb remainingLb)
      (readInto img s.progressLb (p.chunkLb remainingLb) buf) s' := by
  rw [Server.turn] at ht
  cases hrecv : s.receive C zero p q (encode C zero (readInto img s.progressLb
    (p.chunkLb remainingLb) buf)) with
  | error e =>
      rw [hrecv] at ht
      cases ht
  | ok t =>
      rw [hrecv] at ht
      cases ht
      exact (h.received hC hrem hrecv).fsyncIfNecessary

theorem clientLoop_of_pos (hrem : 0 < remainingLb) :
    clientLoop C zero p img buf remainingLb =
      encode C zero (readInto img (p.sizeLb - remainingLb) (p.chunkLb remainingLb) buf) ::
        clientLoop C zero p img (readInto img (p.sizeLb - remainingLb) (p.chunkLb remainingLb) buf)
          (remainingLb - p.chunkLb remainingLb) := by
  rw [clientLoop, if_pos hrem]

theorem InStep.clientLoop_eq (h : InStep zero p q img dev remainingLb buf s) (hrem : 0 < remainingLb) :
    clientLoop C zero p img buf remainingLb =
      encode C zero (readInto img s.progressLb (p.chunkLb remainingLb) buf) ::
        clientLoop C zero p img (readInto img s.progressLb (p.chunkLb remainingLb) buf)
          (remainingLb - p.chunkLb remainingLb) := by
  rw [clientLoop_of_pos hrem, h.progress]

theorem clientLoop_zero : clientLoop C zero p img buf 0 = ([] : List (List ω)) := by
  rw [clientLoop, if_neg (lt_irrefl 0)]

/-- Both loops stay in step as long as the server accepts what it reads. -/
theorem Server.Reaches.inStep (hC : C.Lawful) {t : Server β} {msgs rest : List (List ω)}
    (hr : Server.Reaches C zero p q s msgs t rest) (h : InStep zero p q img dev remainingLb buf s)
    (hm : msgs = clientLoop C zero p img buf remainingLb) :
    ∃ remainingLb' buf', InStep zero p q img dev remainingLb' buf' t ∧
      rest = clientLoop C zero p img buf' remainingLb' := by
  induction hr generalizing remainingLb buf with
  | refl s msgs => exact ⟨remainingLb, buf, h, hm⟩
  | turn hrem ht _ ih =>
      rw [h.remaining] at hrem
      rw [h.clientLoop_eq hrem] at hm
      cases hm
      exact ih (h.turn hC hrem ht) rfl

theorem InStep.reaches_end (hC : C.Lawful) (h : InStep zero p q img dev remainingLb buf s)
    (hfit : LastChunkFits zero p img remainingLb buf) :
    ∃ buf' t, Server.Reaches C zero p q s (clientLoop C zero p img buf remainingLb) t [] ∧
      InStep zero p q img dev 0 buf' t := by
  induction remainingLb using Nat.strong_induction_on generalizing buf s with
  | _ remainingLb ih =>
    rcases Nat.eq_zero_or_pos remainingLb with rfl | hrem
    · refine ⟨buf, s, ?_, h⟩
      rw [clientLoop_zero]
      exact .refl s []
    have hle := h.remaining_le
    have hlt : remainingLb - p.chunkLb remainingLb < remainingLb := Nat.sub_lt hrem (p.chunkLb_pos hrem)
    have hnext : (p.bulkLb ≤ remainingLb ∨
          isAllZero zero (readInto img s.progressLb (p.chunkLb remainingLb) buf)) ∧
        LastChunkFits zero p img (remainingLb - p.chunkLb remainingLb)
          (readInto img s.progressLb (p.chunkLb remainingLb) buf) := by
      rw [h.progress, p.chunkLb_eq]
      rcases Nat.lt_or_ge remainingLb p.bulkLb with hlt | hge
      · rw [min_eq_right hlt.le, Nat.sub_self]
        exact ⟨.inr ((lastChunkFits_short hrem hlt (by omega)).1 hfit), .inl (Nat.zero_mod _)⟩
      · rw [min_eq_left hge]
        exact ⟨.inl hge, (lastChunkFits_full hge (by omega) h.length_buf).1 hfit⟩
    obtain ⟨s', hrecv, hin⟩ := h.receive hC hrem hnext.1
    obtain ⟨buf', t, hr, ht⟩ := ih _ hlt hin.fsyncIfNecessary hnext.2
    rw [h.clientLoop_eq hrem]
    refine ⟨buf', t, .turn (h.remaining.symm ▸ hrem) ?_ hr, ht⟩
    rw [Server.turn, hrecv]
    rfl

theorem InStep.loop_error (hC : C.Lawful) (h : InStep zero p q img dev remainingLb buf s)
    (hfit : ¬LastChunkFits zero p img remainingLb buf) :
    s.loop C zero p q (clientLoop C zero p img buf remainingLb) =
      .error "dirtyFullSyncServer:snappy_uncompress failed" := by
  induction remainingLb using Nat.strong_induction_on generalizing buf s with
  | _ remainingLb ih =>
    rcases Nat.eq_zero_or_pos remainingLb with rfl | hrem
    · exact absurd (.inl (Nat.zero_mod _)) hfit
    have hle := h.remaining_le
    rw [h.clientLoop_eq hrem, Server.loop, if_pos (h.remaining.symm ▸ hrem), Server.turn]
    rcases Nat.lt_or_ge remainingLb p.bulkLb with hlt | hge
    · rw [lastChunkFits_short hrem hlt (by omega), ← h.progress] at hfit
      rw [h.receive_error hC hlt (by rwa [p.chunkLb_eq, min_eq_right hlt.le])]
      rfl
    · obtain ⟨s', hrecv, hin⟩ := h.receive hC hrem (.inl hge)
      rw [hrecv]
      refine ih _ (Nat.sub_lt hrem (p.chunkLb_pos hrem)) hin.fsyncIfNecessary ?_
      rw [p.chunkLb_eq, min_eq_left hge, h.progress]
      exact mt (lastChunkFits_full hge (by omega) h.length_buf).2 hfit

/-- A sync that the server has completed, whatever the last chunk was. -/
theorem now_of_dirtyFullSyncServer (hC : C.Lawful) (hbuf : buf.length = p.bulkLb)
    (hskip : q.skipZero = true → ∀ a, p.startLb ≤ a → a < p.sizeLb → dev.now a = zero)
    {r : Server β × List (List ω)}
    (hr : dirtyFullSyncServer C zero p q dev (dirtyFullSyncClient C zero p img buf) = .ok r) (a : Nat) :
    r.1.blocks.now a = if p.startLb ≤ a ∧ a < p.sizeLb then img a else dev.now a := by
  obtain ⟨t, hreach, hz, he⟩ := Server.reaches_of_loop hr
  obtain ⟨remainingLb, buf', ht, -⟩ := hreach.inStep hC (inStep_start hbuf hskip) rfl
  have hprog := ht.progress
  have hrem := ht.remaining
  rw [he]
  change t.blocks.now a = _
  split_ifs with ha
  · exact ht.copied a ha.1 (by omega)
  · exact ht.outside a (by omega)

/-- Client and server run to completion without an error, no message is left
over, and the device is that of the client on the range and as before outside. -/
def Copies (C : Snappy β ω) (zero : β) (p : Args) (q : ServerArgs) (img : Nat → β) (buf : List β)
    (dev : Store Nat β) : Prop :=
  ∃ s, dirtyFullSyncServer C zero p q dev (dirtyFullSyncClient C zero p img buf) = .ok (s, []) ∧
    ∀ a, s.blocks.now a = if p.startLb ≤ a ∧ a < p.sizeLb then img a else dev.now a

/-- Full sync copies the image exactly when its last chunk fits. The server that
skips zeros relies on a device which reads zero. -/
theorem copies_iff_lastChunkFits (hC : C.Lawful) (hbuf : buf.length = p.bulkLb)
    (hskip : q.skipZero = true → ∀ a, p.startLb ≤ a → a < p.sizeLb → dev.now a = zero) :
    Copies C zero p q img buf dev ↔ LastChunkFits zero p img (p.sizeLb - p.startLb) buf := by
  have h : InStep zero p q img dev (p.sizeLb - p.startLb) buf (Server.start p dev) :=
    inStep_start hbuf hskip
  constructor
  · rintro ⟨s, hs, -⟩
    by_contra hfit
    rw [dirtyFullSyncServer, dirtyFullSyncClient, h.loop_error hC hfit] at hs
    cases hs
  · intro hfit
    obtain ⟨buf', t, hr, ht⟩ := h.reaches_end hC hfit
    have hok : dirtyFullSyncServer C zero p q dev (dirtyFullSyncClient C zero p img buf) =
        .ok ({ t with blocks := t.blocks.flush }, []) := by
      rw [dirtyFullSyncServer, dirtyFullSyncClient, hr.loop_eq, Server.loop, ht.remaining]
      rfl
    exact ⟨_, hok, now_of_dirtyFullSyncServer hC hbuf hskip hok⟩

end Turn

/-- Data that does not compress: its length and a literal. -/
def literal : Snappy Nat Nat where
  compress b := b.length :: b
  uncompress
    | [] => none
    | n :: b => if b.length = n then some b else none

theorem literal_lawful : literal.Lawful where
  compress_ne_nil _ _ := List.cons_ne_nil _ _
  uncompress_compress _ _ := if_pos rfl

theorem copies_iff_lastChunkFits_even :
    Copies literal 0 ⟨1, 5, 2, by decide, by decide, by decide⟩ ⟨true, 1024, false⟩
      (fun a => a % 3) [8, 9]
      (.settled fun _ => 0) :=
  (copies_iff_lastChunkFits literal_lawful rfl fun _ _ _ _ => rfl).2 (.inl rfl)

/-- Three blocks that are not zero, sent two at a time. -/
theorem short_chunk_rejected :
    dirtyFullSyncServer literal 0 ⟨0, 3, 2, by decide, by decide, by decide⟩ ⟨false, 1024, false⟩
        (.settled fun _ => 0)
        (dirtyFullSyncClient literal 0 ⟨0, 3, 2, by decide, by decide, by decide⟩
          (fun a => a + 1) [0, 0]) =
      .error "dirtyFullSyncServer:snappy_uncompress failed" := by
  refine (inStep_start rfl fun _ _ _ _ => rfl).loop_error literal_lawful ?_
  rintro (h | ⟨-, h⟩ | ⟨h, -⟩)
  · exact absurd h (by decide)
  · exact absurd (h 2 (by decide) (by decide)) (by decide)
  · exact absurd h (by decide)

end WalbTools.DirtyFullSync
