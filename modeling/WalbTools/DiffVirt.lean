import WalbTools.DiffIssue

namespace WalbTools.DiffVirt

open Overlay DiffIo DiffIo.DiffRecIo DiffMem DiffMerge DiffPack DiffIssue
open DirtyHashSync (zeroBlock value)

structure Base where
  sizeLb : Nat
  image : Nat → LogicalBlock
  tail : Nat
  seekable : Bool

structure VirtualFullScanner where
  pos : Nat
  merger : DiffMerger LogicalBlock
  addr : Nat
  recIo : DiffRecIo LogicalBlock
  offInIo : Nat
  isEndDiff : Bool
  emptyWdiff : Bool

namespace VirtualFullScanner

def noRecIo : DiffRecIo LogicalBlock := ⟨⟨0, 0, 0, .normal⟩, []⟩

def init (wdiffs : List (List (DiffRecIo LogicalBlock))) : Except String VirtualFullScanner :=
  if wdiffs = [] then .ok ⟨0, ⟨[], .init 0, [], 0, DEFAULT_MERGE_BUFFER_LB⟩, 0, noRecIo, 0, false, true⟩
  else
    match DiffMerger.prepare wdiffs DEFAULT_MERGE_BUFFER_LB DEFAULT_MAX_IO_LB with
    | .error e => .error e
    | .ok m => .ok ⟨0, m, 0, noRecIo, 0, false, false⟩

def currentDiffAddr (s : VirtualFullScanner) : Nat := s.recIo.record.ioAddress + s.offInIo

def currentDiffBlocks (s : VirtualFullScanner) : Nat := s.recIo.record.ioBlocks - s.offInIo

def fillDiffIo (fuel : Nat) (s : VirtualFullScanner) : Except String VirtualFullScanner :=
  if s.emptyWdiff || s.isEndDiff then .ok s
  else if s.offInIo = s.recIo.record.ioBlocks then
    match s.merger.getAndRemove fuel with
    | .error e => .error e
    | .ok none => .ok { s with offInIo := 0, isEndDiff := true, recIo := noRecIo }
    | .ok (some (r, m)) => .ok { s with offInIo := 0, merger := m, recIo := r }
  else .ok s

section

variable (b : Base)

def readBase (s : VirtualFullScanner) (blks : Nat) :
    Except String (List LogicalBlock × VirtualFullScanner) :=
  let readLb := min blks (b.sizeLb - s.pos)
  if readLb < blks ∧ b.tail ≠ 0 then .error "input data is not a multiples of LOGICAL_BLOCK_SIZE."
  else .ok (slice b.image s.pos readLb, { s with pos := s.pos + readLb, addr := s.addr + readLb })

def skipBase (s : VirtualFullScanner) (blks : Nat) : Except String VirtualFullScanner :=
  if b.seekable ∨ s.pos + blks ≤ b.sizeLb then .ok { s with pos := s.pos + blks } else .error "EofError"

def readWdiff (s : VirtualFullScanner) (blks : Nat) :
    Except String (List LogicalBlock × VirtualFullScanner) :=
  if s.recIo.record.ioBlocks ≤ s.offInIo then .error "offInIo_ < rec.io_blocks"
  else
    let data := if s.recIo.record.isNormal then (s.recIo.io.drop s.offInIo).take blks
      else List.replicate blks zeroBlock
    match skipBase b { s with offInIo := s.offInIo + blks } blks with
    | .error e => .error e
    | .ok s => .ok (data, { s with addr := s.addr + blks })

/-- A read of `size` bytes; the number of blocks is an `uint32_t`. -/
def readSome (fuel size : Nat) (s : VirtualFullScanner) :
    Except String (List LogicalBlock × VirtualFullScanner) :=
  let blks := size / lbs % 2 ^ 32
  match fillDiffIo fuel s with
  | .error e => .error e
  | .ok s =>
      if s.emptyWdiff || s.isEndDiff then readBase b s blks
      else if s.currentDiffAddr < s.addr then .error "addr_ <= diffAddr"
      else if s.addr = s.currentDiffAddr then readWdiff b s (min blks s.currentDiffBlocks)
      else readBase b s (if s.currentDiffAddr - s.addr < blks then s.currentDiffAddr - s.addr else blks)

def readSomes (fuel : Nat) : List Nat → VirtualFullScanner →
    Except String (List LogicalBlock × VirtualFullScanner)
  | [], s => .ok ([], s)
  | size :: sizes, s =>
      match readSome b fuel size s with
      | .error e => .error e
      | .ok (data, s) =>
          match readSomes fuel sizes s with
          | .error e => .error e
          | .ok (rest, s) => .ok (data ++ rest, s)

def readLoop (fuel : Nat) : Nat → Nat → VirtualFullScanner →
    Except String (List LogicalBlock × VirtualFullScanner)
  | 0, size, s => if size = 0 then .ok ([], s) else .error "out of fuel"
  | n + 1, size, s =>
      if size = 0 then .ok ([], s)
      else
        match readSome b fuel size s with
        | .error e => .error e
        | .ok (data, s) =>
            if data = [] then .error "EofError"
            else
              match readLoop fuel n (size - data.length * lbs) s with
              | .error e => .error e
              | .ok (rest, s) => .ok (data ++ rest, s)

def read (fuel size : Nat) (s : VirtualFullScanner) :
    Except String (List LogicalBlock × VirtualFullScanner) :=
  readLoop b fuel size size s

def writeLoop (fuel bufSize : Nat) : Nat → VirtualFullScanner → Except String (List LogicalBlock)
  | 0, _ => .error "out of fuel"
  | n + 1, s =>
      match readSome b fuel bufSize s with
      | .error e => .error e
      | .ok (data, s) =>
          if data = [] then .ok []
          else
            match writeLoop fuel bufSize n s with
            | .error e => .error e
            | .ok rest => .ok (data ++ rest)

def readAndWriteTo (fuel bufSize : Nat) (s : VirtualFullScanner) : Except String (List LogicalBlock) :=
  writeLoop b fuel bufSize (b.sizeLb + 1) s

end

end VirtualFullScanner

open VirtualFullScanner

variable {b : Base} {fuel : Nat} {s : VirtualFullScanner} {l : List (DiffRecIo LogicalBlock)}
  {r : DiffRecIo LogicalBlock}
variable {v : Nat → LogicalBlock} {a : Nat}

/-- Where the scanner stands in the records `l` that it has not read to their end. -/
inductive Stands (fuel : Nat) (s : VirtualFullScanner) : List (DiffRecIo LogicalBlock) → Prop where
  | ended : (s.emptyWdiff || s.isEndDiff) = true → Stands fuel s []
  | between {l : List (DiffRecIo LogicalBlock)} : (s.emptyWdiff || s.isEndDiff) = false →
      s.offInIo = s.recIo.record.ioBlocks → s.merger.getAll fuel = .ok l →
      (∀ r, r ∈ l → s.addr ≤ r.record.ioAddress) → Stands fuel s l
  | inside {l : List (DiffRecIo LogicalBlock)} : (s.emptyWdiff || s.isEndDiff) = false →
      s.offInIo < s.recIo.record.ioBlocks → s.merger.getAll fuel = .ok l → s.addr ≤ s.currentDiffAddr →
      (0 < s.offInIo → s.addr = s.currentDiffAddr) → Stands fuel s (s.recIo :: l)

structure Inv (b : Base) (fuel : Nat) (v : Nat → LogicalBlock) (l : List (DiffRecIo LogicalBlock))
    (s : VirtualFullScanner) : Prop where
  pos : s.pos = s.addr
  addr_le : s.addr ≤ b.sizeLb
  wf : WF l
  end_le : ∀ r, r ∈ l → r.record.endIoAddress ≤ b.sizeLb
  image : ∀ a, s.addr ≤ a → overlaid l b.image a = v a
  stands : Stands fuel s l

theorem content_eq_none_of_lt (h : ∀ r, r ∈ l → a < r.record.ioAddress) : content l a = none := by
  apply overlay_eq_none_iff.2
  intro f hf
  obtain ⟨r, hr, rfl⟩ := List.mem_map.1 hf
  exact if_neg fun hc => absurd hc.1 (not_le.2 (h r hr))

theorem overlaid_of_lt (h : ∀ r, r ∈ l → a < r.record.ioAddress) (img : Nat → LogicalBlock) :
    overlaid l img a = img a :=
  write_of_none (mapVal_eq_none_iff.2 (content_eq_none_of_lt h))

theorem overlaid_of_ge (h : r.record.endIoAddress ≤ a) (img : Nat → LogicalBlock) :
    overlaid (r :: l) img a = overlaid l img a := by
  have hnone : r.cell a = none := if_neg fun hc => absurd hc.2 (not_lt.2 h)
  rw [overlaid, overlaid, write, write, mapVal, mapVal, content_cons, cover, hnone, Option.or_none]

theorem overlaid_of_covers (h : WF (r :: l)) (ha : r.record.Covers a) (img : Nat → LogicalBlock) :
    some (overlaid (r :: l) img a) = (r.cell a).map value := by
  have hnone : content l a = none := by
    apply content_eq_none_of_lt
    intro q hq
    exact ha.2.trans_le ((List.pairwise_cons.1 h.pairwise).1 q hq)
  rw [overlaid, write, mapVal, content_cons, cover, hnone, Option.none_or]
  cases hc : r.cell a with
  | none => exact absurd hc (by rw [(h.valid r List.mem_cons_self).cell_eq_none_iff]; exact not_not.2 ha)
  | some c => rfl

theorem wdiff_data (h : WF (r :: l)) {off k : Nat} (hk : off + k ≤ r.record.ioBlocks)
    (img : Nat → LogicalBlock) :
    (if r.record.isNormal then (r.io.drop off).take k else List.replicate k zeroBlock) =
      slice (overlaid (r :: l) img) (r.record.ioAddress + off) k := by
  have hv := h.valid r List.mem_cons_self
  have hcov : ∀ i, i < k → r.record.Covers (r.record.ioAddress + off + i) := by
    intro i hi
    constructor
    · omega
    · rw [DiffRecord.endIoAddress]
      omega
  apply List.ext_getElem?
  intro i
  by_cases hi : i < k
  · rw [getElem?_slice hi, overlaid_of_covers h (hcov i hi), cell, if_pos (hcov i hi),
      Nat.add_assoc, Nat.add_sub_cancel_left]
    by_cases hn : r.record.isNormal = true
    · rw [if_pos hn, isNormal_iff.1 hn, List.getElem?_take_of_lt hi, List.getElem?_drop, Option.map_map]
      exact (congrFun Option.map_id _).symm
    · rw [if_neg hn, List.getElem?_replicate_of_lt hi]
      rw [isNormal_iff] at hn
      cases ht : r.record.type with
      | normal => exact absurd ht hn
      | discard => rfl
      | allZero => rfl
  · have hlen : ∀ m : List LogicalBlock, m.length = k → m[i]? = none := by
      intro m hm
      exact List.getElem?_eq_none_iff.2 (by omega)
    rw [hlen _ length_slice, hlen]
    split_ifs with hn
    · rw [List.length_take, List.length_drop, hv.io_length (isNormal_iff.1 hn)]
      omega
    · exact List.length_replicate

theorem Inv.fillDiffIo (h : Inv b fuel v l s) :
    ∃ s', s.fillDiffIo fuel = .ok s' ∧ Inv b fuel v l s' ∧ s'.addr = s.addr ∧
      ((s'.emptyWdiff || s'.isEndDiff) = false → s'.offInIo ≠ s'.recIo.record.ioBlocks) := by
  rw [VirtualFullScanner.fillDiffIo]
  have hstands := h.stands
  cases hstands with
  | ended he =>
      rw [if_pos he]
      exact ⟨s, rfl, h, rfl, fun hf => by rw [hf] at he; cases he⟩
  | inside hf hoff hget haddr hin =>
      rw [if_neg (by rw [hf]; decide), if_neg hoff.ne]
      exact ⟨s, rfl, h, rfl, fun _ => hoff.ne⟩
  | between hf hoff hget haddr =>
      rw [if_neg (by rw [hf]; decide), if_pos hoff]
      cases l with
      | nil =>
          rw [DiffMerger.getAndRemove_nil hget]
          refine ⟨_, rfl, ⟨h.pos, h.addr_le, h.wf, h.end_le, h.image, .ended ?_⟩, rfl, ?_⟩
          · exact Bool.or_true _
          · intro hf'
            rw [Bool.or_true] at hf'
            cases hf'
      | cons r l =>
          obtain ⟨m, hnext, hrest⟩ := DiffMerger.getAndRemove_cons hget
          have hpos := (h.wf.valid r List.mem_cons_self).pos
          rw [hnext]
          refine ⟨_, rfl, ⟨h.pos, h.addr_le, h.wf, h.end_le, h.image, .inside hf hpos hrest ?_ ?_⟩,
            rfl, fun _ => hpos.ne⟩
          · exact haddr r List.mem_cons_self
          · exact fun hlt => absurd hlt (Nat.lt_irrefl 0)

theorem Inv.readBase (h : Inv b fuel v l s) (ht : b.tail = 0) (blks : Nat)
    (hblks : ∀ r, r ∈ l → s.addr + blks ≤ r.record.ioAddress)
    (hstands : ∀ n, n ≤ blks → s.addr + n ≤ b.sizeLb →
      Stands fuel { s with pos := s.pos + n, addr := s.addr + n } l) :
    ∃ data s', VirtualFullScanner.readBase b s blks = .ok (data, s') ∧ Inv b fuel v l s' ∧
      data = slice v s.addr data.length ∧ s'.addr = s.addr + data.length ∧
      data.length = min blks (b.sizeLb - s.addr) := by
  have hle := h.addr_le
  have hpos := h.pos
  rw [VirtualFullScanner.readBase, if_neg fun hn => hn.2 ht]
  refine ⟨_, _, rfl, ?_, ?_, ?_, ?_⟩
  · exact {
      pos := congrArg (· + _) hpos
      addr_le := by
        dsimp only
        omega
      wf := h.wf
      end_le := h.end_le
      image := fun a ha => h.image a ((Nat.le_add_right _ _).trans ha)
      stands := hstands _ (Nat.min_le_left _ _) (by omega) }
  · rw [length_slice, hpos]
    apply List.map_congr_left
    intro k hk
    rw [List.mem_range] at hk
    rw [← h.image _ (Nat.le_add_right _ _)]
    apply (overlaid_of_lt _ _).symm
    intro r hr
    have hr := hblks r hr
    omega
  · rw [length_slice]
  · rw [length_slice, hpos]

def skipped (s : VirtualFullScanner) (blks : Nat) : VirtualFullScanner :=
  { s with offInIo := s.offInIo + blks, pos := s.pos + blks, addr := s.addr + blks }

theorem Inv.readWdiff (h : Inv b fuel v (s.recIo :: l) s) (hf : (s.emptyWdiff || s.isEndDiff) = false)
    (hget : s.merger.getAll fuel = .ok l) (haddr : s.addr = s.currentDiffAddr) {blks : Nat}
    (hoff : s.offInIo < s.recIo.record.ioBlocks) (hblks : s.offInIo + blks ≤ s.recIo.record.ioBlocks) :
    ∃ data s' l', VirtualFullScanner.readWdiff b s blks = .ok (data, s') ∧ Inv b fuel v l' s' ∧
      data = slice v s.addr data.length ∧ s'.addr = s.addr + data.length ∧ data.length = blks := by
  have hend := h.end_le s.recIo List.mem_cons_self
  have hadd : s.addr = s.recIo.record.ioAddress + s.offInIo := haddr
  have hdata : (if s.recIo.record.isNormal then (s.recIo.io.drop s.offInIo).take blks
      else List.replicate blks zeroBlock) = slice v s.addr blks := by
    rw [wdiff_data h.wf hblks b.image, ← hadd]
    apply List.map_congr_left
    intro k _
    exact h.image _ (Nat.le_add_right _ _)
  have hskip : s.pos + blks ≤ b.sizeLb := by
    have hpos := h.pos
    rw [DiffRecord.endIoAddress] at hend
    omega
  rw [VirtualFullScanner.readWdiff, if_neg (not_le.2 hoff)]
  dsimp only
  rw [skipBase, if_pos (.inr hskip), hdata]
  have hbase : ∀ l', WF l' → (∀ r, r ∈ l' → r ∈ s.recIo :: l) →
      (∀ a, s.addr + blks ≤ a → overlaid l' b.image a = overlaid (s.recIo :: l) b.image a) →
      Stands fuel (skipped s blks) l' → Inv b fuel v l' (skipped s blks) := by
    intro l' hwf hmem himg hst
    exact {
      pos := congrArg (· + blks) h.pos
      addr_le := by
        rw [skipped, ← h.pos]
        exact hskip
      wf := hwf
      end_le := fun r hr => h.end_le r (hmem r hr)
      image := fun a ha => (himg a ha).trans (h.image a ((Nat.le_add_right _ _).trans ha))
      stands := hst }
  rcases hblks.lt_or_eq with hlt | heq
  · refine ⟨_, skipped s blks, s.recIo :: l, rfl, hbase _ h.wf (fun _ hr => hr) (fun _ _ => rfl) ?_,
      ?_, ?_, length_slice⟩
    · apply Stands.inside (s := skipped s blks) hf hlt hget
      · exact (Nat.add_le_add_right haddr.le blks).trans_eq (Nat.add_assoc _ _ _)
      · exact fun _ => (congrArg (· + blks) haddr).trans (Nat.add_assoc _ _ _)
    · rw [length_slice]
    · rw [length_slice]
      rfl
  · -- the IO has come to its end
    refine ⟨_, skipped s blks, l, rfl, hbase l (h.wf.sublist (List.sublist_cons_self _ _))
      (fun _ hr => List.mem_cons_of_mem _ hr) (fun a ha => (overlaid_of_ge ?_ _).symm) ?_, ?_, ?_,
        length_slice⟩
    · rw [DiffRecord.endIoAddress]
      omega
    · apply Stands.between (s := skipped s blks) hf heq hget
      intro r hr
      have hbefore : s.recIo.record.ioAddress + s.recIo.record.ioBlocks ≤ r.record.ioAddress :=
        (List.pairwise_cons.1 h.wf.pairwise).1 r hr
      dsimp only [skipped]
      omega
    · rw [length_slice]
    · rw [length_slice, skipped]

/-- A read returns what comes next, and makes progress until the end. -/
theorem Inv.readSome (h : Inv b fuel v l s) (ht : b.tail = 0) (size : Nat) :
    ∃ data s' l', VirtualFullScanner.readSome b fuel size s = .ok (data, s') ∧ Inv b fuel v l' s' ∧
      data = slice v s.addr data.length ∧ s'.addr = s.addr + data.length ∧
      data.length ≤ size / lbs % 2 ^ 32 ∧
      (0 < size / lbs % 2 ^ 32 → s.addr < b.sizeLb → 0 < data.length) := by
  obtain ⟨s₁, hfill, h₁, haddr, hne⟩ := h.fillDiffIo
  rw [VirtualFullScanner.readSome, hfill]
  dsimp only
  generalize size / lbs % 2 ^ 32 = blks
  rw [← haddr]
  have hle := h₁.addr_le
  have hstands := h₁.stands
  cases hstands with
  | ended he =>
      rw [if_pos he]
      obtain ⟨data, s', hread, h', hdata, hnext, hlen⟩ := h₁.readBase ht blks
        (fun r hr => absurd hr List.not_mem_nil) (fun n _ _ => .ended he)
      exact ⟨data, s', _, hread, h', hdata, hnext, by omega, by omega⟩
  | between hf hoff _ _ => exact absurd hoff (hne hf)
  | @inside l hf hoff hget hge hin =>
      rw [if_neg (by rw [hf]; decide), if_neg (not_lt.2 hge)]
      by_cases heq : s₁.addr = s₁.currentDiffAddr
      · have hmin : s₁.offInIo + min blks s₁.currentDiffBlocks ≤ s₁.recIo.record.ioBlocks := by
          rw [currentDiffBlocks]
          omega
        rw [if_pos heq]
        obtain ⟨data, s', l', hread, h', hdata, hnext, hlen⟩ := h₁.readWdiff hf hget heq hoff hmin
        rw [currentDiffBlocks] at hlen
        exact ⟨data, s', l', hread, h', hdata, hnext, by omega, by omega⟩
      · -- a gap before the IO, of which nothing has been read
        have hoff0 : s₁.offInIo = 0 := by
          by_contra hn
          exact heq (hin (Nat.pos_of_ne_zero hn))
        have hcur : s₁.currentDiffAddr = s₁.recIo.record.ioAddress := by
          rw [currentDiffAddr, hoff0, Nat.add_zero]
        have hend := h₁.end_le s₁.recIo List.mem_cons_self
        rw [DiffRecord.endIoAddress] at hend
        rw [if_neg heq, hcur]
        rw [hcur] at hge heq
        obtain ⟨data, s', hread, h', hdata, hnext, hlen⟩ := h₁.readBase ht
          (if s₁.recIo.record.ioAddress - s₁.addr < blks then s₁.recIo.record.ioAddress - s₁.addr
            else blks)
          (fun r hr => by
            have hr : s₁.recIo.record.ioAddress ≤ r.record.ioAddress := WF.head_le h₁.wf hr
            split_ifs <;> omega)
          (fun n hn _ => by
            apply Stands.inside (s := { s₁ with pos := s₁.pos + n, addr := s₁.addr + n }) hf hoff hget
            · change s₁.addr + n ≤ s₁.currentDiffAddr
              rw [hcur]
              split_ifs at hn <;> omega
            · intro hpos
              exact absurd hpos (by dsimp only; omega))
        refine ⟨data, s', _, hread, h', hdata, hnext, ?_, ?_⟩
        · split_ifs at hlen <;> omega
        · split_ifs at hlen <;> omega

theorem slice_prefix {n m : Nat} {data rest : List LogicalBlock} {addr : Nat}
    (hd : data = slice v addr n)
    (hr : rest = slice v (addr + n) m) : data ++ rest = slice v addr (n + m) := by
  rw [hd, hr, slice_append]

theorem Inv.readSomes (h : Inv b fuel v l s) (ht : b.tail = 0) (sizes : List Nat) :
    ∃ data s' l', VirtualFullScanner.readSomes b fuel sizes s = .ok (data, s') ∧ Inv b fuel v l' s' ∧
      data = slice v s.addr data.length ∧ s'.addr = s.addr + data.length := by
  induction sizes generalizing s l with
  | nil => exact ⟨[], s, l, rfl, h, rfl, rfl⟩
  | cons size sizes ih =>
      obtain ⟨data, s₁, l₁, hread, h₁, hdata, haddr, -⟩ := h.readSome ht size
      obtain ⟨rest, s₂, l₂, hreads, h₂, hrest, haddr'⟩ := ih h₁
      rw [haddr] at hrest
      rw [VirtualFullScanner.readSomes, hread]
      dsimp only
      rw [hreads]
      refine ⟨_, s₂, l₂, rfl, h₂, ?_, ?_⟩
      · rw [List.length_append]
        exact slice_prefix hdata hrest
      · rw [haddr', haddr, List.length_append, Nat.add_assoc]

theorem Inv.readLoop (h : Inv b fuel v l s) (ht : b.tail = 0) {k n : Nat} (hk : k < 2 ^ 32) (hn : k ≤ n)
    (hin : s.addr + k ≤ b.sizeLb) :
    ∃ s' l', VirtualFullScanner.readLoop b fuel n (k * lbs) s = .ok (slice v s.addr k, s') ∧
      Inv b fuel v l' s' ∧
      s'.addr = s.addr + k := by
  induction n generalizing k s l with
  | zero =>
      obtain rfl : k = 0 := Nat.le_zero.1 hn
      exact ⟨s, l, rfl, h, rfl⟩
  | succ n ih =>
      rw [VirtualFullScanner.readLoop]
      rcases Nat.eq_zero_or_pos k with rfl | hpos
      · exact ⟨s, l, if_pos (Nat.zero_mul _), h, rfl⟩
      · have hblks : k * lbs / lbs % 2 ^ 32 = k := by
          rw [Nat.mul_div_cancel _ (by decide), Nat.mod_eq_of_lt hk]
        obtain ⟨data, s₁, l₁, hread, h₁, hdata, haddr, hle, hprog⟩ := h.readSome ht (k * lbs)
        rw [hblks] at hle hprog
        have hlen := hprog hpos (by omega)
        have hsub : k * lbs - data.length * lbs = (k - data.length) * lbs := (Nat.sub_mul _ _ _).symm
        obtain ⟨s₂, l₂, hrest, h₂, haddr'⟩ :=
          ih h₁ (by omega) (by omega) (k := k - data.length) (by omega)
        rw [if_neg (by rw [lbs]; omega), hread]
        dsimp only
        rw [if_neg (List.ne_nil_of_length_pos hlen), hsub, hrest]
        refine ⟨s₂, l₂, ?_, h₂, by omega⟩
        dsimp only
        rw [haddr, slice_prefix hdata rfl, Nat.add_sub_cancel' hle]

theorem Inv.readLoop_eof (h : Inv b fuel v l s) (ht : b.tail = 0) {k n : Nat} (hk : k < 2 ^ 32)
    (hn : k ≤ n)
    (hin : b.sizeLb < s.addr + k) :
    VirtualFullScanner.readLoop b fuel n (k * lbs) s = .error "EofError" := by
  have hle := h.addr_le
  induction n generalizing k s l with
  | zero => omega
  | succ n ih =>
      have hblks : k * lbs / lbs % 2 ^ 32 = k := by
        rw [Nat.mul_div_cancel _ (by decide), Nat.mod_eq_of_lt hk]
      obtain ⟨data, s₁, l₁, hread, h₁, hdata, haddr, hle', hprog⟩ := h.readSome ht (k * lbs)
      rw [hblks] at hle' hprog
      have hle₁ := h₁.addr_le
      have hsub : k * lbs - data.length * lbs = (k - data.length) * lbs := (Nat.sub_mul _ _ _).symm
      rw [VirtualFullScanner.readLoop, if_neg (by rw [lbs]; omega), hread]
      dsimp only
      by_cases hnil : data = []
      · rw [if_pos hnil]
      · have hlen := List.length_pos_iff.2 hnil
        rw [if_neg hnil, hsub, ih h₁ (by omega) (by omega) (by omega) hle₁]

theorem Inv.writeLoop (h : Inv b fuel v l s) (ht : b.tail = 0) {bufSize n : Nat}
    (hbuf : 0 < bufSize / lbs % 2 ^ 32)
    (hn : b.sizeLb - s.addr < n) :
    VirtualFullScanner.writeLoop b fuel bufSize n s = .ok (slice v s.addr (b.sizeLb - s.addr)) := by
  induction n generalizing s l with
  | zero => exact absurd hn (Nat.not_lt_zero _)
  | succ n ih =>
      obtain ⟨data, s₁, l₁, hread, h₁, hdata, haddr, -, hprog⟩ := h.readSome ht bufSize
      have hle₁ := h₁.addr_le
      rw [VirtualFullScanner.writeLoop, hread]
      dsimp only
      by_cases hend : s.addr < b.sizeLb
      · have hlen := hprog hbuf hend
        rw [if_neg (List.ne_nil_of_length_pos hlen), ih h₁ (by omega)]
        dsimp only
        rw [haddr, slice_prefix hdata rfl, show data.length + (b.sizeLb - (s.addr + data.length)) =
          b.sizeLb - s.addr by omega]
      · have hnil : data = [] := List.eq_nil_of_length_eq_zero (by omega)
        rw [if_pos hnil, show b.sizeLb - s.addr = 0 by omega]
        rfl

def merged (fuel : Nat) (wdiffs : List (List (DiffRecIo LogicalBlock))) :
    Except String (List (DiffRecIo LogicalBlock)) :=
  if wdiffs = [] then .ok []
  else
    match DiffMerger.prepare wdiffs DEFAULT_MERGE_BUFFER_LB DEFAULT_MAX_IO_LB with
    | .error e => .error e
    | .ok m => m.getAll fuel

/-- Whatever has been read before in reads of any sizes, it was the image from its
begin, and further reads return what comes next up to its end. -/
def Scans (b : Base) (fuel : Nat) (v : Nat → LogicalBlock) (s : VirtualFullScanner) : Prop :=
  ∀ sizes, ∃ data s', readSomes b fuel sizes s = .ok (data, s') ∧ data = slice v 0 data.length ∧
    data.length ≤ b.sizeLb ∧
    (∀ bufSize, 0 < bufSize / lbs % 2 ^ 32 →
      readAndWriteTo b fuel bufSize s' = .ok (slice v data.length (b.sizeLb - data.length))) ∧
    ∀ k, k < 2 ^ 32 →
      (data.length + k ≤ b.sizeLb → ∃ s'', VirtualFullScanner.read b fuel (k * lbs) s' =
      .ok (slice v data.length k, s'')) ∧
      (b.sizeLb < data.length + k → VirtualFullScanner.read b fuel (k * lbs) s' = .error "EofError")

/-- The scanner and the two ways to apply the records all give the overlaid image
of a volume of `sizeLb` blocks. -/
structure Agrees (fuel sizeLb : Nat) (wdiffs : List (List (DiffRecIo LogicalBlock)))
    (rs : List (DiffRecIo LogicalBlock))
    (img : Nat → LogicalBlock) : Prop where
  scans : ∀ seekable, ∃ s, init wdiffs = .ok s ∧ Scans ⟨sizeLb, img, 0, seekable⟩ fuel
    (overlaid rs img) s
  applies : wdiffs ≠ [] → ∀ issueDiscard stop, ∃ b img',
    applyOpenedDiffs issueDiscard .zero fuel sizeLb stop wdiffs img = .ok (b, img') ∧
      (b = true → img' = overlaid rs img) ∧ ((∀ i, stop i = false) → b = true)
  issues : ∀ issueDiscard C, C.Lawful → ∀ qs : List (Pack × List (DiffRecIo LogicalBlock)),
    (∀ q, q ∈ qs → Holds q.1 q.2) → qs.flatMap Prod.snd = rs →
      issueDiffPacks issueDiscard .zero C (qs.map fun q => PackCompressor.convert C q.1) img =
      .ok (overlaid rs img)

theorem Inv.scans (h : Inv b fuel v l s) (ht : b.tail = 0) (haddr : s.addr = 0) : Scans b fuel v s := by
  intro sizes
  obtain ⟨data, s', l', hreads, h', hdata, haddr'⟩ := h.readSomes ht sizes
  have hle := h'.addr_le
  rw [haddr, Nat.zero_add] at haddr'
  rw [haddr'] at hle
  rw [haddr] at hdata
  refine ⟨data, s', hreads, hdata, hle, fun bufSize hbuf => ?_,
    fun k hk => ⟨fun hin => ?_, fun hout => ?_⟩⟩
  · rw [readAndWriteTo, h'.writeLoop ht hbuf (by omega), haddr']
  · obtain ⟨s'', -, hread, -⟩ :=
      h'.readLoop ht hk (n := k * lbs) (Nat.le_mul_of_pos_right _ (by decide)) (by omega)
    exact ⟨s'', by rw [VirtualFullScanner.read, hread, haddr']⟩
  · exact h'.readLoop_eof ht hk (Nat.le_mul_of_pos_right _ (by decide)) (by omega)

theorem cuts_short : DiffMerger.Cuts (fun _ => True)
    (fun r : DiffRecIo LogicalBlock => r.record.ioBlocks ≤ DEFAULT_MAX_IO_LB)
    DEFAULT_MAX_IO_LB where
  piece _ _ _ _ hsize := hsize (by decide)
  hereditary _ _ hr hp := hp.ioBlocks_le.trans hr

theorem narrow_of_le (h : r.record.ioBlocks ≤ DEFAULT_MAX_IO_LB) : Narrow r := h.trans_lt (by decide)

theorem merged_spec {sizeLb : Nat} {wdiffs : List (List (DiffRecIo LogicalBlock))}
    (hwf : ∀ l, l ∈ wdiffs → WF l) (hend : ∀ l, l ∈ wdiffs → ∀ r, r ∈ l → r.record.endIoAddress ≤ sizeLb)
    (hsize : sizeLb * lbs < 2 ^ 63) (hfuel : DiffMerger.turns wdiffs ≤ fuel) (hne : wdiffs ≠ []) :
    ∃ m rs, DiffMerger.prepare wdiffs DEFAULT_MERGE_BUFFER_LB DEFAULT_MAX_IO_LB = .ok m ∧
      m.getAll fuel = .ok rs ∧ WF rs ∧
      (∀ r, r ∈ rs → r.record.endIoAddress ≤ sizeLb) ∧ content rs = content wdiffs.flatten ∧ ∀ r,
      r ∈ rs → Narrow r := by
  have hmax : DiffMerger.maxEnd wdiffs ≤ sizeLb := by
    apply DiffMerger.maxEnd_le
    intro r hr
    obtain ⟨l, hl, hr⟩ := List.mem_flatten.1 hr
    exact hend l hl r hr
  have hbound : DiffMerger.maxEnd wdiffs + max DEFAULT_MERGE_BUFFER_LB (DiffMerger.maxEnd wdiffs) <
      Meta.u64 := by
    rw [Meta.u64, DEFAULT_MERGE_BUFFER_LB]
    rw [lbs] at hsize ⊢
    omega
  obtain ⟨m, rs, hm, hget, hwf', hend', hcontent⟩ := getAll_of_maxEnd DEFAULT_MAX_IO_LB hne hwf hbound
  have hget := DiffMerger.getAll_mono hget hfuel
  have hkept := DiffMerger.prepare_kept (fun r => r.record.ioBlocks ≤ DEFAULT_MAX_IO_LB) hwf
    (fun _ _ _ _ => trivial) hm
  exact ⟨m, rs, hm, hget, hwf', fun r hr => (hend' r hr).trans hmax, hcontent, fun r hr =>
    narrow_of_le (hkept.getAll cuts_short hget r hr)⟩

section

variable {sizeLb : Nat} {wdiffs : List (List (DiffRecIo LogicalBlock))}
  {rs : List (DiffRecIo LogicalBlock)}
variable {m : DiffMerger LogicalBlock} {img : Nat → LogicalBlock}

theorem scans_nil (seekable : Bool) :
    ∃ s, init [] = .ok s ∧ Scans ⟨sizeLb, img, 0, seekable⟩ fuel (overlaid [] img) s := by
  refine ⟨_, if_pos rfl, Inv.scans (l := []) ?_ rfl rfl⟩
  exact ⟨rfl, Nat.zero_le _, WF.nil, fun _ hr => absurd hr List.not_mem_nil, fun _ _ => rfl, .ended rfl⟩

theorem scans_of_getAll (hne : wdiffs ≠ [])
    (hm : DiffMerger.prepare wdiffs DEFAULT_MERGE_BUFFER_LB DEFAULT_MAX_IO_LB = .ok m)
    (hget : m.getAll fuel = .ok rs) (hwf : WF rs)
    (hend : ∀ r, r ∈ rs → r.record.endIoAddress ≤ sizeLb) (seekable : Bool) :
    ∃ s, init wdiffs = .ok s ∧ Scans ⟨sizeLb, img, 0, seekable⟩ fuel (overlaid rs img) s := by
  refine ⟨⟨0, m, 0, noRecIo, 0, false, false⟩, by rw [init, if_neg hne, hm],
    Inv.scans (l := rs) ?_ rfl rfl⟩
  exact ⟨rfl, Nat.zero_le _, hwf, hend, fun _ _ => rfl, .between rfl rfl hget fun _ _ => Nat.zero_le _⟩

theorem applyOpenedDiffs_spec (issueDiscard : Nat → Nat → (Nat → LogicalBlock) → Nat → LogicalBlock)
    (stop : Nat → Bool)
    (img : Nat → LogicalBlock)
    (hm : DiffMerger.prepare wdiffs DEFAULT_MERGE_BUFFER_LB DEFAULT_MAX_IO_LB = .ok m)
    (hget : m.getAll fuel = .ok rs)
    (hend : ∀ r, r ∈ rs → r.record.endIoAddress ≤ sizeLb) :
    ∃ b img', applyOpenedDiffs issueDiscard .zero fuel sizeLb stop wdiffs img = .ok (b, img') ∧
      (b = true → img' = issued rs img) ∧ ((∀ i, stop i = false) → b = true) := by
  rw [applyOpenedDiffs, hm]
  exact applyLoop_spec hget hend (length_lt_of_getAll hget) 0 img

theorem agrees_of_narrow (hne : wdiffs ≠ [])
    (hm : DiffMerger.prepare wdiffs DEFAULT_MERGE_BUFFER_LB DEFAULT_MAX_IO_LB = .ok m)
    (hget : m.getAll fuel = .ok rs) (hwf : WF rs) (hend : ∀ r, r ∈ rs → r.record.endIoAddress ≤ sizeLb)
    (hn : ∀ r, r ∈ rs → Narrow r) : Agrees fuel sizeLb wdiffs rs img where
  scans := scans_of_getAll hne hm hget hwf hend
  applies _ issueDiscard stop := by
    rw [← issued_eq_overlaid hwf hn]
    exact applyOpenedDiffs_spec issueDiscard stop img hm hget hend
  issues issueDiscard C hC qs hqs hrs := by
    rw [← issued_eq_overlaid hwf hn, ← hrs]
    apply issueDiffPacks_spec hC hqs
    intro q hq io hio _
    exact hn io (hrs ▸ List.mem_flatMap_of_mem hq hio)

/-- A scan through the wdiffs and the wdiffs applied to the volume give the same
image for every base image. -/
theorem scan_eq_apply (fuel sizeLb : Nat) (wdiffs : List (List (DiffRecIo LogicalBlock)))
    (hwf : ∀ l, l ∈ wdiffs → WF l) (hend : ∀ l, l ∈ wdiffs → ∀ r, r ∈ l → r.record.endIoAddress ≤ sizeLb)
    (hsize : sizeLb * lbs < 2 ^ 63) (hfuel : DiffMerger.turns wdiffs ≤ fuel) :
    ∃ rs, merged fuel wdiffs = .ok rs ∧ (∀ img, overlaid rs img = overlaid wdiffs.flatten img) ∧
      ∀ img, Agrees fuel sizeLb wdiffs rs img := by
  by_cases hne : wdiffs = []
  · subst hne
    refine ⟨[], rfl, fun _ => rfl, fun img => ?_⟩
    refine ⟨scans_nil, fun h => absurd rfl h, fun issueDiscard C hC qs hqs hrs => ?_⟩
    rw [issueDiffPacks_spec hC hqs fun q hq io hio => absurd (List.mem_flatMap_of_mem hq hio)
      (by rw [hrs]; exact List.not_mem_nil),
      hrs]
    rfl
  · obtain ⟨m, rs, hm, hget, hwf', hend', hcontent, hn⟩ := merged_spec hwf hend hsize hfuel hne
    refine ⟨rs, by rw [merged, if_neg hne, hm]; exact hget,
      fun img => by rw [overlaid, overlaid, hcontent], ?_⟩
    exact fun img => agrees_of_narrow hne hm hget hwf' hend' hn

end

theorem scan_eq_apply_two :
    let wdiffs : List (List (DiffRecIo LogicalBlock)) :=
      [[⟨⟨0, 1, 512, .normal⟩, [oneBlock]⟩], [⟨⟨0, 2, 0, .discard⟩, []⟩]]
    ∃ rs, merged (DiffMerger.turns wdiffs) wdiffs = .ok rs ∧
      (∀ img, overlaid rs img = overlaid wdiffs.flatten img) ∧
      ∀ img, Agrees (DiffMerger.turns wdiffs) 4 wdiffs rs img := by
  refine scan_eq_apply _ 4 _ (fun l hl => ?_) (fun l hl r hr => ?_) (by decide) le_rfl
  · rcases List.mem_pair.1 hl with rfl | rfl
    · exact wf_singleton ⟨by decide, fun _ => rfl, fun _ => rfl, fun h => absurd rfl h⟩
    · exact wf_singleton ⟨by decide, nofun, nofun, fun _ => rfl⟩
  · rcases List.mem_pair.1 hl with rfl | rfl
    · rw [List.mem_singleton.1 hr]
      exact (by decide : 0 + 1 ≤ 4)
    · rw [List.mem_singleton.1 hr]
      exact (by decide : 0 + 2 ≤ 4)

end WalbTools.DiffVirt
