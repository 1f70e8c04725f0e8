import Mathlib
import WalbTools.DiffMem

namespace WalbTools.DiffMemRuns

open Meta (u64)
open KeyedList Overlay DiffIo DiffIo.DiffRecIo DiffMem

variable {β : Type}

/-- A record and its buffer, and the maximum size that is set when they are added. -/
structure Call (β : Type) where
  maxIoBlocks : Nat
  record : DiffRecord
  buf : List β
  deriving DecidableEq

namespace Call

def recIo (c : Call β) : DiffRecIo β := ofBuf c.record c.buf

/-- The record passes its check, and the buffer of a normal one has its blocks. -/
structure Formed (c : Call β) : Prop where
  verified : c.record.isValid = true
  buf_length : c.record.type = .normal → c.buf.length = c.record.ioBlocks
  dataSize : c.record.type = .normal → c.record.dataSize = c.record.ioBlocks * lbs

structure InSpace (c : Call β) : Prop where
  pos : 0 < c.record.ioBlocks
  end_lt : c.record.endIoAddress < u64

def Whole (c : Call β) : Prop := c.maxIoBlocks = 0 ∨ c.record.ioBlocks ≤ c.maxIoBlocks

end Call

inductive Op (β : Type) where
  | add (c : Call β)
  | eraseFromMap (i : Nat)

def noItem : String := "the iterator does not point at an item"

def eraseFromMap (m : DiffMemory β) (i : Nat) : Except String (DiffMemory β) :=
  match m.map[i]? with
  | none => .error noItem
  | some r => .ok { m.countOut r with map := m.map.eraseIdx i }

def step (m : DiffMemory β) : Op β → Except String (DiffMemory β)
  | .add c => DiffMemory.add { m with maxIoBlocks := c.maxIoBlocks } c.record c.buf
  | .eraseFromMap i => eraseFromMap m i

def run : List (Op β) → DiffMemory β → Except String (DiffMemory β)
  | [], m => .ok m
  | op :: ops, m =>
      match step m op with
      | .error e => .error e
      | .ok m => run ops m

def countOuts : List (DiffRecIo β) → DiffMemory β → List (DiffMemory β × DiffRecIo β)
  | [], _ => []
  | r :: q, m => (m, r) :: countOuts q (m.countOut r)

/-- The subtractions from the counters in one call: the counters before each, and
the item that is taken out. -/
def subtractions (m : DiffMemory β) : Op β → List (DiffMemory β × DiffRecIo β)
  | .add c => countOuts (takeOverlapped c.record (searchFrom m.map c.record.ioAddress).2).2 m
  | .eraseFromMap i => (m.map[i]?).toList.map fun r => (m, r)

def lastCovering (calls : List (Call β)) (a : Nat) : Option (Call β) :=
  calls.reverse.find? fun c => decide (c.record.Covers a)

/-- The memory holds what the last of the calls left at each block. -/
structure Overlays (calls : List (Call β)) (m : DiffMemory β) : Prop where
  keyed : m.map.Pairwise fun r s => key r < key s
  apart : m.map.Pairwise Before
  sized : ∀ p, p ∈ m.map → p.io.length = if p.record.isNormal then p.record.ioBlocks else 0
  dataSize : ∀ p, p ∈ m.map → p.record.isNormal = true → p.record.dataSize = p.io.length * lbs
  piece : ∀ p, p ∈ m.map → ∃ c, c ∈ calls ∧ Piece c.recIo p ∧
    (0 < c.maxIoBlocks → p.record.ioBlocks ≤ c.maxIoBlocks)
  content : ∀ a, DiffMem.content m.map a = (lastCovering calls a).bind fun c => c.recIo.cell a

variable {m m' : DiffMemory β} {c : Call β} {calls : List (Call β)} {r : DiffRecIo β}
  {q l : List (DiffRecIo β)}

theorem Call.Formed.valid (h : c.Formed) (hpos : 0 < c.record.ioBlocks) : c.recIo.Valid where
  pos := hpos
  io_length := by
    intro ht
    have hn : c.record.isNormal = true := isNormal_iff.2 ht
    change (if c.record.isNormal then c.buf else []).length = c.record.ioBlocks
    rw [if_pos hn]
    exact h.buf_length ht
  dataSize := h.dataSize
  io_nil := by
    intro ht
    have hn : ¬c.record.isNormal = true := fun hn => ht (isNormal_iff.1 hn)
    change (if c.record.isNormal then c.buf else []) = []
    rw [if_neg hn]

theorem add_recIo (m : DiffMemory β) (c : Call β) :
    m.add c.record c.buf = m.add c.recIo.record c.recIo.io := by
  have hofBuf : ofBuf c.recIo.record c.recIo.io = ofBuf c.record c.buf := by
    rw [Call.recIo, ofBuf, ofBuf]
    split_ifs
    · rfl
    · rfl
  rw [DiffMemory.add, DiffMemory.add, hofBuf]
  rfl

theorem lastCovering_concat (calls : List (Call β)) (c : Call β) (a : Nat) :
    lastCovering (calls ++ [c]) a = if c.record.Covers a then some c else lastCovering calls a := by
  rw [lastCovering, List.reverse_append, List.reverse_singleton, List.singleton_append, List.find?_cons]
  by_cases hc : c.record.Covers a
  · simp [hc]
  · simp [hc, lastCovering]

structure Holds (calls : List (Call β)) (m : DiffMemory β) : Prop where
  wf : WF m.map
  piece : ∀ p, p ∈ m.map → ∃ c, c ∈ calls ∧ Piece c.recIo p ∧
    (0 < c.maxIoBlocks → p.record.ioBlocks ≤ c.maxIoBlocks)
  content : ∀ a, DiffMem.content m.map a = (lastCovering calls a).bind fun c => c.recIo.cell a

theorem holds_init (maxIoBlocks : Nat) : Holds ([] : List (Call β)) (.init maxIoBlocks) :=
  ⟨WF.nil, by simp [DiffMemory.init], fun _ => rfl⟩

theorem Holds.add (h : Holds calls m) (hc : c.recIo.Valid) :
    ∃ m', step m (.add c) = .ok m' ∧ Holds (calls ++ [c]) m' := by
  obtain ⟨m', rv, hadd, hadded⟩ := add_spec (m := { m with maxIoBlocks := c.maxIoBlocks }) h.wf hc
  obtain ⟨m'', hadd', -, -, -, hcontent, -⟩ :=
    add_content (m := { m with maxIoBlocks := c.maxIoBlocks }) h.wf hc
  obtain rfl := Except.ok.inj (hadd.symm.trans hadd')
  refine ⟨m', (add_recIo _ c).trans hadd, hadded.wf, ?_, ?_⟩
  · intro p hp
    rcases (hadded.mem p).1 hp with hp | ⟨hp, -⟩ | ⟨s, v, hs, hv, hp⟩
    · exact ⟨c, List.mem_append_right _ (List.mem_singleton_self c), hadded.pieces.piece p hp,
        fun hpos =>
        hadded.size hpos p hp⟩
    · obtain ⟨c', hc', hpiece, hle⟩ := h.piece p hp
      exact ⟨c', List.mem_append_left _ hc', hpiece, hle⟩
    · -- What is left of an old item is a piece of the call that the item is a piece of.
      obtain ⟨hs, ho⟩ := List.mem_filter.1 hs
      obtain ⟨v', hv', hpieces⟩ := minus_spec (h.wf.valid s hs) ho
      obtain rfl := Except.ok.inj (hv.symm.trans hv')
      obtain ⟨c', hc', hpiece, hle⟩ := h.piece s hs
      have hleft := hpieces.piece p hp
      exact ⟨c', List.mem_append_left _ hc', hpiece.trans hleft,
        fun hpos => hleft.ioBlocks_le.trans (hle hpos)⟩
  · intro a
    rw [hcontent, lastCovering_concat, cover]
    change (c.recIo.cell a).or (DiffMem.content m.map a) = _
    rw [h.content a]
    by_cases hcov : c.record.Covers a
    · rw [if_pos hcov, Option.bind_some]
      have hsome : c.recIo.cell a ≠ none := fun hn => hc.cell_eq_none_iff.1 hn hcov
      obtain ⟨x, hx⟩ := Option.ne_none_iff_exists'.1 hsome
      rw [hx, Option.some_or]
    · rw [if_neg hcov, hc.cell_eq_none_iff.2 hcov, Option.none_or]

theorem Holds.run {done : List (Call β)} (h : Holds done m) (hcalls : ∀ c, c ∈ calls → c.recIo.Valid) :
    ∃ m', run (calls.map .add) m = .ok m' ∧ Holds (done ++ calls) m' := by
  induction calls generalizing done m with
  | nil => exact ⟨m, rfl, by rwa [List.append_nil]⟩
  | cons c calls ih =>
      obtain ⟨m₁, hstep, h₁⟩ := h.add (hcalls c List.mem_cons_self)
      obtain ⟨m', hrun, h'⟩ := ih h₁ fun c' hc' => hcalls c' (List.mem_cons_of_mem _ hc')
      refine ⟨m', ?_, ?_⟩
      · rw [List.map_cons, DiffMemRuns.run, hstep]
        exact hrun
      · rwa [List.append_assoc] at h'

theorem Holds.overlays (h : Holds calls m) : Overlays calls m where
  keyed := by
    apply h.wf.pairwise.imp_of_mem
    intro r s hr _ hb
    have hpos := (h.wf.valid r hr).pos
    rw [Before, DiffRecord.endIoAddress] at hb
    rw [key, key]
    omega
  apart := h.wf.pairwise
  sized := by
    intro p hp
    have hv := h.wf.valid p hp
    split_ifs with hn
    · exact hv.io_length (isNormal_iff.1 hn)
    · rw [hv.io_nil fun ht => hn (isNormal_iff.2 ht), List.length_nil]
  dataSize := by
    intro p hp hn
    have hv := h.wf.valid p hp
    rw [hv.dataSize (isNormal_iff.1 hn), hv.io_length (isNormal_iff.1 hn)]
  piece := h.piece
  content := h.content

/-- A memory is the overlay of what was added, the last writer first. -/
theorem add_overlays (maxIoBlocks : Nat) (calls : List (Call β)) (hformed : ∀ c, c ∈ calls → c.Formed)
    (hspace : ∀ c, c ∈ calls → c.InSpace) :
    ∃ m, run (calls.map .add) (.init maxIoBlocks) = .ok m ∧ Overlays calls m := by
  obtain ⟨m, hrun, h⟩ := (holds_init maxIoBlocks).run fun c hc => (hformed c hc).valid (hspace c hc).pos
  exact ⟨m, hrun, h.overlays⟩

def twoCalls : List (Call Nat) :=
  [⟨1, ⟨8, 2, 1024, .normal⟩, [1, 2]⟩, ⟨1, ⟨7, 2, 0, .discard⟩, []⟩]

theorem formed_twoCalls : (∀ c, c ∈ twoCalls → c.Formed) ∧ ∀ c, c ∈ twoCalls → c.InSpace := by
  rw [twoCalls]
  simp only [List.forall_mem_cons, List.not_mem_nil, false_implies, implies_true, and_true]
  exact ⟨⟨⟨rfl, by decide, by decide⟩, ⟨rfl, by decide, by decide⟩⟩, ⟨by decide, by decide⟩,
    ⟨by decide, by decide⟩⟩

theorem add_overlays_two : ∃ m, run (twoCalls.map .add) (.init 2048) = .ok m ∧ Overlays twoCalls m :=
  add_overlays 2048 twoCalls formed_twoCalls.1 formed_twoCalls.2

/-- A discard of no blocks, which passes the check, and a block at its address. -/
def zeroBlocks : List (Call Nat) :=
  [⟨2048, ⟨8, 0, 0, .discard⟩, []⟩, ⟨2048, ⟨8, 1, 512, .normal⟩, [1]⟩]

theorem zero_blocks_hide_data :
    (∀ c, c ∈ zeroBlocks → c.Formed) ∧
      ¬∃ m, run (zeroBlocks.map .add) (.init 2048) = .ok m ∧ Overlays zeroBlocks m := by
  constructor
  · rw [zeroBlocks]
    simp only [List.forall_mem_cons, List.not_mem_nil, false_implies, implies_true, and_true]
    exact ⟨⟨rfl, by decide, by decide⟩, ⟨rfl, by decide, by decide⟩⟩
  · rintro ⟨m, hrun, h⟩
    have hm : run (zeroBlocks.map .add) (.init 2048) = .ok ⟨2048, [⟨⟨8, 0, 0, .discard⟩, []⟩], 2,
      1⟩ := rfl
    obtain rfl := Except.ok.inj (hm.symm.trans hrun)
    have h8 := h.content 8
    revert h8
    decide

/-- The counters are those of the map, and the map lies in the address space. -/
structure Tallied (m : DiffMemory β) : Prop where
  wf : WF m.map
  end_lt : ∀ r, r ∈ m.map → r.record.endIoAddress < u64
  counts : Counts m m.map

theorem tallied_init (maxIoBlocks : Nat) : Tallied (.init maxIoBlocks : DiffMemory β) :=
  ⟨WF.nil, by simp [DiffMemory.init], rfl, rfl⟩

theorem Tallied.blocks_lt (h : Tallied m) : blocks m.map < u64 := by
  have hu : 0 < u64 := by decide
  have hle : 0 + blocks m.map ≤ u64 - 1 := h.wf.add_blocks_le (Nat.zero_le _) fun r hr =>
    ⟨Nat.zero_le _, Nat.le_sub_one_of_lt (h.end_lt r hr)⟩
  omega

theorem Tallied.ioBlocks_le (h : Tallied m) (hr : r ∈ m.map) : r.record.ioBlocks ≤ u64 :=
  (Nat.le_add_left _ _).trans (h.end_lt r hr).le

theorem Tallied.pos (h : Tallied m) : ∀ r, r ∈ m.map → 0 < r.record.ioBlocks :=
  fun r hr => (h.wf.valid r hr).pos

theorem Tallied.eq (h : Tallied m) : m.nIos = m.map.length ∧ m.nBlocks = blocks m.map := by
  have hlt := h.blocks_lt
  obtain ⟨hn, hb⟩ := h.counts
  exact ⟨hn.trans (Nat.mod_eq_of_lt ((length_le_blocks h.pos).trans_lt hlt)),
    hb.trans (Nat.mod_eq_of_lt hlt)⟩

theorem Tallied.add (h : Tallied m) (hc : c.recIo.Valid) (hspace : c.InSpace) (hwhole : c.Whole) :
    ∃ m', step m (.add c) = .ok m' ∧ Tallied m' := by
  obtain ⟨m', rv, hadd, hadded⟩ := add_spec (m := { m with maxIoBlocks := c.maxIoBlocks }) h.wf hc
  obtain ⟨m'', hadd', -, -, -, -, hpieces⟩ :=
    add_content (m := { m with maxIoBlocks := c.maxIoBlocks }) h.wf hc
  obtain rfl := Except.ok.inj (hadd.symm.trans hadd')
  refine ⟨m', (add_recIo _ c).trans hadd, hadded.wf, ?_, ?_⟩
  · intro p hp
    rcases hpieces p hp with ⟨hpiece, -⟩ | ⟨s, hs, hpiece⟩
    · exact hpiece.end_le.trans_lt hspace.end_lt
    · exact hpiece.end_le.trans_lt (h.end_lt s hs)
  · exact hadded.counts hwhole (fun s hs => h.ioBlocks_le hs) h.counts

theorem Tallied.eraseFromMap {i : Nat} (h : Tallied m) (hm : eraseFromMap m i = .ok m') :
    Tallied m' := by
  rw [DiffMemRuns.eraseFromMap] at hm
  split at hm
  · cases hm
  · rename_i r hr
    obtain rfl := Except.ok.inj hm
    obtain ⟨hi, rfl⟩ := List.getElem?_eq_some_iff.1 hr
    have hsub := List.eraseIdx_sublist m.map i
    have hperm := (List.getElem_cons_eraseIdx_perm hi).symm
    have hcounts := (h.counts.perm hperm).countOut (h.ioBlocks_le (List.getElem_mem hi))
    exact ⟨h.wf.sublist hsub, fun s hs => h.end_lt s (hsub.subset hs), hcounts.1, hcounts.2⟩

theorem countOuts_spec (hc : Counts m (q ++ l)) (hlt : blocks (q ++ l) < u64)
    (hpos : ∀ r, r ∈ q ++ l → 0 < r.record.ioBlocks) :
    ∀ x, x ∈ countOuts q m → 0 < x.1.nIos ∧ x.2.record.ioBlocks ≤ x.1.nBlocks := by
  induction q generalizing m with
  | nil => simp [countOuts]
  | cons r q ih =>
      rw [List.cons_append] at hc hlt hpos
      have hlen := length_le_blocks hpos
      have hle : r.record.ioBlocks ≤ blocks (r :: (q ++ l)) := by
        rw [blocks_cons]
        exact Nat.le_add_right _ _
      intro x hx
      rcases List.mem_cons.1 hx with rfl | hx
      · obtain ⟨hn, hb⟩ := hc
        rw [Nat.mod_eq_of_lt (hlen.trans_lt hlt)] at hn
        rw [Nat.mod_eq_of_lt hlt] at hb
        exact ⟨hn ▸ Nat.succ_pos _, hb ▸ hle⟩
      · have hrest := hc.countOut (hle.trans hlt.le)
        rw [blocks_cons] at hlt
        exact ih hrest (by omega) (fun s hs => hpos s (List.mem_cons_of_mem _ hs)) x hx

theorem Tallied.subtractions (h : Tallied m) (op : Op β) :
    ∀ x, x ∈ subtractions m op → 0 < x.1.nIos ∧ x.2.record.ioBlocks ≤ x.1.nBlocks := by
  have hspec : ∀ q l, m.map.Perm (q ++ l) →
      ∀ x, x ∈ countOuts q m → 0 < x.1.nIos ∧ x.2.record.ioBlocks ≤ x.1.nBlocks := by
    intro q l hperm
    apply countOuts_spec (h.counts.perm hperm)
    · rw [blocks, ← (hperm.map fun r => r.record.ioBlocks).sum_eq]
      exact h.blocks_lt
    · exact fun r hr => h.pos r (hperm.mem_iff.2 hr)
  cases op with
  | add c =>
      rw [DiffMemRuns.subtractions, (search_eq h.wf c.record).2]
      exact hspec _ _ (List.filter_append_perm _ m.map).symm
  | eraseFromMap i =>
      rw [DiffMemRuns.subtractions]
      intro x hx
      obtain ⟨r, hr, rfl⟩ := List.mem_map.1 hx
      rw [Option.mem_toList] at hr
      obtain ⟨hi, rfl⟩ := List.getElem?_eq_some_iff.1 hr
      exact hspec [m.map[i]] _ (List.getElem_cons_eraseIdx_perm hi).symm _ (List.mem_singleton_self _)

def Op.Counted : Op β → Prop
  | .add c => c.Formed ∧ c.InSpace ∧ c.Whole
  | .eraseFromMap _ => True

theorem Tallied.run {ops : List (Op β)} (h : Tallied m) (hops : ∀ op, op ∈ ops → op.Counted) :
    (∀ m', run ops m = .ok m' → Tallied m') ∧ ∀ e, run ops m = .error e → e = noItem := by
  induction ops generalizing m with
  | nil =>
      constructor
      · intro m' hm
        exact Except.ok.inj hm ▸ h
      · intro e he
        cases he
  | cons op ops ih =>
      obtain ⟨hop, hops⟩ := List.forall_mem_cons.1 hops
      rw [DiffMemRuns.run]
      cases hstep : step m op with
      | ok m₁ =>
          have h₁ : Tallied m₁ := by
            cases op with
            | add c =>
                obtain ⟨hformed, hspace, hwhole⟩ := hop
                obtain ⟨m', hadd, h'⟩ := h.add (hformed.valid hspace.pos) hspace hwhole
                exact Except.ok.inj (hadd.symm.trans hstep) ▸ h'
            | eraseFromMap i => exact h.eraseFromMap hstep
          exact ih h₁ hops
      | error e =>
          refine ⟨fun m' hm => (by cases hm), fun e' he => ?_⟩
          obtain rfl := Except.error.inj he
          cases op with
          | add c =>
              obtain ⟨hformed, hspace, hwhole⟩ := hop
              obtain ⟨m', hadd, -⟩ := h.add (hformed.valid hspace.pos) hspace hwhole
              exact absurd (hadd.symm.trans hstep) (by simp)
          | eraseFromMap i =>
              rw [step, DiffMemRuns.eraseFromMap] at hstep
              split at hstep
              · exact (Except.error.inj hstep).symm
              · cases hstep

/-- The counters say what the map holds as long as no record is cut at the maximum size. -/
theorem statistics_match (maxIoBlocks : Nat) (ops : List (Op β)) (hops : ∀ op, op ∈ ops → op.Counted) :
    (∀ m, run ops (.init maxIoBlocks) = .ok m →
      m.nIos = m.map.length ∧ m.nBlocks = blocks m.map ∧
      ∀ op x, x ∈ subtractions m op → 0 < x.1.nIos ∧ x.2.record.ioBlocks ≤ x.1.nBlocks) ∧
    ∀ e, run ops (.init maxIoBlocks) = .error e → e = noItem := by
  obtain ⟨hok, herror⟩ := (tallied_init maxIoBlocks).run hops
  refine ⟨fun m hm => ?_, herror⟩
  have h := hok m hm
  exact ⟨h.eq.1, h.eq.2, h.subtractions⟩

/-- Three blocks, a discard of the middle one, and the first item taken out. -/
def threeOps : List (Op Nat) :=
  [.add ⟨8, ⟨8, 3, 1536, .normal⟩, [1, 2, 3]⟩, .add ⟨8, ⟨9, 1, 0, .discard⟩, []⟩, .eraseFromMap 0]

theorem counted_threeOps : ∀ op, op ∈ threeOps → op.Counted := by
  rw [threeOps]
  simp only [List.forall_mem_cons, List.not_mem_nil, false_implies, implies_true, and_true]
  exact ⟨⟨⟨rfl, by decide, by decide⟩, ⟨by decide, by decide⟩, .inr (by decide)⟩,
    ⟨⟨rfl, by decide, by decide⟩, ⟨by decide, by decide⟩, .inr (by decide)⟩, trivial⟩

theorem statistics_match_three :
    (∀ m, run threeOps (.init 2048) = .ok m →
      m.nIos = m.map.length ∧ m.nBlocks = blocks m.map ∧
      ∀ op x, x ∈ subtractions m op → 0 < x.1.nIos ∧ x.2.record.ioBlocks ≤ x.1.nBlocks) ∧
    ∀ e, run threeOps (.init 2048) = .error e → e = noItem :=
  statistics_match 2048 threeOps counted_threeOps

def twoPieces : Call Nat := ⟨1, ⟨8, 2, 1024, .normal⟩, [1, 2]⟩

/-- The second piece is not counted, and the counter goes below zero when both are
taken out. -/
theorem two_pieces_counted_once :
    twoPieces.Formed ∧ twoPieces.InSpace ∧
      (∃ m, run [.add twoPieces] (.init 1) = .ok m ∧ m.nIos = 1 ∧ m.map.length = 2) ∧
      ∃ m, run [.add twoPieces, .eraseFromMap 0] (.init 1) = .ok m ∧ m.nIos = 0 ∧ m.map.length = 1 ∧
        ∃ m', step m (.eraseFromMap 0) = .ok m' ∧ m'.nIos = u64 - 1 := by
  refine ⟨⟨rfl, by decide, by decide⟩, ⟨by decide, by decide⟩, ⟨_, rfl, rfl, rfl⟩, _, rfl, rfl, rfl,
    _, rfl, rfl⟩

end WalbTools.DiffMemRuns
