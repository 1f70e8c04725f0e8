import Mathlib
import WalbTools.Meta
import WalbTools.RangeMap
import WalbTools.DiffIo

namespace WalbTools.DiffMem

open Meta (u64)
open KeyedList Overlay DiffIo DiffIo.DiffRecIo

variable {β : Type}

def key (r : DiffRecIo β) : Nat := r.record.ioAddress

/-- `std::map<uint64_t, DiffRecIo>` keyed by the address, and its counters. -/
structure DiffMemory (β : Type) where
  maxIoBlocks : Nat
  map : List (DiffRecIo β)
  nIos : Nat
  nBlocks : Nat

def ofBuf (record : DiffRecord) (buf : List β) : DiffRecIo β :=
  ⟨record, if record.isNormal then buf else []⟩

def keyEnd (r : DiffRecIo β) : Nat := r.record.endIoAddress

def searchFrom (map : List (DiffRecIo β)) (addr0 : Nat) : List (DiffRecIo β) × List (DiffRecIo β) :=
  RangeMap.searchFrom key map addr0

def takeOverlapped (record : DiffRecord) (map : List (DiffRecIo β)) :
    List (DiffRecIo β) × List (DiffRecIo β) :=
  RangeMap.takeOverlapped key keyEnd ⟨record, []⟩ map

namespace DiffMemory

def init (maxIoBlocks : Nat) : DiffMemory β := ⟨maxIoBlocks, [], 0, 0⟩

/-- The counters after an item has left the map; they are `uint64_t`. -/
def countOut (m : DiffMemory β) (r : DiffRecIo β) : DiffMemory β :=
  { m with
    nIos := (m.nIos + u64 - 1) % u64
    nBlocks := (m.nBlocks + u64 - r.record.ioBlocks) % u64 }

def countIn (m : DiffMemory β) (r : DiffRecIo β) : DiffMemory β :=
  { m with nIos := (m.nIos + 1) % u64, nBlocks := (m.nBlocks + r.record.ioBlocks) % u64 }

def emplace (m : DiffMemory β) (r : DiffRecIo β) : DiffMemory β :=
  { m with map := KeyedList.insert key r m.map }

def eliminate (m : DiffMemory β) (r0 : DiffRecIo β) : List (DiffRecIo β) → Except String (DiffMemory β)
  | [] => .ok m
  | r :: q =>
      match r.minus r0 with
      | .error e => .error e
      | .ok v => eliminate (v.foldl (fun m p => (m.countIn p).emplace p) m) r0 q

def add (m : DiffMemory β) (record : DiffRecord) (buf : List β) : Except String (DiffMemory β) :=
  let (pre, post) := searchFrom m.map record.ioAddress
  let (kept, q) := takeOverlapped record post
  let m := q.foldl countOut m
  let r0 := ofBuf record buf
  match eliminate { m with map := pre ++ kept } r0 q with
  | .error e => .error e
  | .ok m =>
      let m := m.countIn r0
      if 0 < m.maxIoBlocks ∧ m.maxIoBlocks < record.ioBlocks then
        match r0.splitAll m.maxIoBlocks with
        | .error e => .error e
        | .ok rv => .ok (rv.foldl emplace m)
      else .ok (m.emplace r0)

end DiffMemory

/-- The items are valid and stand in address order without overlaps. -/
structure WF (l : List (DiffRecIo β)) : Prop where
  valid : ∀ r, r ∈ l → r.Valid
  pairwise : l.Pairwise Before

/-- What a list of records without overlaps says about each block. -/
def content (l : List (DiffRecIo β)) : Nat → Option (Cell β) := overlay (l.map cell)

def Apart (r s : DiffRecIo β) : Prop := Before r s ∨ Before s r

def blocks (l : List (DiffRecIo β)) : Nat := (l.map fun r => r.record.ioBlocks).sum

/-- The counters, which are `uint64_t`, say how many items and blocks `l` has. -/
def Counts (m : DiffMemory β) (l : List (DiffRecIo β)) : Prop :=
  m.nIos = l.length % u64 ∧ m.nBlocks = blocks l % u64

variable {l l' v : List (DiffRecIo β)} {r r0 s p : DiffRecIo β}

@[simp] theorem blocks_nil : blocks ([] : List (DiffRecIo β)) = 0 := rfl

@[simp] theorem blocks_cons : blocks (r :: l) = r.record.ioBlocks + blocks l := by
  rw [blocks, List.map_cons, List.sum_cons, blocks]

@[simp] theorem blocks_append : blocks (l ++ l') = blocks l + blocks l' := by
  rw [blocks, List.map_append, List.sum_append, blocks, blocks]

theorem Counts.perm {m : DiffMemory β} (h : Counts m l) (hp : l.Perm l') : Counts m l' := by
  rw [Counts, blocks, ← hp.length_eq, ← (hp.map fun r => r.record.ioBlocks).sum_eq]
  exact h

theorem Counts.countIn {m : DiffMemory β} (h : Counts m l) (r : DiffRecIo β) :
    Counts (m.countIn r) (r :: l) := by
  obtain ⟨hn, hb⟩ := h
  rw [Counts, DiffMemory.countIn]
  dsimp only
  rw [hn, hb, blocks_cons, List.length_cons, u64]
  omega

theorem Counts.countOut {m : DiffMemory β} (h : Counts m (r :: l)) (hr : r.record.ioBlocks ≤ u64) :
    Counts (m.countOut r) l := by
  obtain ⟨hn, hb⟩ := h
  rw [blocks_cons] at hb
  rw [List.length_cons] at hn
  rw [Counts, DiffMemory.countOut]
  dsimp only
  rw [hn, hb]
  rw [u64] at hr ⊢
  omega

theorem Apart.symm (h : Apart r s) : Apart s r := Or.symm h

instance : Std.Symm (@Apart β) := ⟨fun _ _ h => h.symm⟩

theorem Apart.piece (h : Apart r s) (hp : Piece r p) : Apart p s := by
  have hb := hp.begin_le
  have he := hp.end_le
  rw [Apart, Before, Before] at h ⊢
  omega

theorem apart_iff (hr : r.Valid) (hs : s.Valid) :
    Apart r s ↔ r.record.isOverlapped s.record = false := by
  have hrp := hr.pos
  have hsp := hs.pos
  rw [Bool.eq_false_iff, Ne, isOverlapped_iff, Apart, Before, Before]
  simp only [DiffRecord.endIoAddress]
  omega

theorem Apart.not_covers (h : Apart r s) {a : Nat} (hc : r.record.Covers a) : ¬s.record.Covers a := by
  rintro ⟨hl, hr⟩
  obtain ⟨hl', hr'⟩ := hc
  rw [Apart, Before, Before] at h
  omega

theorem apart_of_not_covers (hr : r.Valid) (hs : s.Valid)
    (h : ∀ a, r.record.Covers a → ¬s.record.Covers a) : Apart r s := by
  have hrp := hr.pos
  have hsp := hs.pos
  have hmax := h (max r.record.ioAddress s.record.ioAddress)
  rw [Apart, Before, Before]
  simp only [DiffRecord.Covers, DiffRecord.endIoAddress] at hmax ⊢
  omega

theorem Before.disjoint (h : Before r s) : Disjoint r.cell s.cell := by
  intro a
  by_cases hc : r.record.Covers a
  · exact .inr (if_neg (Apart.not_covers (.inl h) hc))
  · exact .inl (if_neg hc)

theorem WF.nil : WF ([] : List (DiffRecIo β)) := ⟨by simp, .nil⟩

theorem WF.sublist (h : WF l) (hs : List.Sublist l' l) : WF l' :=
  ⟨fun r hr => h.valid r (hs.subset hr), h.pairwise.sublist hs⟩

theorem WF.ordered (h : WF l) : RangeMap.Ordered key keyEnd l :=
  ⟨fun r hr => Nat.lt_add_of_pos_right (h.valid r hr).pos, h.pairwise⟩

theorem WF.sorted (h : WF l) : Sorted key l := h.ordered.sorted

theorem WF.apart (h : WF l) : l.Pairwise Apart := h.pairwise.imp Or.inl

/-- Records that do not meet have no more blocks than the addresses they lie in. -/
theorem WF.add_blocks_le (h : WF l) {a hi : Nat} (ha : a ≤ hi)
    (hb : ∀ r, r ∈ l → a ≤ r.record.ioAddress ∧ r.record.endIoAddress ≤ hi) : a + blocks l ≤ hi := by
  induction l generalizing a with
  | nil => exact ha
  | cons r l ih =>
      have hr := hb r List.mem_cons_self
      have htail := ih (h.sublist (List.sublist_cons_self r l)) hr.2 fun s hs =>
        ⟨(List.pairwise_cons.1 h.pairwise).1 s hs, (hb s (List.mem_cons_of_mem _ hs)).2⟩
      have hend : r.record.endIoAddress = r.record.ioAddress + r.record.ioBlocks := rfl
      rw [blocks_cons]
      omega

theorem length_le_blocks (h : ∀ r, r ∈ l → 0 < r.record.ioBlocks) : l.length ≤ blocks l := by
  induction l with
  | nil => exact le_rfl
  | cons r l ih =>
      obtain ⟨hpos, hl⟩ := List.forall_mem_cons.1 h
      have htail := ih hl
      rw [blocks_cons, List.length_cons]
      omega

theorem content_eq_some_iff (h : l.Pairwise Before) {a : Nat} {c : Cell β} :
    content l a = some c ↔ ∃ r, r ∈ l ∧ r.cell a = some c := by
  rw [content, overlay_eq_some_iff (List.pairwise_map.2 (h.imp Before.disjoint))]
  simp

theorem content_cons : content (r :: l) = cover (content l) r.cell := rfl

theorem content_append : content (l ++ l') = cover (content l') (content l) := by
  rw [content, List.map_append, overlay_append, content, content]

theorem wf_of_pieces {P : Nat → Prop} (h : Pieces r P v) : WF v :=
  ⟨fun p hp => (h.piece p hp).valid, h.before⟩

theorem WF.ne_of_apart (h : WF l) (hr : r.Valid) (ha : ∀ s, s ∈ l → Apart s r) :
    ∀ s, s ∈ l → key s ≠ key r := by
  intro s hs he
  have hpos := hr.pos
  have hsp := (h.valid s hs).pos
  have hap := ha s hs
  rw [Apart, Before, Before, DiffRecord.endIoAddress, DiffRecord.endIoAddress] at hap
  rw [key, key] at he
  omega

theorem WF.insert (h : WF l) (hr : r.Valid) (ha : ∀ s, s ∈ l → Apart s r) :
    WF (KeyedList.insert key r l) ∧ ∀ x, x ∈ KeyedList.insert key r l ↔ x = r ∨ x ∈ l := by
  obtain ⟨hord, hmem⟩ := h.ordered.insert (Nat.lt_add_of_pos_right hr.pos) fun s hs =>
    (apart_iff (h.valid s hs) hr).1 (ha s hs)
  refine ⟨⟨fun x hx => ?_, hord.pairwise⟩, hmem⟩
  rcases (hmem x).1 hx with rfl | hx
  · exact hr
  · exact h.valid x hx

theorem search_eq (h : WF l) (record : DiffRecord) :
    (searchFrom l record.ioAddress).1 ++ (takeOverlapped record (searchFrom l record.ioAddress).2).1 =
        l.filter (fun r => !r.record.isOverlapped record) ∧
      (takeOverlapped record (searchFrom l record.ioAddress).2).2 =
        l.filter (fun r => r.record.isOverlapped record) :=
  h.ordered.search_eq ⟨record, []⟩

theorem WF.foldl_insert {f : DiffMemory β → DiffRecIo β → DiffMemory β}
    (hf : ∀ m p, (f m p).map = KeyedList.insert key p m.map ∧ (f m p).maxIoBlocks = m.maxIoBlocks)
    {m : DiffMemory β} (h : WF m.map) (hv : WF v) (ha : ∀ s, s ∈ m.map → ∀ p, p ∈ v → Apart s p) :
    WF (v.foldl f m).map ∧ (∀ x, x ∈ (v.foldl f m).map ↔ x ∈ v ∨ x ∈ m.map) ∧
      (v.foldl f m).maxIoBlocks = m.maxIoBlocks := by
  induction v generalizing m with
  | nil => exact ⟨h, by simp, rfl⟩
  | cons p v ih =>
      obtain ⟨hmap, hmax⟩ := hf m p
      obtain ⟨hwf, hmem⟩ :=
        h.insert (hv.valid p List.mem_cons_self) fun s hs => ha s hs p List.mem_cons_self
      rw [← hmap] at hwf hmem
      obtain ⟨hwf', hmem', hmax'⟩ := ih hwf (hv.sublist (List.sublist_cons_self p v)) (by
        intro s hs q hq
        rcases (hmem s).1 hs with rfl | hs
        · exact .inl ((List.pairwise_cons.1 hv.pairwise).1 q hq)
        · exact ha s hs q (List.mem_cons_of_mem _ hq))
      refine ⟨hwf', fun x => ?_, hmax'.trans hmax⟩
      rw [List.foldl_cons, hmem', hmem, List.mem_cons]
      tauto

theorem WF.foldl_counts {m : DiffMemory β} (h : WF m.map) (hv : WF v)
    (ha : ∀ s, s ∈ m.map → ∀ p, p ∈ v → Apart s p) (hc : Counts m m.map) :
    Counts (v.foldl (fun m p => (m.countIn p).emplace p) m)
      (v.foldl (fun m p => (m.countIn p).emplace p) m).map := by
  induction v generalizing m with
  | nil => exact hc
  | cons p v ih =>
      have hp := hv.valid p List.mem_cons_self
      have hap : ∀ s, s ∈ m.map → Apart s p := fun s hs => ha s hs p List.mem_cons_self
      obtain ⟨hwf, hmem⟩ := h.insert hp hap
      have hperm := KeyedList.insert_perm p (h.ne_of_apart hp hap)
      apply ih (m := (m.countIn p).emplace p) hwf (hv.sublist (List.sublist_cons_self p v))
      · intro s hs q hq
        rcases (hmem s).1 hs with rfl | hs
        · exact .inl ((List.pairwise_cons.1 hv.pairwise).1 q hq)
        · exact ha s hs q (List.mem_cons_of_mem _ hq)
      · exact (hc.countIn p).perm hperm.symm

/-- `x` is what `minus` leaves of a queued item. -/
def Left (r0 : DiffRecIo β) (q : List (DiffRecIo β)) (x : DiffRecIo β) : Prop :=
  ∃ s v, s ∈ q ∧ s.minus r0 = .ok v ∧ x ∈ v

theorem eliminate_spec (r0 : DiffRecIo β) (q : List (DiffRecIo β)) (m : DiffMemory β) (h : WF m.map)
    (hq : WF q)
    (ho : ∀ s, s ∈ q → s.record.isOverlapped r0.record = true)
    (ha : ∀ s, s ∈ m.map → ∀ t, t ∈ q → Apart s t) :
    ∃ m', m.eliminate r0 q = .ok m' ∧ WF m'.map ∧ m'.maxIoBlocks = m.maxIoBlocks ∧
      (∀ x, x ∈ m'.map ↔ x ∈ m.map ∨ Left r0 q x) ∧ (Counts m m.map → Counts m' m'.map) := by
  induction q generalizing m with
  | nil => exact ⟨m, rfl, h, rfl, fun x => by simp [Left], id⟩
  | cons r q ih =>
      obtain ⟨v, hv, hpieces⟩ := minus_spec (hq.valid r List.mem_cons_self) (ho r List.mem_cons_self)
      obtain ⟨hwf, hmem, hmax⟩ := h.foldl_insert (f := fun m p => (m.countIn p).emplace p)
        (fun m p => ⟨rfl, rfl⟩) (wf_of_pieces hpieces) fun s hs p hp =>
          ((ha s hs r List.mem_cons_self).symm.piece (hpieces.piece p hp)).symm
      have hrq := (List.pairwise_cons.1 hq.apart).1
      obtain ⟨m', hm', hwf', hmax', hmem', hcounts⟩ := ih _ hwf (hq.sublist (List.sublist_cons_self r q))
        (fun s hs => ho s (List.mem_cons_of_mem _ hs)) (by
          intro s hs t ht
          rcases (hmem s).1 hs with hs | hs
          · exact (hrq t ht).piece (hpieces.piece s hs)
          · exact ha s hs t (List.mem_cons_of_mem _ ht))
      refine ⟨m', ?_, hwf', hmax'.trans hmax, fun x => ?_, fun hc => hcounts ?_⟩
      · rw [DiffMemory.eliminate, hv]
        exact hm'
      swap
      · exact h.foldl_counts (wf_of_pieces hpieces) (fun s hs p hp =>
          ((ha s hs r List.mem_cons_self).symm.piece (hpieces.piece p hp)).symm) hc
      · rw [hmem', hmem]
        constructor
        · rintro ((hx | hx) | ⟨s, w, hs, hw, hx⟩)
          · exact .inr ⟨r, v, List.mem_cons_self, hv, hx⟩
          · exact .inl hx
          · exact .inr ⟨s, w, List.mem_cons_of_mem _ hs, hw, hx⟩
        · rintro (hx | ⟨s, w, hs, hw, hx⟩)
          · exact .inl (.inr hx)
          · rcases List.mem_cons.1 hs with rfl | hs
            · rw [hv] at hw
              exact .inl (.inl (Except.ok.inj hw ▸ hx))
            · exact .inr ⟨s, w, hs, hw, hx⟩

@[simp] theorem countOut_map (m : DiffMemory β) (r : DiffRecIo β) : (m.countOut r).map = m.map := by
  rw [DiffMemory.countOut]

@[simp] theorem countOut_maxIoBlocks (m : DiffMemory β) (r : DiffRecIo β) :
    (m.countOut r).maxIoBlocks = m.maxIoBlocks := by
  rw [DiffMemory.countOut]

@[simp] theorem countIn_map (m : DiffMemory β) (r : DiffRecIo β) : (m.countIn r).map = m.map := by
  rw [DiffMemory.countIn]

@[simp] theorem countIn_maxIoBlocks (m : DiffMemory β) (r : DiffRecIo β) :
    (m.countIn r).maxIoBlocks = m.maxIoBlocks := by
  rw [DiffMemory.countIn]

theorem foldl_countOut (q : List (DiffRecIo β)) (m : DiffMemory β) :
    (q.foldl DiffMemory.countOut m).map = m.map ∧
      (q.foldl DiffMemory.countOut m).maxIoBlocks = m.maxIoBlocks := by
  induction q generalizing m with
  | nil => exact ⟨rfl, rfl⟩
  | cons r q ih => simpa using ih (m.countOut r)

theorem Counts.foldl_countOut {q : List (DiffRecIo β)} {m : DiffMemory β} (h : Counts m (q ++ l))
    (hq : ∀ r, r ∈ q → r.record.ioBlocks ≤ u64) : Counts (q.foldl DiffMemory.countOut m) l := by
  induction q generalizing m with
  | nil => exact h
  | cons r q ih =>
      rw [List.cons_append] at h
      rw [List.foldl_cons]
      exact ih (h.countOut (hq r List.mem_cons_self)) fun s hs => hq s (List.mem_cons_of_mem _ hs)

theorem ofBuf_eq (h : r.Valid) : ofBuf r.record r.io = r := by
  rw [ofBuf, h.ite_io (f := fun l => l) rfl]

/-- A memory after `add`: untouched items, what is left of the overlapped ones, and
the new record in the pieces `rv`. The counters miss the pieces of a record that
is cut. -/
structure Added (m : DiffMemory β) (r : DiffRecIo β) (m' : DiffMemory β) (rv : List (DiffRecIo β)) :
    Prop where
  pieces : Pieces r r.record.Covers rv
  size : 0 < m.maxIoBlocks → ∀ p, p ∈ rv → p.record.ioBlocks ≤ m.maxIoBlocks
  wf : WF m'.map
  maxIoBlocks : m'.maxIoBlocks = m.maxIoBlocks
  mem : ∀ x, x ∈ m'.map ↔ x ∈ rv ∨ (x ∈ m.map ∧ x.record.isOverlapped r.record = false) ∨
    Left r (m.map.filter fun s => s.record.isOverlapped r.record) x
  counts : m.maxIoBlocks = 0 ∨ r.record.ioBlocks ≤ m.maxIoBlocks →
    (∀ s, s ∈ m.map → s.record.ioBlocks ≤ u64) →
    Counts m m.map → Counts m' m'.map

theorem add_spec {m : DiffMemory β} (h : WF m.map) (hr : r.Valid) :
    ∃ m' rv, m.add r.record r.io = .ok m' ∧ Added m r m' rv := by
  obtain ⟨hkept, hq⟩ := search_eq h r.record
  obtain ⟨hcmap, hcmax⟩ := foldl_countOut (m.map.filter fun s => s.record.isOverlapped r.record) m
  have hno : ∀ s, s ∈ m.map.filter (fun s => !s.record.isOverlapped r.record) ↔
      s ∈ m.map ∧ s.record.isOverlapped r.record = false := fun s => by simp
  have hov : ∀ s, s ∈ m.map.filter (fun s => s.record.isOverlapped r.record) ↔
      s ∈ m.map ∧ s.record.isOverlapped r.record = true := fun s => List.mem_filter
  have hapart : ∀ s, s ∈ m.map.filter (fun s => !s.record.isOverlapped r.record) →
      ∀ t, t ∈ m.map.filter (fun s => s.record.isOverlapped r.record) → Apart s t := by
    intro s hs t ht
    obtain ⟨hs, hs'⟩ := (hno s).1 hs
    obtain ⟨ht, ht'⟩ := (hov t).1 ht
    refine h.apart.forall hs ht ?_
    rintro rfl
    rw [hs'] at ht'
    cases ht'
  obtain ⟨m₁, hm₁, hwf₁, hmax₁, hmem₁, hcounts₁⟩ := eliminate_spec r
    (m.map.filter fun s => s.record.isOverlapped r.record)
    { (m.map.filter fun s => s.record.isOverlapped r.record).foldl DiffMemory.countOut m with
      map := m.map.filter fun s => !s.record.isOverlapped r.record }
    (h.sublist List.filter_sublist) (h.sublist List.filter_sublist)
    (fun s hs => ((hov s).1 hs).2) hapart
  -- nothing that is still in the map meets the new record
  have hfree : ∀ s, s ∈ m₁.map → Apart s r := by
    intro s hs
    rcases (hmem₁ s).1 hs with hs | ⟨t, v, ht, hv, hs⟩
    · obtain ⟨hs, hs'⟩ := (hno s).1 hs
      exact (apart_iff (h.valid s hs) hr).2 hs'
    · obtain ⟨ht, ht'⟩ := (hov t).1 ht
      obtain ⟨v', hv', hpieces⟩ := minus_spec (h.valid t ht) ht'
      obtain rfl := Except.ok.inj (hv.symm.trans hv')
      exact apart_of_not_covers (hpieces.piece s hs).valid hr fun a ha =>
        ((hpieces.covers a).1 ⟨s, hs, ha⟩).2
  have hmem (x : DiffRecIo β) : x ∈ m₁.map ↔ (x ∈ m.map ∧ x.record.isOverlapped r.record = false) ∨
      Left r (m.map.filter fun s => s.record.isOverlapped r.record) x := by
    rw [hmem₁, hno]
  have hcounts (hsize : ∀ s, s ∈ m.map → s.record.ioBlocks ≤ u64) (hc : Counts m m.map) : Counts m₁
      m₁.map := by
    apply hcounts₁
    have hperm : m.map.Perm (m.map.filter (fun s => s.record.isOverlapped r.record) ++
        m.map.filter fun s => !s.record.isOverlapped r.record) :=
      (List.filter_append_perm _ m.map).symm
    exact (hc.perm hperm).foldl_countOut fun s hs => hsize s ((hov s).1 hs).1
  rw [DiffMemory.add]
  dsimp only
  rw [hkept, hq, ofBuf_eq hr, hm₁]
  dsimp only
  split_ifs with hsplit
  · obtain ⟨rv, hrv, hpieces, hsize⟩ := splitAll_spec hr hsplit.1
    obtain ⟨hwf, hmem₂, hmax₂⟩ := hwf₁.foldl_insert (f := DiffMemory.emplace) (m := m₁.countIn r)
      (fun m p => ⟨rfl, rfl⟩) (wf_of_pieces hpieces) fun s hs p hp =>
        ((hfree s hs).symm.piece (hpieces.piece p hp)).symm
    have hmax : m₁.maxIoBlocks = m.maxIoBlocks := hmax₁.trans hcmax
    refine ⟨_, rv, by rw [hrv], ?_⟩
    exact {
      pieces := hpieces
      size := fun _ p hp => hmax ▸ hsize p hp
      wf := hwf
      maxIoBlocks := hmax₂.trans hmax
      mem := fun x => by
        rw [hmem₂, ← hmem]
        rfl
      counts := by
        rintro (hzero | hle)
        · exact absurd (hmax.trans hzero) hsplit.1.ne'
        · exact absurd (hmax ▸ hsplit.2) (not_lt.2 hle) }
  · obtain ⟨hwf, hins⟩ := hwf₁.insert hr hfree
    have hmax : m₁.maxIoBlocks = m.maxIoBlocks := hmax₁.trans hcmax
    refine ⟨_, [r], rfl, ?_⟩
    exact {
      pieces := pieces_singleton hr.piece_self
      size := by
        intro hpos p hp
        rw [List.mem_singleton.1 hp]
        exact not_lt.1 fun hlt => hsplit (hmax.symm ▸ ⟨hpos, hlt⟩)
      wf := hwf
      maxIoBlocks := hmax
      mem := fun x => by
        rw [← hmem, List.mem_singleton]
        exact hins x
      counts := fun _ hsize hc =>
        ((hcounts hsize hc).countIn r).perm (KeyedList.insert_perm r (hwf₁.ne_of_apart hr hfree)).symm }

theorem covers_of_cell {a : Nat} {c : Cell β} (h : r.cell a = some c) : r.record.Covers a := by
  by_contra hn
  rw [cell, if_neg hn] at h
  cases h

/-- The new record hides the old content, and no other change is seen. The items are
pieces of the new record, cut at the maximum size, and of old items. -/
theorem add_content {m : DiffMemory β} (h : WF m.map) (hr : r.Valid) :
    ∃ m', m.add r.record r.io = .ok m' ∧ WF m'.map ∧ m'.map ≠ [] ∧ m'.maxIoBlocks = m.maxIoBlocks ∧
      content m'.map = cover r.cell (content m.map) ∧
      ∀ p, p ∈ m'.map → (Piece r p ∧ (0 < m.maxIoBlocks → p.record.ioBlocks ≤ m.maxIoBlocks)) ∨
        ∃ s, s ∈ m.map ∧ Piece s p := by
  obtain ⟨m', rv, hm', hadded⟩ := add_spec h hr
  have hrv := hadded.pieces
  have hwf := hadded.wf
  have hmem := hadded.mem
  have hleft : ∀ s, s ∈ m.map.filter (fun s => s.record.isOverlapped r.record) →
      s ∈ m.map ∧ ∃ v, s.minus r = .ok v ∧
        Pieces s (fun a => s.record.Covers a ∧ ¬r.record.Covers a) v := by
    intro s hs
    obtain ⟨hs, ho⟩ := List.mem_filter.1 hs
    exact ⟨hs, minus_spec (h.valid s hs) ho⟩
  refine ⟨m', hm', hwf, ?_, hadded.maxIoBlocks, ?_, fun p hp => ?_⟩
  · obtain ⟨p, hp, -⟩ := (hrv.covers r.record.ioAddress).2
      ⟨le_rfl, Nat.lt_add_of_pos_right hr.pos⟩
    exact List.ne_nil_of_mem ((hmem p).2 (.inl hp))
  · funext a
    refine Option.ext fun c => ?_
    rw [content_eq_some_iff hwf.pairwise, cover, Option.or_eq_some_iff, hr.cell_eq_none_iff,
      content_eq_some_iff h.pairwise]
    constructor
    · rintro ⟨x, hx, hc⟩
      rcases (hmem x).1 hx with hx | ⟨hx, ho⟩ | ⟨s, v, hs, hv, hx⟩
      · exact .inl (hrv.cell_iff.1 ⟨x, hx, hc⟩).2
      · have hap := (apart_iff (h.valid x hx) hr).2 ho
        exact .inr ⟨hap.not_covers (covers_of_cell hc), x, hx, hc⟩
      · obtain ⟨hs, v', hv', hpieces⟩ := hleft s hs
        obtain rfl := Except.ok.inj (hv.symm.trans hv')
        obtain ⟨⟨-, hn⟩, hc⟩ := hpieces.cell_iff.1 ⟨x, hx, hc⟩
        exact .inr ⟨hn, s, hs, hc⟩
    · rintro (hc | ⟨hn, s, hs, hc⟩)
      · obtain ⟨p, hp, hpc⟩ := hrv.cell_iff.2 ⟨covers_of_cell hc, hc⟩
        exact ⟨p, (hmem p).2 (.inl hp), hpc⟩
      · by_cases ho : s.record.isOverlapped r.record = true
        · have hs' : s ∈ m.map.filter (fun s => s.record.isOverlapped r.record) :=
            List.mem_filter.2 ⟨hs, ho⟩
          obtain ⟨-, v, hv, hpieces⟩ := hleft s hs'
          obtain ⟨p, hp, hpc⟩ := hpieces.cell_iff.2 ⟨⟨covers_of_cell hc, hn⟩, hc⟩
          exact ⟨p, (hmem p).2 (.inr (.inr ⟨s, v, hs', hv, hp⟩)), hpc⟩
        · exact ⟨s, (hmem s).2 (.inr (.inl ⟨hs, Bool.eq_false_iff.2 ho⟩)), hc⟩
  · rcases (hmem p).1 hp with hp | ⟨hp, -⟩ | ⟨s, v, hs, hv, hp⟩
    · exact .inl ⟨hrv.piece p hp, fun hpos => hadded.size hpos p hp⟩
    · exact .inr ⟨p, hp, (h.valid p hp).piece_self⟩
    · obtain ⟨hs, v', hv', hpieces⟩ := hleft s hs
      obtain rfl := Except.ok.inj (hv.symm.trans hv')
      exact .inr ⟨s, hs, hpieces.piece p hp⟩

end WalbTools.DiffMem
