import Mathlib
import WalbTools.DiffMem

namespace WalbTools.DiffMerge

open Meta (u64)
open Overlay DiffIo DiffIo.DiffRecIo DiffMem

variable {β : Type}

/-- `UINT64_MAX`, the address past all records. -/
def maxAddr : Nat := u64 - 1

/-- A wdiff that has not reached its end: its front record and the rest. -/
structure Wdiff (β : Type) where
  front : DiffRecIo β
  rest : List (DiffRecIo β)

def Wdiff.records (w : Wdiff β) : List (DiffRecIo β) := w.front :: w.rest

def Wdiff.ofRecords : List (DiffRecIo β) → Option (Wdiff β)
  | [] => none
  | r :: rest => some ⟨r, rest⟩

structure Range where
  bgn : Nat
  endAddr : Nat

namespace Range

def ofRecord (r : DiffRecord) : Range := ⟨r.ioAddress, r.endIoAddress⟩

def isOverlapped (r rhs : Range) : Bool := decide (r.bgn < rhs.endAddr) && decide (rhs.bgn < r.endAddr)

def isLeftRight (r rhs : Range) : Bool := decide (r.endAddr ≤ rhs.bgn)

def merge (r rhs : Range) : Range := ⟨min r.bgn rhs.bgn, max r.endAddr rhs.endAddr⟩

def size (r : Range) : Nat := r.endAddr - r.bgn

end Range

/-- The wdiffs stand in list order, the oldest first. -/
structure DiffMerger (β : Type) where
  wdiffs : List (Wdiff β)
  diffMem : DiffMemory β
  mergedQ : List (DiffRecIo β)
  doneAddr : Nat
  searchLen : Nat

/-- The sum is one of `uint64_t` values. -/
def shouldMerge (doneAddr searchLen : Nat) (r : DiffRecord) (minAddr : Nat) : Bool :=
  decide (r.ioAddress < (doneAddr + searchLen) % u64) && decide (r.endIoAddress ≤ minAddr)

structure Pass (β : Type) where
  nr : Nat
  nextDoneAddr : Nat
  minAddr : Nat
  range : Range
  diffMem : DiffMemory β

/-- The inner loop: records are taken from one wdiff while they should be merged. -/
def takeLoop (doneAddr searchLen nextDoneAddr : Nat) :
    List (DiffRecIo β) → Nat → Range → DiffMemory β →
      Except String (List (DiffRecIo β) × Nat × Range × DiffMemory β)
  | [], nr, curRange, mem => .ok ([], nr, curRange, mem)
  | r :: rest, nr, curRange, mem =>
      if shouldMerge doneAddr searchLen r.record nextDoneAddr then
        if rest.head?.any (fun r' => decide (r'.record.ioAddress < r.record.endIoAddress)) then
          .error "Invalid wdiff: IOs must be sorted and not overlapped each other."
        else
          match mem.add r.record r.io with
          | .error e => .error e
          | .ok mem =>
              takeLoop doneAddr searchLen nextDoneAddr rest (nr + 1)
                (curRange.merge (.ofRecord r.record)) mem
      else .ok (r :: rest, nr, curRange, mem)

def nextRange (range curRange : Range) : Except String Range :=
  if range.isOverlapped curRange then .ok (range.merge curRange)
  else if curRange.isLeftRight range then .ok curRange
  else if range.isLeftRight curRange then .ok range
  else .error "range.isLeftRight(curRange)"

def tryLoop (doneAddr searchLen : Nat) : List (Wdiff β) → Pass β →
    Except String (List (Wdiff β) × Pass β)
  | [], p => .ok ([], p)
  | w :: ws, p =>
      let r := w.front.record
      match takeLoop doneAddr searchLen p.nextDoneAddr w.records p.nr (.ofRecord r) p.diffMem with
      | .error e => .error e
      | .ok (records, nr, curRange, mem) =>
          match nextRange p.range curRange with
          | .error e => .error e
          | .ok range =>
              let minAddr := min p.minAddr r.ioAddress
              match Wdiff.ofRecords records with
              | none => tryLoop doneAddr searchLen ws ⟨nr, p.nextDoneAddr, minAddr, range, mem⟩
              | some w =>
                  let nextDoneAddr := min p.nextDoneAddr w.front.record.ioAddress
                  match tryLoop doneAddr searchLen ws ⟨nr, nextDoneAddr, minAddr, range, mem⟩ with
                  | .error e => .error e
                  | .ok (ws, p) => .ok (w :: ws, p)

namespace DiffMerger

def tryMoveToDiffMemory (m : DiffMerger β) : Except String (DiffMerger β × Nat) :=
  match m.wdiffs with
  | [] => .ok ({ m with doneAddr := maxAddr }, 0)
  | w :: ws =>
      let p : Pass β := ⟨0, maxAddr, maxAddr, .ofRecord w.front.record, m.diffMem⟩
      match tryLoop m.doneAddr m.searchLen (w :: ws) p with
      | .error e => .error e
      | .ok (wdiffs, p) =>
          if p.minAddr ≠ maxAddr ∧ p.minAddr ≠ p.range.bgn then .error "minAddr == range.bgn"
          else .ok (⟨wdiffs, p.diffMem, m.mergedQ, p.nextDoneAddr, max m.searchLen p.range.size⟩, p.nr)

def moveToDiffMemory (m : DiffMerger β) : Except String (DiffMerger β) :=
  match m.tryMoveToDiffMemory with
  | .error e => .error e
  | .ok (m, nr) =>
      -- retry with enlarged searchLen
      match if nr = 0 ∧ m.wdiffs ≠ [] then m.tryMoveToDiffMemory else .ok (m, nr) with
      | .error e => .error e
      | .ok (m, nr) => if m.wdiffs ≠ [] ∧ nr = 0 then .error "nr > 0" else .ok m

/-- The items at the front of the map that end at or before `doneAddr`. -/
def moveLoop (doneAddr : Nat) : List (DiffRecIo β) → DiffMemory β → List (DiffRecIo β) →
    DiffMemory β × List (DiffRecIo β)
  | [], mem, q => ({ mem with map := [] }, q)
  | r :: map, mem, q =>
      if doneAddr < r.record.endIoAddress then ({ mem with map := r :: map }, q)
      else moveLoop doneAddr map (mem.countOut r) (q ++ [r])

def moveToMergedQueue (m : DiffMerger β) : DiffMerger β × Bool :=
  if m.diffMem.map = [] then (m, false)
  else
    let (mem, q) := moveLoop m.doneAddr m.diffMem.map m.diffMem m.mergedQ
    ({ m with diffMem := mem, mergedQ := q }, true)

/-- `prepare` on the wdiffs that were added, ended ones included. -/
def prepare (wdiffs : List (List (DiffRecIo β))) (searchLen maxIoBlocks : Nat) :
    Except String (DiffMerger β) :=
  if wdiffs = [] then .error "Wdiffs are not set."
  else
    let ws := wdiffs.filterMap Wdiff.ofRecords
    let minimumAddr := ws.foldl (fun addr w => min addr w.front.record.ioAddress) maxAddr
    .ok ⟨ws, .init maxIoBlocks, [], minimumAddr, searchLen⟩

/-- One turn of the calls of `getAndRemove`: a merged record is returned, or the
queue is filled once more, or (`none`) there is nothing left. -/
def turn (m : DiffMerger β) : Except String (Option (List (DiffRecIo β) × DiffMerger β)) :=
  match m.mergedQ with
  | r :: q => .ok (some ([r], { m with mergedQ := q }))
  | [] =>
      match m.moveToDiffMemory with
      | .error e => .error e
      | .ok m =>
          match m.moveToMergedQueue with
          | (m, true) => .ok (some ([], m))
          | (m, false) => if m.wdiffs = [] then .ok none else .error "wdiffs_.empty()"

/-- The records that `getAndRemove` returns until it returns false. -/
def getAll : Nat → DiffMerger β → Except String (List (DiffRecIo β))
  | 0, _ => .error "out of fuel"
  | fuel + 1, m =>
      match m.turn with
      | .error e => .error e
      | .ok none => .ok []
      | .ok (some (out, m)) =>
          match getAll fuel m with
          | .error e => .error e
          | .ok rs => .ok (out ++ rs)

end DiffMerger

def flat (ws : List (Wdiff β)) : List (DiffRecIo β) := ws.flatMap Wdiff.records

/-- The address that the minimum over the fronts goes down to from `addr`. -/
def minFront (addr : Nat) (ws : List (Wdiff β)) : Nat :=
  ws.foldl (fun addr w => min addr w.front.record.ioAddress) addr

structure Moved (T : List (DiffRecIo β)) (mem mem' : DiffMemory β) : Prop where
  wf : WF mem'.map
  content : content mem'.map = cover (content T) (content mem.map)
  within : ∀ p, p ∈ mem'.map → ∃ s, (s ∈ T ∨ s ∈ mem.map) ∧
    s.record.ioAddress ≤ p.record.ioAddress ∧ p.record.endIoAddress ≤ s.record.endIoAddress
  ne_nil : T ≠ [] ∨ mem.map ≠ [] → mem'.map ≠ []

variable {D S next nr : Nat} {l T T' : List (DiffRecIo β)} {mem mem' mem'' : DiffMemory β}
variable {r : DiffRecIo β} {cur : Range} {ws : List (Wdiff β)}

theorem flat_cons {w : Wdiff β} : flat (w :: ws) = w.records ++ flat ws := List.flatMap_cons

theorem mem_flat : r ∈ flat ws ↔ ∃ w, w ∈ ws ∧ r ∈ w.records := List.mem_flatMap

theorem moved_nil (h : WF mem.map) : Moved [] mem mem :=
  ⟨h, none_cover.symm, fun p hp => ⟨p, .inr hp, le_rfl, le_rfl⟩, fun hn => hn.resolve_left (· rfl)⟩

theorem moved_add (h : WF mem.map) (hr : r.Valid) :
    ∃ mem', mem.add r.record r.io = .ok mem' ∧ Moved [r] mem mem' := by
  obtain ⟨mem', hadd, hwf, hne, -, hc, hp⟩ := add_content h hr
  refine ⟨mem', hadd, hwf, ?_, fun p hmem => ?_, fun _ => hne⟩
  · rw [hc]
    congr 1
  · rcases hp p hmem with ⟨hpiece, -⟩ | ⟨s, hs, hpiece⟩
    · exact ⟨r, .inl (List.mem_singleton_self r), hpiece.begin_le, hpiece.end_le⟩
    · exact ⟨s, .inr hs, hpiece.begin_le, hpiece.end_le⟩

theorem Moved.append (h : Moved T mem mem') (h' : Moved T' mem' mem'') :
    Moved (T ++ T') mem mem'' where
  wf := h'.wf
  content := by rw [h'.content, h.content, content_append, cover_assoc]
  within := by
    intro p hp
    obtain ⟨s, hs, hb, he⟩ := h'.within p hp
    rcases hs with hs | hs
    · exact ⟨s, .inl (List.mem_append_right _ hs), hb, he⟩
    · obtain ⟨t, ht, hb', he'⟩ := h.within s hs
      exact ⟨t, ht.imp_left (List.mem_append_left _), hb'.trans hb, he.trans he'⟩
  ne_nil := by
    rintro (hn | hn)
    · by_cases hT : T = []
      · exact h'.ne_nil (.inl fun hT' => hn (by rw [hT, hT']; rfl))
      · exact h'.ne_nil (.inr (h.ne_nil (.inl hT)))
    · exact h'.ne_nil (.inr (h.ne_nil (.inr hn)))

def grown (cur : Range) (T : List (DiffRecIo β)) : Range :=
  T.foldl (fun c r => c.merge (.ofRecord r.record)) cur

theorem grown_spec (cur : Range) (h : ∀ r, r ∈ T → cur.bgn ≤ r.record.ioAddress) :
    (grown cur T).bgn = cur.bgn ∧ cur.endAddr ≤ (grown cur T).endAddr ∧
      ∀ hi, cur.endAddr ≤ hi → (∀ r, r ∈ T → r.record.endIoAddress ≤ hi) →
      (grown cur T).endAddr ≤ hi := by
  induction T generalizing cur with
  | nil => exact ⟨rfl, le_rfl, fun hi hc _ => hc⟩
  | cons r T ih =>
      have hr := h r List.mem_cons_self
      have hbgn : (cur.merge (.ofRecord r.record)).bgn = cur.bgn := min_eq_left hr
      obtain ⟨hb, he, hhi⟩ := ih (cur.merge (.ofRecord r.record))
        (by rw [hbgn]; exact fun x hx => h x (List.mem_cons_of_mem _ hx))
      refine ⟨hb.trans hbgn, (le_max_left _ _).trans he, fun hi hc hall => hhi hi ?_ ?_⟩
      · exact max_le hc (hall r List.mem_cons_self)
      · exact fun x hx => hall x (List.mem_cons_of_mem _ hx)

/-- The range of a pass begins at the smallest address seen; it grows unless it
gives way to a range on its left. -/
theorem nextRange_spec {range cur : Range} (hr : range.bgn ≤ range.endAddr)
    (hc : cur.bgn ≤ cur.endAddr) :
    ∃ range', nextRange range cur = .ok range' ∧ range'.bgn = min range.bgn cur.bgn ∧
      range'.bgn ≤ range'.endAddr ∧ range'.endAddr ≤ max range.endAddr cur.endAddr ∧
      (range.endAddr ≤ range'.endAddr ∨ cur.endAddr ≤ range.bgn ∧ range' = cur) := by
  rw [nextRange]
  simp only [Range.isOverlapped, Range.isLeftRight, Bool.and_eq_true, decide_eq_true_eq]
  split_ifs with h₁ h₂ h₃
  · refine ⟨_, rfl, rfl, ?_, le_rfl, .inl (le_max_left _ _)⟩
    exact (min_le_left _ _).trans (hr.trans (le_max_left _ _))
  · exact ⟨_, rfl, by omega, hc, le_max_right _ _, .inr ⟨h₂, rfl⟩⟩
  · exact ⟨_, rfl, by omega, hr, le_max_left _ _, .inl le_rfl⟩
  · omega

/-- The inner loop takes a prefix of the wdiff, up to the first record that
should not be merged yet. -/
theorem takeLoop_spec (D S next : Nat) (hl : WF l) (nr : Nat) (cur : Range) (hm : WF mem.map) :
    ∃ T l' mem', takeLoop D S next l nr cur mem =
        .ok (l', nr + T.length, grown cur T, mem') ∧
      l = T ++ l' ∧ Moved T mem mem' ∧ (∀ r, r ∈ T → shouldMerge D S r.record next = true) ∧
      ∀ r, l'.head? = some r → shouldMerge D S r.record next = false := by
  induction l generalizing nr cur mem with
  | nil => exact ⟨[], [], mem, rfl, rfl, moved_nil hm, by simp, by simp⟩
  | cons r rest ih =>
      have hrest := hl.sublist (List.sublist_cons_self r rest)
      rw [takeLoop]
      by_cases hs : shouldMerge D S r.record next = true
      · have hnext : rest.head?.any (fun r' => decide (r'.record.ioAddress <
            r.record.endIoAddress)) = false := by
          cases rest with
          | nil => rfl
          | cons r' rest =>
              have hb := (List.pairwise_cons.1 hl.pairwise).1 r' List.mem_cons_self
              rw [Before] at hb
              simpa using hb
        obtain ⟨mem₁, hadd, hmoved⟩ := moved_add hm (hl.valid r List.mem_cons_self)
        obtain ⟨T, l', mem', htake, hsplit, hmoved', hall, hstop⟩ :=
          ih hrest (nr + 1) (cur.merge (.ofRecord r.record)) hmoved.wf
        refine ⟨r :: T, l', mem', ?_, by rw [hsplit]; rfl, hmoved.append hmoved', fun x hx => ?_, hstop⟩
        · rw [if_pos hs, hnext, if_neg Bool.false_ne_true, hadd]
          dsimp only
          rw [htake, List.length_cons, Nat.add_assoc, Nat.add_comm 1]
          rfl
        · rcases List.mem_cons.1 hx with rfl | hx
          · exact hs
          · exact hall x hx
      · refine ⟨[], r :: rest, mem, if_neg hs, rfl, moved_nil hm, by simp, fun x hx => ?_⟩
        obtain rfl : r = x := by simpa using hx
        exact Bool.eq_false_iff.2 hs

theorem minFront_le (addr : Nat) (ws : List (Wdiff β)) :
    minFront addr ws ≤ addr ∧ ∀ w, w ∈ ws → minFront addr ws ≤ w.front.record.ioAddress := by
  induction ws generalizing addr with
  | nil => exact ⟨le_rfl, by simp⟩
  | cons w ws ih =>
      obtain ⟨hle, hall⟩ := ih (min addr w.front.record.ioAddress)
      refine ⟨hle.trans (min_le_left _ _), fun v hv => ?_⟩
      rcases List.mem_cons.1 hv with rfl | hv
      · exact hle.trans (min_le_right _ _)
      · exact hall v hv

theorem minFront_eq (addr : Nat) (ws : List (Wdiff β)) :
    minFront addr ws = addr ∨ ∃ w, w ∈ ws ∧ minFront addr ws = w.front.record.ioAddress := by
  induction ws generalizing addr with
  | nil => exact .inl rfl
  | cons w ws ih =>
      rcases ih (min addr w.front.record.ioAddress) with he | ⟨v, hv, he⟩
      · rcases le_total addr w.front.record.ioAddress with hle | hle
        · exact .inl (he.trans (min_eq_left hle))
        · exact .inr ⟨w, List.mem_cons_self, he.trans (min_eq_right hle)⟩
      · exact .inr ⟨v, List.mem_cons_of_mem _ hv, he⟩

theorem minFront_append {addr : Nat} {us vs : List (Wdiff β)} :
    minFront addr (us ++ vs) = minFront (minFront addr us) vs := List.foldl_append

theorem minFront_cons {addr : Nat} {w : Wdiff β} :
    minFront addr (w :: ws) = minFront (min addr w.front.record.ioAddress) ws := rfl

theorem flat_append {us vs : List (Wdiff β)} : flat (us ++ vs) = flat us ++ flat vs :=
  List.flatMap_append

theorem flat_ofRecords (l : List (DiffRecIo β)) : flat (Wdiff.ofRecords l).toList = l := by
  cases l with
  | nil => rfl
  | cons r l => exact List.append_nil _

theorem flat_filterMap (ls : List (List (DiffRecIo β))) :
    flat (ls.filterMap Wdiff.ofRecords) = ls.flatten := by
  induction ls with
  | nil => rfl
  | cons l ls ih =>
      cases l with
      | nil => exact ih
      | cons r l => exact congrArg (r :: l ++ ·) ih

theorem content_disjoint {l l' : List (DiffRecIo β)} (h : ∀ r, r ∈ l → ∀ s, s ∈ l' → Before r s) :
    Disjoint (content l) (content l') := by
  refine disjoint_overlay fun f hf => (disjoint_overlay fun g hg => ?_).symm
  obtain ⟨s, hs, rfl⟩ := List.mem_map.1 hf
  obtain ⟨r, hr, rfl⟩ := List.mem_map.1 hg
  exact (Before.disjoint (h r hr s hs)).symm

theorem WF.head_le (h : WF (r :: l)) {s : DiffRecIo β} (hs : s ∈ r :: l) :
    r.record.ioAddress ≤ s.record.ioAddress := by
  rcases List.mem_cons.1 hs with rfl | hs
  · exact le_rfl
  · exact (List.pairwise_cons.1 h.sorted).1 s hs

/-- What a pass does at one wdiff: the records `T` go into the memory and `rest`
is left. -/
structure Visited (D S : Nat) (w : Wdiff β) (p p₁ : Pass β) (T rest : List (DiffRecIo β)) : Prop where
  records : w.records = T ++ rest
  moved : Moved T p.diffMem p₁.diffMem
  nr : p₁.nr = p.nr + T.length
  take : ∀ r, r ∈ T → shouldMerge D S r.record p.nextDoneAddr = true
  stop : ∀ r, rest.head? = some r → shouldMerge D S r.record p.nextDoneAddr = false
  next : p₁.nextDoneAddr = minFront p.nextDoneAddr (Wdiff.ofRecords rest).toList
  minAddr : p₁.minAddr = min p.minAddr w.front.record.ioAddress
  range : nextRange p.range (grown (.ofRecord w.front.record) T) = .ok p₁.range

theorem tryLoop_cons (D S : Nat) (w : Wdiff β) (ws : List (Wdiff β)) (p : Pass β) (hw : WF w.records)
    (hm : WF p.diffMem.map) (hr : p.range.bgn ≤ p.range.endAddr) :
    ∃ T rest p₁, Visited D S w p p₁ T rest ∧
      tryLoop D S (w :: ws) p =
        (tryLoop D S ws p₁).map fun (ws', p') => ((Wdiff.ofRecords rest).toList ++ ws', p') := by
  obtain ⟨T, rest, mem, htake, hsplit, hmoved, hall, hstop⟩ :=
    takeLoop_spec D S p.nextDoneAddr hw p.nr (.ofRecord w.front.record) hm
  have hfront : ∀ r, r ∈ T → w.front.record.ioAddress ≤ r.record.ioAddress := fun r hr =>
    WF.head_le hw (show r ∈ w.records from hsplit ▸ List.mem_append_left _ hr)
  obtain ⟨hbgn, hend, -⟩ := grown_spec (.ofRecord w.front.record) hfront
  have hcur : (grown (.ofRecord w.front.record) T).bgn ≤
      (grown (.ofRecord w.front.record) T).endAddr := by
    rw [hbgn]
    exact (Nat.le_add_right _ _).trans hend
  obtain ⟨range, hrange, -⟩ := nextRange_spec hr hcur
  refine ⟨T, rest, ⟨p.nr + T.length, minFront p.nextDoneAddr (Wdiff.ofRecords rest).toList,
    min p.minAddr w.front.record.ioAddress, range, mem⟩,
    ⟨hsplit, hmoved, rfl, hall, hstop, rfl, rfl, hrange⟩, ?_⟩
  rw [tryLoop]
  dsimp only
  rw [htake]
  dsimp only
  rw [hrange]
  dsimp only
  cases rest with
  | nil =>
      rw [Wdiff.ofRecords]
      dsimp only [Option.toList_none, minFront, List.foldl_nil]
      cases tryLoop D S ws ⟨p.nr + T.length, p.nextDoneAddr, min p.minAddr w.front.record.ioAddress,
        range, mem⟩ with
      | error e => rfl
      | ok x => rfl
  | cons r rest =>
      rw [Wdiff.ofRecords]
      dsimp only [Option.toList_some, minFront, List.foldl_cons, List.foldl_nil]
      cases tryLoop D S ws ⟨p.nr + T.length, min p.nextDoneAddr r.record.ioAddress,
        min p.minAddr w.front.record.ioAddress, range, mem⟩ with
      | error e => rfl
      | ok x => rfl

namespace Visited

variable {w : Wdiff β} {p p₁ : Pass β} {rest : List (DiffRecIo β)}

theorem wf_rest (h : Visited D S w p p₁ T rest) (hw : WF w.records) : WF rest := by
  rw [h.records] at hw
  exact hw.sublist (List.sublist_append_right _ _)

theorem front_le (h : Visited D S w p p₁ T rest) (hw : WF w.records) (hr : r ∈ T) :
    w.front.record.ioAddress ≤ r.record.ioAddress :=
  WF.head_le hw (show r ∈ w.records from h.records ▸ List.mem_append_left _ hr)

theorem range_spec (h : Visited D S w p p₁ T rest) (hw : WF w.records)
    (hr : p.range.bgn ≤ p.range.endAddr) :
    p₁.range.bgn = min p.range.bgn w.front.record.ioAddress ∧ p₁.range.bgn ≤ p₁.range.endAddr ∧
      (∀ hi, p.range.endAddr ≤ hi → (∀ r, r ∈ w.records → r.record.endIoAddress ≤ hi) →
        p₁.range.endAddr ≤ hi) ∧
      (p.range.endAddr ≤ p₁.range.endAddr ∨
        w.front.record.endIoAddress ≤ p.range.bgn ∧ w.front.record.endIoAddress ≤ p₁.range.endAddr) := by
  obtain ⟨hbgn, hend, hhi⟩ := grown_spec (.ofRecord w.front.record) fun r hr => h.front_le hw hr
  have hcur : (grown (.ofRecord w.front.record) T).bgn ≤
      (grown (.ofRecord w.front.record) T).endAddr := by
    rw [hbgn]
    exact (Nat.le_add_right _ _).trans hend
  obtain ⟨range, hrange, hb, hle, hmax, hgrow⟩ := nextRange_spec hr hcur
  obtain rfl := Except.ok.inj (hrange.symm.trans h.range)
  refine ⟨hb.trans (by rw [hbgn]; rfl), hle, fun hi hp hall => hmax.trans (max_le hp (hhi hi ?_ ?_)), ?_⟩
  · exact hall w.front List.mem_cons_self
  · exact fun r hr => hall r (h.records ▸ List.mem_append_left _ hr)
  · refine hgrow.imp_right fun ⟨hleft, heq⟩ => ⟨hend.trans hleft, ?_⟩
    rw [heq]
    exact hend

theorem next_le (h : Visited D S w p p₁ T rest) (hw : WF w.records) :
    ∀ r, r ∈ rest → p₁.nextDoneAddr ≤ r.record.ioAddress := by
  have hrest := h.wf_rest hw
  rw [h.next]
  intro r hr
  cases rest with
  | nil => exact absurd hr List.not_mem_nil
  | cons s rest =>
      exact ((minFront_le _ _).2 ⟨s, rest⟩ (List.mem_singleton_self _)).trans (WF.head_le hrest hr)

end Visited

/-- What a pass over the wdiffs `ws` does: the records `T` go into the memory and
`ws'` are left. -/
structure Passed (D S : Nat) (ws : List (Wdiff β)) (p : Pass β) (ws' : List (Wdiff β)) (p' : Pass β)
    (T : List (DiffRecIo β)) : Prop where
  moved : Moved T p.diffMem p'.diffMem
  nr : p'.nr = p.nr + T.length
  content : content (flat ws) = cover (content (flat ws')) (content T)
  count : (flat ws).length = (flat ws').length + T.length
  wf : ∀ w, w ∈ ws' → WF w.records
  left : ∀ r, r ∈ flat ws' → r ∈ flat ws
  taken : ∀ r, r ∈ T → r ∈ flat ws ∧ r.record.ioAddress < (D + S) % u64 ∧
    r.record.endIoAddress ≤ p.nextDoneAddr
  next : p'.nextDoneAddr = minFront p.nextDoneAddr ws'
  minAddr : p'.minAddr = minFront p.minAddr ws
  bgn : p'.range.bgn = minFront p.range.bgn ws
  bgn_le : p'.range.bgn ≤ p'.range.endAddr
  end_le : ∀ hi, p.range.endAddr ≤ hi → (∀ r, r ∈ flat ws → r.record.endIoAddress ≤ hi) →
    p'.range.endAddr ≤ hi

theorem shouldMerge_iff {record : DiffRecord} :
    shouldMerge D S record next = true ↔
      record.ioAddress < (D + S) % u64 ∧ record.endIoAddress ≤ next := by
  rw [shouldMerge, Bool.and_eq_true, decide_eq_true_eq, decide_eq_true_eq]

/-- The records that a pass takes from later wdiffs end before what is left of the
earlier ones, so that taking them first changes nothing. -/
theorem tryLoop_spec (D S : Nat) (ws : List (Wdiff β)) (p : Pass β) (hws : ∀ w, w ∈ ws → WF w.records)
    (hm : WF p.diffMem.map) (hr : p.range.bgn ≤ p.range.endAddr) :
    ∃ ws' p' T, tryLoop D S ws p = .ok (ws', p') ∧ Passed D S ws p ws' p' T := by
  induction ws generalizing p with
  | nil =>
      exact ⟨[], p, [], rfl, moved_nil hm, rfl, cover_none.symm, rfl, by simp, fun r hr => hr,
        by simp, rfl,
        rfl, rfl, hr, fun hi hhi _ => hhi⟩
  | cons w ws ih =>
      have hw := hws w List.mem_cons_self
      obtain ⟨T, rest, p₁, hv, heq⟩ := tryLoop_cons D S w ws p hw hm hr
      obtain ⟨hbgn, hle, hhi, -⟩ := hv.range_spec hw hr
      obtain ⟨ws', p', T', hrun, hp⟩ :=
        ih p₁ (fun v hv => hws v (List.mem_cons_of_mem _ hv)) hv.moved.wf hle
      have hrest := hv.wf_rest hw
      have hp₁ : p₁.nextDoneAddr ≤ p.nextDoneAddr := hv.next ▸ (minFront_le _ _).1
      have hcomm : Disjoint (DiffMem.content T') (DiffMem.content rest) :=
        content_disjoint fun r hr s hs =>
        (hp.taken r hr).2.2.trans (hv.next_le hw s hs)
      refine ⟨(Wdiff.ofRecords rest).toList ++ ws', p', T ++ T', by rw [heq, hrun]; rfl, ?_⟩
      have hmem : ∀ r, r ∈ flat (w :: ws) ↔ r ∈ T ∨ r ∈ rest ∨ r ∈ flat ws := fun r => by
        rw [flat_cons, hv.records, List.mem_append, List.mem_append, or_assoc]
      exact {
        moved := hv.moved.append hp.moved
        nr := by rw [hp.nr, hv.nr, List.length_append, Nat.add_assoc]
        content := by
          rw [flat_cons, hv.records, flat_append, flat_ofRecords, content_append, content_append,
            content_append, content_append, hp.content, cover_assoc, cover_left_comm hcomm, cover_assoc]
        count := by
          rw [flat_cons, hv.records, flat_append, flat_ofRecords]
          simp only [List.length_append, hp.count]
          omega
        wf := by
          intro v hmemv
          rcases List.mem_append.1 hmemv with hmemv | hmemv
          · cases rest with
            | nil => exact absurd hmemv List.not_mem_nil
            | cons r rest =>
                obtain rfl := List.mem_singleton.1 hmemv
                exact hrest
          · exact hp.wf v hmemv
        left := by
          intro r hr
          rw [flat_append, flat_ofRecords, List.mem_append] at hr
          exact (hmem r).2 (.inr (hr.imp_right (hp.left r)))
        taken := by
          intro r hr
          rcases List.mem_append.1 hr with hr | hr
          · exact ⟨(hmem r).2 (.inl hr), shouldMerge_iff.1 (hv.take r hr)⟩
          · obtain ⟨hin, hlt, hend⟩ := hp.taken r hr
            exact ⟨(hmem r).2 (.inr (.inr hin)), hlt, hend.trans hp₁⟩
        next := by rw [hp.next, hv.next, minFront_append]
        minAddr := by rw [hp.minAddr, hv.minAddr, minFront_cons]
        bgn := by rw [hp.bgn, hbgn, minFront_cons]
        bgn_le := hp.bgn_le
        end_le := by
          intro hi hpe hall
          refine hp.end_le hi (hhi hi hpe fun r hr => hall r ?_) fun r hr =>
            hall r ((hmem r).2 (.inr (.inr hr)))
          rw [flat_cons]
          exact List.mem_append_left _ hr }

/-- When nothing is taken, every front failed its test; and some front that ends
within the range would have passed had the search been long enough: the one that
the range last started from. -/
theorem tryLoop_idle (D S : Nat) (ws : List (Wdiff β)) (p : Pass β) (hws : ∀ w, w ∈ ws → WF w.records)
    (hm : WF p.diffMem.map) (hr : p.range.bgn ≤ p.range.endAddr) (hn : p.range.bgn ≤ p.nextDoneAddr)
    {ws' : List (Wdiff β)} {p' : Pass β} (hrun : tryLoop D S ws p = .ok (ws', p')) (hnr : p'.nr = p.nr) :
    ws' = ws ∧
    (∀ us w vs, ws = us ++ w :: vs → shouldMerge D S w.front.record (minFront p.nextDoneAddr us) =
    false) ∧
    (p.range.endAddr ≤ p'.range.endAddr ∨ ∃ us w vs, ws = us ++ w :: vs ∧
      w.front.record.endIoAddress ≤ minFront p.nextDoneAddr us ∧
      w.front.record.endIoAddress ≤ p'.range.endAddr) := by
  induction ws generalizing p ws' with
  | nil =>
      obtain ⟨rfl, rfl⟩ := Prod.mk.inj (Except.ok.inj hrun)
      exact ⟨rfl, by simp, .inl le_rfl⟩
  | cons w ws ih =>
      have hw := hws w List.mem_cons_self
      have hws' : ∀ v, v ∈ ws → WF v.records := fun v hv => hws v (List.mem_cons_of_mem _ hv)
      obtain ⟨T, rest, p₁, hv, heq⟩ := tryLoop_cons D S w ws p hw hm hr
      obtain ⟨hbgn, hle, -, hgrow⟩ := hv.range_spec hw hr
      obtain ⟨ws'', q, T', hrun', hp⟩ := tryLoop_spec D S ws p₁ hws' hv.moved.wf hle
      rw [heq, hrun'] at hrun
      obtain ⟨rfl, rfl⟩ := Prod.mk.inj (Except.ok.inj hrun)
      have hlen : T.length + T'.length = 0 := by
        have h₁ := hp.nr
        have h₂ := hv.nr
        omega
      obtain rfl : T = [] := List.length_eq_zero_iff.1 (by omega)
      obtain rfl : rest = w.records := hv.records.symm
      have hnext : p₁.nextDoneAddr = min p.nextDoneAddr w.front.record.ioAddress := hv.next
      obtain ⟨rfl, hfail, hex⟩ :=
        ih p₁ hws' hv.moved.wf hle (by rw [hbgn, hnext]; exact min_le_min_right _ hn)
        hrun' (by rw [hp.nr]; omega)
      refine ⟨rfl, ?_, ?_⟩
      · rintro (_ | ⟨u, us⟩) v vs hsplit
        · obtain ⟨rfl, rfl⟩ := List.cons.inj hsplit
          exact hv.stop w.front rfl
        · obtain ⟨rfl, rfl⟩ := List.cons.inj hsplit
          rw [minFront_cons, ← hnext]
          exact hfail us v vs rfl
      · rcases hex with hend | ⟨us, v, vs, rfl, hv₁, hv₂⟩
        · rcases hgrow with hgrow | ⟨hleft, hin⟩
          · exact .inl (hgrow.trans hend)
          · exact .inr ⟨[], w, _, rfl, hleft.trans hn, hin.trans hend⟩
        · refine .inr ⟨w :: us, v, vs, rfl, ?_, hv₂⟩
          rw [minFront_cons, ← hnext]
          exact hv₁

theorem minFront_mono {addr : Nat} {us : List (Wdiff β)} (hws : ∀ w, w ∈ ws → WF w.records)
    (h : ∀ r, r ∈ flat us → r ∈ flat ws) : minFront addr ws ≤ minFront addr us := by
  rcases minFront_eq addr us with heq | ⟨u, hu, heq⟩
  · rw [heq]
    exact (minFront_le addr ws).1
  · obtain ⟨w, hw, hr⟩ := mem_flat.1 (h u.front (mem_flat.2 ⟨u, hu, List.mem_cons_self⟩))
    rw [heq]
    exact ((minFront_le addr ws).2 w hw).trans (WF.head_le (hws w hw) hr)

theorem minFront_le_of_mem_flat {addr : Nat} (hws : ∀ w, w ∈ ws → WF w.records) (hr : r ∈ flat ws) :
    minFront addr ws ≤ r.record.ioAddress := by
  obtain ⟨w, hw, hr⟩ := mem_flat.1 hr
  exact ((minFront_le addr ws).2 w hw).trans (WF.head_le (hws w hw) hr)

namespace DiffMerger

/-- The state of a merger that has returned `out`: the records it has still to
read lie between `lo` and `hi`, and together all of its records say `C`. -/
structure Inv (lo hi L : Nat) (C : Nat → Option (Cell β)) (out : List (DiffRecIo β))
    (m : DiffMerger β) : Prop where
  wf : ∀ w, w ∈ m.wdiffs → WF w.records
  bounds : ∀ r, r ∈ flat m.wdiffs → lo ≤ r.record.ioAddress ∧ r.record.endIoAddress ≤ hi
  search : m.wdiffs ≠ [] → m.searchLen ≤ L
  done : m.doneAddr = minFront maxAddr m.wdiffs
  merged : WF (out ++ m.mergedQ ++ m.diffMem.map)
  before : ∀ r, r ∈ out ++ m.mergedQ → r.record.endIoAddress ≤ m.doneAddr
  within : ∀ r, r ∈ out ++ m.mergedQ ++ m.diffMem.map → r.record.endIoAddress ≤ hi
  content : cover (content (flat m.wdiffs)) (content (out ++ m.mergedQ ++ m.diffMem.map)) = C

variable {lo hi L : Nat} {C : Nat → Option (Cell β)} {out : List (DiffRecIo β)} {m m' : DiffMerger β}

/-- A try that takes nothing leaves a front that a search as far as it went would
have taken. -/
structure Idle (m m' : DiffMerger β) : Prop where
  wdiffs : m'.wdiffs = m.wdiffs
  fail : ∀ us w vs, m.wdiffs = us ++ w :: vs →
    shouldMerge m.doneAddr m.searchLen w.front.record (minFront maxAddr us) = false
  fits : m.doneAddr + m.searchLen < u64 → m'.doneAddr + m'.searchLen < u64
  exists_front : ∃ us w vs, m.wdiffs = us ++ w :: vs ∧
    w.front.record.endIoAddress ≤ minFront maxAddr us ∧
    w.front.record.endIoAddress ≤ m'.doneAddr + m'.searchLen

theorem tryMoveToDiffMemory_spec (h : Inv lo hi L C out m) (hhi : hi ≤ maxAddr) (hL : hi - lo ≤ L)
    (hne : m.wdiffs ≠ []) :
    ∃ m' nr, m.tryMoveToDiffMemory = .ok (m', nr) ∧ Inv lo hi L C out m' ∧ m'.mergedQ = m.mergedQ ∧
      m.searchLen ≤ m'.searchLen ∧ (flat m.wdiffs).length = (flat m'.wdiffs).length + nr ∧
      (0 < nr ∨ m.diffMem.map ≠ [] → m'.diffMem.map ≠ []) ∧ (nr = 0 → Idle m m') ∧
      (L < u64 → u64 ≤ m.doneAddr + m.searchLen → nr = 0) := by
  obtain ⟨w, ws, hcons⟩ := List.exists_cons_of_ne_nil hne
  have hmap : WF m.diffMem.map := h.merged.sublist (List.sublist_append_right _ _)
  have hfront : w.front ∈ flat m.wdiffs :=
    mem_flat.2 ⟨w, hcons ▸ List.mem_cons_self, List.mem_cons_self⟩
  have hbounds := h.bounds w.front hfront
  have hself : w.front.record.ioAddress ≤ w.front.record.endIoAddress := Nat.le_add_right _ _
  have hmax : w.front.record.ioAddress ≤ maxAddr := hself.trans (hbounds.2.trans hhi)
  obtain ⟨ws', p', T, hrun, hp⟩ := tryLoop_spec m.doneAddr m.searchLen m.wdiffs
    ⟨0, maxAddr, maxAddr, .ofRecord w.front.record, m.diffMem⟩ h.wf hmap hself
  have hnr : p'.nr = T.length := hp.nr.trans (Nat.zero_add _)
  have hbgn : p'.range.bgn = m.doneAddr := by
    rw [hp.bgn, h.done, hcons, minFront_cons, minFront_cons, min_eq_right hmax]
    exact congrArg (minFront · ws) (min_self _)
  have hmin : p'.minAddr = m.doneAddr := hp.minAddr.trans h.done.symm
  have hend : p'.range.endAddr ≤ hi := hp.end_le hi hbounds.2 fun r hr => (h.bounds r hr).2
  have hlo : lo ≤ m.doneAddr := by
    rcases minFront_eq maxAddr m.wdiffs with heq | ⟨v, hv, heq⟩
    · rw [h.done, heq]
      exact hbounds.1.trans hmax
    · rw [h.done, heq]
      exact (h.bounds v.front (mem_flat.2 ⟨v, hv, List.mem_cons_self⟩)).1
  have hdone : m.doneAddr ≤ minFront maxAddr ws' := h.done ▸ minFront_mono h.wf hp.left
  refine ⟨⟨ws', p'.diffMem, m.mergedQ, p'.nextDoneAddr, max m.searchLen p'.range.size⟩, p'.nr, ?_,
    ?_, rfl,
    le_max_left _ _, ?_, ?_, ?_, ?_⟩
  · rw [tryMoveToDiffMemory]
    rw [hcons] at hrun ⊢
    dsimp only
    rw [hrun]
    dsimp only
    rw [if_neg]
    rintro ⟨-, hx⟩
    exact hx (hmin.trans hbgn.symm)
  · exact {
      wf := hp.wf
      bounds := fun r hr => h.bounds r (hp.left r hr)
      search := fun _ => max_le (h.search hne) (by rw [Range.size]; omega)
      done := hp.next
      merged := by
        refine ⟨fun r hr => ?_, List.pairwise_append.2
          ⟨h.merged.pairwise.sublist (List.sublist_append_left _ _), hp.moved.wf.pairwise,
            fun r hr s hs => ?_⟩⟩
        · rcases List.mem_append.1 hr with hr | hr
          · exact h.merged.valid r (List.mem_append_left _ hr)
          · exact hp.moved.wf.valid r hr
        · obtain ⟨t, ht, hts, -⟩ := hp.moved.within s hs
          refine le_trans ?_ hts
          rcases ht with ht | ht
          · exact (h.before r hr).trans (h.done ▸ minFront_le_of_mem_flat h.wf (hp.taken t ht).1)
          · exact (List.pairwise_append.1 h.merged.pairwise).2.2 r hr t ht
      before := fun r hr => (h.before r hr).trans (hp.next ▸ hdone)
      within := by
        intro r hr
        rcases List.mem_append.1 hr with hr | hr
        · exact h.within r (List.mem_append_left _ hr)
        · obtain ⟨t, ht, -, hrt⟩ := hp.moved.within r hr
          refine hrt.trans ?_
          rcases ht with ht | ht
          · exact (h.bounds t (hp.taken t ht).1).2
          · exact h.within t (List.mem_append_right _ ht)
      content := by
        rw [← h.content]
        simp only [content_append, hp.moved.content, hp.content, cover_assoc] }
  · rw [hnr]
    exact hp.count
  · rintro (hpos | hmem)
    · exact hp.moved.ne_nil (.inl (List.ne_nil_of_length_pos (hnr ▸ hpos)))
    · exact hp.moved.ne_nil (.inr hmem)
  · intro hzero
    obtain ⟨rfl, hfail, hex⟩ :=
      tryLoop_idle m.doneAddr m.searchLen m.wdiffs _ h.wf hmap hself hmax hrun hzero
    have hle := hp.bgn_le
    have hnext : p'.nextDoneAddr = m.doneAddr := hp.next.trans h.done.symm
    have hreach : p'.range.endAddr ≤ p'.nextDoneAddr + max m.searchLen p'.range.size := by
      have hsize := le_max_right m.searchLen p'.range.size
      rw [Range.size] at hsize ⊢
      omega
    refine ⟨rfl, hfail, fun hfit => ?_, ?_⟩
    · have hu : maxAddr < u64 := by decide
      dsimp only
      rw [Range.size]
      omega
    rcases hex with hle | ⟨us, v, vs, hsplit, hv₁, hv₂⟩
    · exact ⟨[], w, ws, hcons, hbounds.2.trans hhi, hle.trans hreach⟩
    · exact ⟨us, v, vs, hsplit, hv₁, hv₂.trans hreach⟩
  · intro hLu hwrap
    rw [hnr]
    refine List.length_eq_zero_iff.2 (List.eq_nil_iff_forall_not_mem.2 fun r hr => ?_)
    obtain ⟨hin, hlt, -⟩ := hp.taken r hr
    have hle : m.doneAddr ≤ r.record.ioAddress := h.done ▸ minFront_le_of_mem_flat h.wf hin
    have hbound := (Nat.le_add_right r.record.ioAddress r.record.ioBlocks).trans
      ((h.bounds r hin).2.trans hhi)
    have hsearch := h.search hne
    have hu : maxAddr < u64 := by decide
    rw [Nat.mod_eq_sub_mod hwrap, Nat.mod_eq_of_lt (by omega)] at hlt
    omega

/-- The test of `shouldMerge` does not wrap around. -/
def Fits (m : DiffMerger β) : Prop :=
  m.mergedQ = [] → m.wdiffs ≠ [] → m.doneAddr + m.searchLen < u64

theorem tryMoveToDiffMemory_nil (h : Inv lo hi L C out m) (hnil : m.wdiffs = []) :
    m.tryMoveToDiffMemory = .ok (m, 0) := by
  have hdone : { m with doneAddr := maxAddr } = m := by
    have hd := h.done
    rw [hnil] at hd
    cases m
    cases hd
    rfl
  conv_rhs => rw [← hdone]
  rw [tryMoveToDiffMemory, hnil]

theorem moveToDiffMemory_nil (h : Inv lo hi L C out m) (hnil : m.wdiffs = []) :
    m.moveToDiffMemory = .ok m := by
  rw [moveToDiffMemory, tryMoveToDiffMemory_nil h hnil]
  simp [hnil]

/-- The second try, with the length that the first one found, takes a record. -/
theorem Idle.progress (h : Inv lo hi L C out m') (hidle : Idle m m')
    (hfit : m'.doneAddr + m'.searchLen < u64)
    (hfail : ∀ us w vs, m'.wdiffs = us ++ w :: vs →
      shouldMerge m'.doneAddr m'.searchLen w.front.record (minFront maxAddr us) = false) : False := by
  obtain ⟨us, w, vs, hsplit, hend, hreach⟩ := hidle.exists_front
  rw [← hidle.wdiffs] at hsplit
  have hw : w ∈ m'.wdiffs := by
    rw [hsplit]
    exact List.mem_append_right _ List.mem_cons_self
  have hpos : 0 < w.front.record.ioBlocks := ((h.wf w hw).valid w.front List.mem_cons_self).pos
  have htrue : shouldMerge m'.doneAddr m'.searchLen w.front.record (minFront maxAddr us) = true := by
    rw [shouldMerge_iff, Nat.mod_eq_of_lt hfit]
    refine ⟨?_, hend⟩
    rw [DiffRecord.endIoAddress] at hreach
    omega
  rw [hfail us w vs hsplit] at htrue
  cases htrue

theorem moveToDiffMemory_spec (h : Inv lo hi L C out m) (hhi : hi ≤ maxAddr) (hL : hi - lo ≤ L)
    (hne : m.wdiffs ≠ []) (hfit : m.doneAddr + m.searchLen < u64) :
    ∃ m', m.moveToDiffMemory = .ok m' ∧ Inv lo hi L C out m' ∧ m'.mergedQ = m.mergedQ ∧
      m.searchLen ≤ m'.searchLen ∧ (flat m'.wdiffs).length < (flat m.wdiffs).length ∧
      m'.diffMem.map ≠ [] := by
  obtain ⟨m₁, nr, htry, h₁, hq, hs, hcount, hmap, hidle, -⟩ := tryMoveToDiffMemory_spec h hhi hL hne
  rw [moveToDiffMemory, htry]
  dsimp only
  by_cases hnr : nr = 0
  · subst hnr
    have hidle := hidle rfl
    have hne₁ : m₁.wdiffs ≠ [] := hidle.wdiffs ▸ hne
    obtain ⟨m₂, nr, htry₂, h₂, hq₂, hs₂, hcount₂, hmap₂, hidle₂, -⟩ :=
      tryMoveToDiffMemory_spec h₁ hhi hL hne₁
    have hpos : 0 < nr := Nat.pos_of_ne_zero fun hz =>
      hidle.progress h₁ (hidle.fits hfit) (hidle₂ hz).fail
    rw [if_pos ⟨rfl, hne₁⟩, htry₂]
    dsimp only
    rw [if_neg fun hc => hpos.ne' hc.2]
    exact ⟨m₂, rfl, h₂, hq₂.trans hq, hs.trans hs₂, by omega, hmap₂ (.inl hpos)⟩
  · rw [if_neg fun hc => hnr hc.1]
    dsimp only
    rw [if_neg fun hc => hnr hc.2]
    exact ⟨m₁, rfl, h₁, hq, hs, by omega, hmap (.inl (Nat.pos_of_ne_zero hnr))⟩

theorem moveToDiffMemory_wrap (h : Inv lo hi L C out m) (hhi : hi ≤ maxAddr) (hL : hi - lo ≤ L)
    (hLu : L < u64) (hne : m.wdiffs ≠ []) (hwrap : u64 ≤ m.doneAddr + m.searchLen) :
    m.moveToDiffMemory = .error "nr > 0" := by
  obtain ⟨m₁, nr, htry, h₁, -, hs, -, -, hidle, hzero⟩ := tryMoveToDiffMemory_spec h hhi hL hne
  obtain rfl := hzero hLu hwrap
  have hidle := hidle rfl
  have hne₁ : m₁.wdiffs ≠ [] := hidle.wdiffs ▸ hne
  have hdone : m₁.doneAddr = m.doneAddr := by rw [h₁.done, hidle.wdiffs, h.done]
  obtain ⟨m₂, nr, htry₂, -, -, -, -, -, hidle₂, hzero₂⟩ := tryMoveToDiffMemory_spec h₁ hhi hL hne₁
  obtain rfl := hzero₂ hLu (by omega)
  rw [moveToDiffMemory, htry]
  dsimp only
  rw [if_pos ⟨rfl, hne₁⟩, htry₂]
  dsimp only
  rw [if_pos ⟨(hidle₂ rfl).wdiffs ▸ hne₁, rfl⟩]

theorem moveLoop_spec (D : Nat) (map : List (DiffRecIo β)) (mem : DiffMemory β)
    (q : List (DiffRecIo β)) :
    ∃ moved, (moveLoop D map mem q).2 = q ++ moved ∧ moved ++ (moveLoop D map mem q).1.map = map ∧
      (∀ r, r ∈ moved → r.record.endIoAddress ≤ D) ∧
      ((∀ r, r ∈ map → r.record.endIoAddress ≤ D) → (moveLoop D map mem q).1.map = []) := by
  induction map generalizing mem q with
  | nil => exact ⟨[], (List.append_nil q).symm, rfl, by simp, fun _ => rfl⟩
  | cons r map ih =>
      rw [moveLoop]
      split_ifs with hlt
      · refine ⟨[], (List.append_nil q).symm, rfl, by simp, fun hall => ?_⟩
        have hle := hall r List.mem_cons_self
        omega
      · obtain ⟨moved, hq, hmap, hmoved, hall⟩ := ih (mem.countOut r) (q ++ [r])
        refine ⟨r :: moved, by rw [hq, List.append_assoc]; rfl, congrArg (r :: ·) hmap, ?_, ?_⟩
        · exact List.forall_mem_cons.2 ⟨not_lt.1 hlt, hmoved⟩
        · exact fun h => hall fun s hs => h s (List.mem_cons_of_mem _ hs)

theorem moveToMergedQueue_spec (h : Inv lo hi L C out m) (hhi : hi ≤ maxAddr)
    (hne : m.diffMem.map ≠ []) :
    ∃ m', m.moveToMergedQueue = (m', true) ∧ Inv lo hi L C out m' ∧ m'.wdiffs = m.wdiffs ∧
      m'.doneAddr = m.doneAddr ∧ m'.searchLen = m.searchLen ∧
      (m.wdiffs = [] → m'.diffMem.map = []) := by
  obtain ⟨moved, hq, hmap, hle, hall⟩ := moveLoop_spec m.doneAddr m.diffMem.map m.diffMem m.mergedQ
  rw [moveToMergedQueue, if_neg hne]
  generalize moveLoop m.doneAddr m.diffMem.map m.diffMem m.mergedQ = x at hq hmap hall
  obtain ⟨mem, q⟩ := x
  have hsame : out ++ q ++ mem.map = out ++ m.mergedQ ++ m.diffMem.map := by
    rw [← hmap]
    dsimp only at hq ⊢
    rw [hq]
    simp only [List.append_assoc]
  refine ⟨{ m with diffMem := mem, mergedQ := q }, rfl, ?_, rfl, rfl, rfl,
    fun hnil => hall fun r hr => ?_⟩
  · exact {
      wf := h.wf
      bounds := h.bounds
      search := h.search
      done := h.done
      merged := hsame ▸ h.merged
      before := by
        intro r hr
        dsimp only at hq hr
        rw [hq, ← List.append_assoc, List.mem_append] at hr
        exact hr.elim (h.before r) (hle r)
      within := hsame ▸ h.within
      content := hsame ▸ h.content }
  · rw [h.done, hnil]
    exact (h.within r (List.mem_append_right _ hr)).trans hhi

def Turns (m m' : DiffMerger β) : Prop := ∃ out, m.turn = .ok (some (out, m'))

def Reaches : DiffMerger β → DiffMerger β → Prop := Relation.ReflTransGen Turns

/-- The records still to be read, and whether the memory holds any; a turn that
fills the queue makes this smaller. -/
def work (m : DiffMerger β) : Nat := 2 * (flat m.wdiffs).length + min 1 m.diffMem.map.length

/-- A turn either finds the end or returns what comes next in address order. -/
theorem turn_spec (h : Inv lo hi L C out m) (hhi : hi ≤ maxAddr) (hL : hi - lo ≤ L) (hfit : Fits m) :
    (m.turn = .ok none ∧ m.mergedQ = [] ∧ m.wdiffs = [] ∧ m.diffMem.map = []) ∨
    ∃ out' m', m.turn = .ok (some (out', m')) ∧ Inv lo hi L C (out ++ out') m' ∧
      (m'.work < m.work ∧ out' = [] ∨
        m'.work = m.work ∧ m'.mergedQ.length < m.mergedQ.length ∧ out'.length = 1) := by
  rw [turn]
  cases hq : m.mergedQ with
  | cons r q =>
      refine .inr ⟨[r], { m with mergedQ := q }, rfl, ?_, .inr ⟨rfl, Nat.lt_succ_self _, rfl⟩⟩
      have hsame : out ++ [r] ++ q = out ++ m.mergedQ := by rw [hq, List.append_assoc]; rfl
      exact {
        wf := h.wf
        bounds := h.bounds
        search := h.search
        done := h.done
        merged := hsame ▸ h.merged
        before := hsame ▸ h.before
        within := hsame ▸ h.within
        content := hsame ▸ h.content }
  | nil =>
      dsimp only
      by_cases hne : m.wdiffs = []
      · rw [moveToDiffMemory_nil h hne]
        dsimp only
        by_cases hmap : m.diffMem.map = []
        · rw [moveToMergedQueue, if_pos hmap]
          dsimp only
          rw [if_pos hne]
          exact .inl ⟨rfl, rfl, hne, hmap⟩
        · obtain ⟨m', hmove, h', hws, -, -, hempty⟩ := moveToMergedQueue_spec h hhi hmap
          rw [hmove]
          refine .inr ⟨[], m', rfl, by rwa [List.append_nil], .inl ⟨?_, rfl⟩⟩
          have hpos := List.length_pos_iff.2 hmap
          rw [work, work, hws, hempty hne, List.length_nil]
          omega
      · obtain ⟨m₁, hmove, h₁, -, -, hcount, hmap⟩ := moveToDiffMemory_spec h hhi hL hne (hfit hq hne)
        obtain ⟨m', hmove', h', hws, -⟩ := moveToMergedQueue_spec h₁ hhi hmap
        rw [hmove]
        dsimp only
        rw [hmove']
        refine .inr ⟨[], m', rfl, by rwa [List.append_nil], .inl ⟨?_, rfl⟩⟩
        rw [work, work, hws]
        omega

/-- A merger that has nothing left has returned all that its records say. -/
theorem Inv.drained (h : Inv lo hi L C out m) (hq : m.mergedQ = []) (hws : m.wdiffs = [])
    (hmap : m.diffMem.map = []) :
    WF out ∧ (∀ r, r ∈ out → r.record.endIoAddress ≤ hi) ∧ DiffMem.content out = C := by
  have hmerged := h.merged
  have hwithin := h.within
  have hcontent := h.content
  rw [hq, hmap, List.append_nil, List.append_nil] at hmerged hcontent hwithin
  rw [hws] at hcontent
  exact ⟨hmerged, hwithin, none_cover.symm.trans hcontent⟩

/-- The records that a merger returns from `m` on, if no test wraps around. -/
theorem getAll_spec (out : List (DiffRecIo β)) (m : DiffMerger β) (h : Inv lo hi L C out m)
    (hhi : hi ≤ maxAddr) (hL : hi - lo ≤ L) (hfit : ∀ m', Reaches m m' → Fits m') :
    ∃ rs, (∀ n, m.work + rs.length < n → getAll n m = .ok rs) ∧ WF (out ++ rs) ∧
      (∀ r, r ∈ out ++ rs → r.record.endIoAddress ≤ hi) ∧ content (out ++ rs) = C := by
  rcases turn_spec h hhi hL (hfit m .refl) with ⟨hturn, hq, hws, hmap⟩ | ⟨out', m', hturn, h', hwork⟩
  · obtain ⟨hwf, hwithin, hcontent⟩ := h.drained hq hws hmap
    refine ⟨[], fun n hn => ?_, by rwa [List.append_nil], by rwa [List.append_nil],
      by rwa [List.append_nil]⟩
    obtain ⟨n, rfl⟩ := Nat.exists_eq_add_one_of_ne_zero (Nat.ne_zero_of_lt hn)
    rw [getAll, hturn]
  · obtain ⟨rs, hget, hwf, hwithin, hcontent⟩ :=
      getAll_spec (out ++ out') m' h' hhi hL fun m'' hm'' => hfit m'' (.head ⟨out', hturn⟩ hm'')
    rw [List.append_assoc] at hwf hwithin hcontent
    refine ⟨out' ++ rs, fun n hn => ?_, hwf, hwithin, hcontent⟩
    obtain ⟨n, rfl⟩ := Nat.exists_eq_add_one_of_ne_zero (Nat.ne_zero_of_lt hn)
    rw [List.length_append] at hn
    have hturns : m'.work + rs.length < n := by
      rcases hwork with ⟨hlt, hnil⟩ | ⟨heq, -, hone⟩
      · rw [hnil, List.length_nil] at hn
        omega
      · omega
    rw [getAll, hturn]
    dsimp only
    rw [hget n hturns]
termination_by (m.work, m.mergedQ.length)
decreasing_by
  rcases hwork with ⟨hlt, -⟩ | ⟨heq, hlt, -⟩
  · exact .left _ _ hlt
  · rw [heq]
    exact .right _ hlt

theorem fits_of_turn (h : Inv lo hi L C out m) (hhi : hi ≤ maxAddr) (hL : hi - lo ≤ L) (hLu : L < u64)
    {x : Option (List (DiffRecIo β) × DiffMerger β)} (hturn : m.turn = .ok x) : Fits m := by
  intro hq hne
  by_contra hwrap
  rw [turn, hq] at hturn
  dsimp only at hturn
  rw [moveToDiffMemory_wrap h hhi hL hLu hne (by omega)] at hturn
  cases hturn

/-- A merger that comes to its end has never met a sum that wraps around. -/
theorem fits_of_getAll (h : Inv lo hi L C out m) (hhi : hi ≤ maxAddr) (hL : hi - lo ≤ L) (hLu : L < u64)
    {n : Nat} {rs : List (DiffRecIo β)} (hget : getAll n m = .ok rs) (hreach : Reaches m m') :
    Fits m' := by
  induction hreach using Relation.ReflTransGen.head_induction_on generalizing n rs out with
  | refl =>
      cases n with
      | zero => cases hget
      | succ n =>
          rw [getAll] at hget
          cases hturn : m'.turn with
          | error e =>
              rw [hturn] at hget
              cases hget
          | ok x => exact fits_of_turn h hhi hL hLu hturn
  | head hstep _ ih =>
      obtain ⟨out', hstep⟩ := hstep
      cases n with
      | zero => cases hget
      | succ n =>
          rw [getAll, hstep] at hget
          dsimp only at hget
          have hfit := fits_of_turn h hhi hL hLu hstep
          rcases turn_spec h hhi hL hfit with ⟨hturn, -⟩ | ⟨out'', m₂, hturn, h₂, -⟩
          · cases hturn.symm.trans hstep
          · obtain ⟨rfl, rfl⟩ := Prod.mk.inj (Option.some.inj (Except.ok.inj (hturn.symm.trans hstep)))
            split at hget
            · cases hget
            · rename_i hrest
              exact ih h₂ hrest

theorem Inv.fits (h : Inv lo hi L C out m) (hbound : hi + L < u64) : Fits m := by
  intro _ hne
  have hsearch := h.search hne
  obtain ⟨w, ws, hcons⟩ := List.exists_cons_of_ne_nil hne
  have hw : w ∈ m.wdiffs := hcons ▸ List.mem_cons_self
  have hfront := (minFront_le maxAddr m.wdiffs).2 w hw
  have hend := (h.bounds w.front (mem_flat.2 ⟨w, hw, List.mem_cons_self⟩)).2
  rw [← h.done] at hfront
  rw [DiffRecord.endIoAddress] at hend
  omega

theorem Inv.fits_of_reaches (h : Inv lo hi L C out m) (hL : hi - lo ≤ L) (hbound : hi + L < u64)
    (hreach : Reaches m m') : Fits m' := by
  have hhi : hi ≤ maxAddr := by
    have hu : maxAddr + 1 = u64 := by decide
    omega
  induction hreach using Relation.ReflTransGen.head_induction_on generalizing out with
  | refl => exact h.fits hbound
  | head hstep _ ih =>
      obtain ⟨out', hstep⟩ := hstep
      rcases turn_spec h hhi hL (h.fits hbound) with ⟨hturn, -⟩ | ⟨out'', m₂, hturn, h₂, -⟩
      · cases hturn.symm.trans hstep
      · obtain ⟨rfl, rfl⟩ := Prod.mk.inj (Option.some.inj (Except.ok.inj (hturn.symm.trans hstep)))
        exact ih h₂

def maxEnd (wdiffs : List (List (DiffRecIo β))) : Nat :=
  wdiffs.flatten.foldr (fun r e => max r.record.endIoAddress e) 0

/-- Enough turns to read all records and to return what they merge to. -/
def turns (wdiffs : List (List (DiffRecIo β))) : Nat := 2 * wdiffs.flatten.length + maxEnd wdiffs + 1

theorem le_maxEnd {wdiffs : List (List (DiffRecIo β))} (hr : r ∈ wdiffs.flatten) :
    r.record.endIoAddress ≤ maxEnd wdiffs := by
  rw [maxEnd]
  generalize wdiffs.flatten = l at hr
  induction l with
  | nil => exact absurd hr List.not_mem_nil
  | cons s l ih =>
      rcases List.mem_cons.1 hr with rfl | hr
      · exact le_max_left _ _
      · exact (ih hr).trans (le_max_right _ _)

theorem maxEnd_le {wdiffs : List (List (DiffRecIo β))}
    (h : ∀ r, r ∈ wdiffs.flatten → r.record.endIoAddress ≤ hi) :
    maxEnd wdiffs ≤ hi := by
  rw [maxEnd]
  generalize wdiffs.flatten = l at h
  induction l with
  | nil => exact Nat.zero_le _
  | cons s l ih =>
      exact max_le (h s List.mem_cons_self) (ih fun r hr => h r (List.mem_cons_of_mem _ hr))

theorem length_le (h : WF l) {a : Nat} (ha : a ≤ hi)
    (hb : ∀ r, r ∈ l → a ≤ r.record.ioAddress ∧ r.record.endIoAddress ≤ hi) : a + l.length ≤ hi := by
  have hblocks := h.add_blocks_le ha hb
  have hlen := length_le_blocks fun r hr => (h.valid r hr).pos
  omega

theorem prepare_spec (lo hi L : Nat) {wdiffs : List (List (DiffRecIo β))} (hne : wdiffs ≠ [])
    (searchLen maxIoBlocks : Nat)
    (hwf : ∀ l, l ∈ wdiffs → WF l)
    (hbounds : ∀ l, l ∈ wdiffs → ∀ r, r ∈ l → lo ≤ r.record.ioAddress ∧ r.record.endIoAddress ≤ hi ∧
      searchLen ≤ L) :
    ∃ m, prepare wdiffs searchLen maxIoBlocks = .ok m ∧
      Inv lo hi L (DiffMem.content wdiffs.flatten) [] m ∧ m.work = 2 * wdiffs.flatten.length := by
  have hmem : ∀ w, w ∈ wdiffs.filterMap Wdiff.ofRecords → w.records ∈ wdiffs := by
    intro w hw
    obtain ⟨l, hl, hof⟩ := List.mem_filterMap.1 hw
    cases l with
    | nil => cases hof
    | cons r l => exact Option.some.inj hof ▸ hl
  refine ⟨_, by rw [prepare, if_neg hne], ?_, ?_⟩
  swap
  · rw [work, flat_filterMap]
    rfl
  exact {
    wf := fun w hw => hwf _ (hmem w hw)
    bounds := by
      intro r hr
      obtain ⟨w, hw, hr⟩ := mem_flat.1 hr
      exact ⟨(hbounds _ (hmem w hw) r hr).1, (hbounds _ (hmem w hw) r hr).2.1⟩
    search := by
      intro hws
      obtain ⟨w, hw⟩ := List.exists_mem_of_ne_nil _ hws
      exact (hbounds _ (hmem w hw) w.front List.mem_cons_self).2.2
    done := rfl
    merged := ⟨by simp [DiffMemory.init], by simp [DiffMemory.init]⟩
    before := by simp
    within := by simp [DiffMemory.init]
    content := by
      rw [flat_filterMap]
      exact cover_none }

end DiffMerger

def applyRecords (img : Nat → Cell β) (rs : List (DiffRecIo β)) : Nat → Cell β :=
  rs.foldl (fun img r => write r.cell img) img

def applyWdiffs (img : Nat → Cell β) (wdiffs : List (List (DiffRecIo β))) : Nat → Cell β :=
  wdiffs.foldl applyRecords img

theorem applyRecords_eq (img : Nat → Cell β) (rs : List (DiffRecIo β)) :
    applyRecords img rs = write (content rs) img := by
  rw [content, ← foldl_write, List.foldl_map]
  rfl

theorem applyWdiffs_eq (img : Nat → Cell β) (wdiffs : List (List (DiffRecIo β))) :
    applyWdiffs img wdiffs = write (content wdiffs.flatten) img := by
  induction wdiffs generalizing img with
  | nil => rfl
  | cons l ls ih =>
      rw [applyWdiffs, List.foldl_cons]
      exact (ih _).trans (by rw [applyRecords_eq, write_write, List.flatten_cons, content_append])

/-- The calls of `getAndRemove` come to an end and have returned disjoint records
in address order that do to an image what the wdiffs do. -/
def MergesTo (wdiffs : List (List (DiffRecIo β))) (m : DiffMerger β) : Prop :=
  ∃ rs, (∃ N, ∀ n, N ≤ n → m.getAll n = .ok rs) ∧ WF rs ∧ ∀ img,
    applyRecords img rs = applyWdiffs img wdiffs

theorem mergesTo_of_fits {lo hi L : Nat} {wdiffs : List (List (DiffRecIo β))} {m : DiffMerger β}
    (h : DiffMerger.Inv lo hi L (content wdiffs.flatten) [] m) (hhi : hi ≤ maxAddr) (hL : hi - lo ≤ L)
    (hfit : ∀ m', DiffMerger.Reaches m m' → DiffMerger.Fits m') : MergesTo wdiffs m := by
  obtain ⟨rs, hget, hwf, -, hcontent⟩ := DiffMerger.getAll_spec [] m h hhi hL hfit
  refine ⟨rs, ⟨_, fun n hn => hget n hn⟩, hwf, fun img => ?_⟩
  rw [applyRecords_eq, applyWdiffs_eq, ← hcontent, List.nil_append]

/-- The largest end and the larger of the search length and the address span
decide beforehand that no sum wraps around. -/
theorem mergesTo_of_bound {wdiffs : List (List (DiffRecIo β))} {searchLen maxIoBlocks lo hi : Nat}
    (hne : wdiffs ≠ []) (hwf : ∀ l, l ∈ wdiffs → WF l)
    (hbounds : ∀ l, l ∈ wdiffs → ∀ r, r ∈ l → lo ≤ r.record.ioAddress ∧ r.record.endIoAddress ≤ hi)
    (hbound : hi + max searchLen (hi - lo) < u64) :
    ∃ m, DiffMerger.prepare wdiffs searchLen maxIoBlocks = .ok m ∧ MergesTo wdiffs m := by
  obtain ⟨m, hm, h, -⟩ :=
    DiffMerger.prepare_spec lo hi (max searchLen (hi - lo)) hne searchLen maxIoBlocks hwf
    fun l hl r hr => ⟨(hbounds l hl r hr).1, (hbounds l hl r hr).2, le_max_left _ _⟩
  have hhi : hi ≤ maxAddr := by
    have hu : maxAddr + 1 = u64 := by decide
    omega
  exact ⟨m, hm, mergesTo_of_fits h hhi (le_max_right _ _) fun m' =>
    h.fits_of_reaches (le_max_right _ _) hbound⟩

/-- Merged wdiffs of a volume whose end is far from the end of the address space. -/
theorem getAll_of_maxEnd {wdiffs : List (List (DiffRecIo β))} {searchLen : Nat} (maxIoBlocks : Nat)
    (hne : wdiffs ≠ []) (hwf : ∀ l, l ∈ wdiffs → WF l)
    (hbound : DiffMerger.maxEnd wdiffs + max searchLen (DiffMerger.maxEnd wdiffs) < u64) :
    ∃ m rs, DiffMerger.prepare wdiffs searchLen maxIoBlocks = .ok m ∧
      m.getAll (DiffMerger.turns wdiffs) = .ok rs ∧ WF rs ∧
      (∀ r, r ∈ rs → r.record.endIoAddress ≤ DiffMerger.maxEnd wdiffs) ∧
      content rs = content wdiffs.flatten := by
  obtain ⟨m, hm, h, hwork⟩ := DiffMerger.prepare_spec 0 (DiffMerger.maxEnd wdiffs)
    (max searchLen (DiffMerger.maxEnd wdiffs)) hne searchLen maxIoBlocks hwf fun l hl r hr =>
      ⟨Nat.zero_le _, DiffMerger.le_maxEnd (List.mem_flatten_of_mem hl hr), le_max_left _ _⟩
  have hhi : DiffMerger.maxEnd wdiffs ≤ maxAddr := by
    have hu : maxAddr + 1 = u64 := by decide
    omega
  obtain ⟨rs, hget, hwf, hend, hcontent⟩ :=
    DiffMerger.getAll_spec [] m h hhi (le_max_right _ _) fun m' =>
    h.fits_of_reaches (le_max_right _ _) hbound
  have hlen := DiffMerger.length_le hwf (Nat.zero_le _) fun r hr => ⟨Nat.zero_le _, hend r hr⟩
  refine ⟨m, rs, hm, hget _ ?_, hwf, hend, hcontent⟩
  rw [List.nil_append] at hlen
  rw [DiffMerger.turns, hwork]
  omega

namespace DiffMerger

/-- One call of `getAndRemove`: the next record, and the merger that is left. -/
def getAndRemove : Nat → DiffMerger β → Except String (Option (DiffRecIo β × DiffMerger β))
  | 0, _ => .error "out of fuel"
  | fuel + 1, m =>
      match m.turn with
      | .error e => .error e
      | .ok none => .ok none
      | .ok (some ([], m)) => getAndRemove fuel m
      | .ok (some (r :: _, m)) => .ok (some (r, m))

theorem turn_out {out : List (DiffRecIo β)} {m m' : DiffMerger β} (h : m.turn = .ok (some (out, m'))) :
    out = [] ∨ ∃ r, out = [r] := by
  rw [turn] at h
  split at h
  · rename_i r q _
    exact .inr ⟨r, ((Prod.mk.inj (Option.some.inj (Except.ok.inj h))).1).symm⟩
  · split at h
    · cases h
    · split at h
      · exact .inl ((Prod.mk.inj (Option.some.inj (Except.ok.inj h))).1).symm
      · split_ifs at h
        cases h

/-- The first turn of a merger that comes to its end, and what the others return. -/
theorem turn_of_getAll {n : Nat} {m : DiffMerger β} {rs : List (DiffRecIo β)}
    (h : getAll (n + 1) m = .ok rs) :
    m.turn = .ok none ∧ rs = [] ∨
    ∃ out m' rs', m.turn = .ok (some (out, m')) ∧ getAll n m' = .ok rs' ∧ rs = out ++ rs' := by
  rw [getAll] at h
  split at h
  · cases h
  · rename_i hturn
    exact .inl ⟨hturn, (Except.ok.inj h).symm⟩
  · rename_i out m' hturn
    split at h
    · cases h
    · rename_i rs' hrest
      exact .inr ⟨out, m', rs', hturn, hrest, (Except.ok.inj h).symm⟩

theorem getAll_succ {n : Nat} {m : DiffMerger β} {rs : List (DiffRecIo β)} (h : getAll n m = .ok rs) :
    getAll (n + 1) m = .ok rs := by
  induction n generalizing m rs with
  | zero => cases h
  | succ n ih =>
      rcases turn_of_getAll h with ⟨hturn, rfl⟩ | ⟨out, m', rs', hturn, hrest, rfl⟩
      · rw [getAll, hturn]
      · rw [getAll, hturn]
        dsimp only
        rw [ih hrest]

theorem getAll_mono {n n' : Nat} {m : DiffMerger β} {rs : List (DiffRecIo β)}
    (h : getAll n m = .ok rs) (hle : n ≤ n') :
    getAll n' m = .ok rs := by
  induction hle with
  | refl => exact h
  | step _ ih => exact getAll_succ ih

theorem getAndRemove_nil {n : Nat} {m : DiffMerger β} (h : getAll n m = .ok []) :
    m.getAndRemove n = .ok none := by
  induction n generalizing m with
  | zero => cases h
  | succ n ih =>
      rw [getAndRemove]
      rcases turn_of_getAll h with ⟨hturn, -⟩ | ⟨out, m', rs', hturn, hrest, hrs⟩
      · rw [hturn]
      · obtain ⟨rfl, rfl⟩ := List.append_eq_nil_iff.1 hrs.symm
        rw [hturn]
        exact ih hrest

/-- A call returns the first of the records to come and leaves the others. -/
theorem getAndRemove_cons {n : Nat} {m : DiffMerger β} {r : DiffRecIo β} {rs : List (DiffRecIo β)}
    (h : getAll n m = .ok (r :: rs)) : ∃ m', m.getAndRemove n = .ok (some (r, m')) ∧
      getAll n m' = .ok rs := by
  induction n generalizing m with
  | zero => cases h
  | succ n ih =>
      rw [getAndRemove]
      rcases turn_of_getAll h with ⟨-, hnil⟩ | ⟨out, m', rs', hturn, hrest, hrs⟩
      · cases hnil
      · rw [hturn]
        rcases turn_out hturn with rfl | ⟨r', rfl⟩
        · obtain rfl : r :: rs = rs' := hrs
          obtain ⟨m'', hget, hall⟩ := ih hrest
          exact ⟨m'', hget, getAll_succ hall⟩
        · obtain ⟨rfl, rfl⟩ := List.cons.inj hrs
          exact ⟨m', rfl, getAll_succ hrest⟩

section Kept

def Hereditary (P : DiffRecIo β → Prop) : Prop := ∀ r p, P r → Piece r p → P p

/-- A record of the kind `P`, cut at the maximum size `M`, gives pieces of the kind `Q`,
and cutting those further does too. -/
structure Cuts (P Q : DiffRecIo β → Prop) (M : Nat) : Prop where
  piece : ∀ r p, P r → Piece r p → (0 < M → p.record.ioBlocks ≤ M) → Q p
  hereditary : Hereditary Q

structure Stored (Q : DiffRecIo β → Prop) (M : Nat) (mem : DiffMemory β) : Prop where
  wf : WF mem.map
  maxIoBlocks : mem.maxIoBlocks = M
  mem : ∀ r, r ∈ mem.map → Q r

/-- The records that the merger has still to read are of the kind `P`, the others of
the kind `Q`. -/
structure Kept (P Q : DiffRecIo β → Prop) (M : Nat) (m : DiffMerger β) : Prop where
  wdiffs : ∀ w, w ∈ m.wdiffs → WF w.records ∧ ∀ r, r ∈ w.records → P r
  stored : Stored Q M m.diffMem
  queue : ∀ r, r ∈ m.mergedQ → Q r

variable {P Q : DiffRecIo β → Prop} {M : Nat} {m m' : DiffMerger β}

theorem Stored.add (hP : Cuts P Q M) (h : Stored Q M mem) (hr : r.Valid) (hPr : P r)
    (hadd : mem.add r.record r.io = .ok mem') : Stored Q M mem' := by
  obtain ⟨mem₁, hadd₁, hwf, -, hmax, -, hpiece⟩ := add_content h.wf hr
  obtain rfl := Except.ok.inj (hadd₁.symm.trans hadd)
  refine ⟨hwf, hmax.trans h.maxIoBlocks, fun p hp => ?_⟩
  rcases hpiece p hp with ⟨hrp, hsize⟩ | ⟨s, hs, hsp⟩
  · exact hP.piece r p hPr hrp (h.maxIoBlocks ▸ hsize)
  · exact hP.hereditary s p (h.mem s hs) hsp

theorem takeLoop_kept (hP : Cuts P Q M) (hl : WF l) (hlP : ∀ r, r ∈ l → P r) (h : Stored Q M mem)
    {l' : List (DiffRecIo β)} {nr' : Nat} {cur' : Range}
    (hrun : takeLoop D S next l nr cur mem = .ok (l', nr', cur', mem')) :
    (WF l' ∧ ∀ r, r ∈ l' → P r) ∧ Stored Q M mem' := by
  induction l generalizing nr cur mem with
  | nil =>
      cases hrun
      exact ⟨⟨hl, hlP⟩, h⟩
  | cons r rest ih =>
      rw [takeLoop] at hrun
      split_ifs at hrun
      · split at hrun
        · cases hrun
        · rename_i mem₁ hadd
          have h₁ := h.add hP (hl.valid r List.mem_cons_self) (hlP r List.mem_cons_self) hadd
          exact ih (hl.sublist (List.sublist_cons_self r rest))
            (fun s hs => hlP s (List.mem_cons_of_mem _ hs)) h₁ hrun
      · cases hrun
        exact ⟨⟨hl, hlP⟩, h⟩

theorem tryLoop_kept (hP : Cuts P Q M) {p p' : Pass β} {ws' : List (Wdiff β)}
    (hws : ∀ w, w ∈ ws → WF w.records ∧ ∀ r, r ∈ w.records → P r) (h : Stored Q M p.diffMem)
    (hrun : tryLoop D S ws p = .ok (ws', p')) :
    (∀ w, w ∈ ws' → WF w.records ∧ ∀ r, r ∈ w.records → P r) ∧ Stored Q M p'.diffMem := by
  induction ws generalizing p ws' with
  | nil =>
      cases hrun
      exact ⟨hws, h⟩
  | cons w ws ih =>
      rw [List.forall_mem_cons] at hws
      rw [tryLoop] at hrun
      dsimp only at hrun
      split at hrun
      · cases hrun
      · rename_i records nr curRange mem htake
        obtain ⟨⟨hwf, hall⟩, h'⟩ := takeLoop_kept hP hws.1.1 hws.1.2 h htake
        split at hrun
        · cases hrun
        · cases records with
          | nil => exact ih hws.2 h' hrun
          | cons r rest =>
              dsimp only [Wdiff.ofRecords] at hrun
              split at hrun
              · cases hrun
              · rename_i ws₁ p₁ hrest
                obtain ⟨rfl, rfl⟩ := Prod.mk.inj (Except.ok.inj hrun)
                obtain ⟨hws₁, hmem₁⟩ := ih hws.2 (p := ⟨_, _, _, _, mem⟩) h' hrest
                exact ⟨List.forall_mem_cons.2 ⟨⟨hwf, hall⟩, hws₁⟩, hmem₁⟩

theorem Kept.tryMoveToDiffMemory (hP : Cuts P Q M) (h : Kept P Q M m) {nr : Nat}
    (hrun : m.tryMoveToDiffMemory = .ok (m', nr)) : Kept P Q M m' := by
  rw [DiffMerger.tryMoveToDiffMemory] at hrun
  split at hrun
  · obtain ⟨rfl, -⟩ := Prod.mk.inj (Except.ok.inj hrun)
    exact ⟨h.wdiffs, h.stored, h.queue⟩
  · rename_i w ws hcons
    dsimp only at hrun
    split at hrun
    · cases hrun
    · rename_i ws' p' htry
      split_ifs at hrun
      obtain ⟨rfl, -⟩ := Prod.mk.inj (Except.ok.inj hrun)
      obtain ⟨hws, hstored⟩ := tryLoop_kept hP (hcons ▸ h.wdiffs) h.stored htry
      exact ⟨hws, hstored, h.queue⟩

theorem Kept.moveToDiffMemory (hP : Cuts P Q M) (h : Kept P Q M m) (hrun : m.moveToDiffMemory = .ok m') :
    Kept P Q M m' := by
  rw [DiffMerger.moveToDiffMemory] at hrun
  split at hrun
  · cases hrun
  · rename_i m₁ nr₁ htry
    have h₁ := h.tryMoveToDiffMemory hP htry
    split at hrun
    · cases hrun
    · rename_i m₂ nr₂ hretry
      split_ifs at hrun
      obtain rfl := Except.ok.inj hrun
      split_ifs at hretry
      · exact h₁.tryMoveToDiffMemory hP hretry
      · obtain ⟨rfl, -⟩ := Prod.mk.inj (Except.ok.inj hretry)
        exact h₁

theorem moveLoop_maxIoBlocks (doneAddr : Nat) (map : List (DiffRecIo β)) (mem : DiffMemory β)
    (q : List (DiffRecIo β)) :
    (moveLoop doneAddr map mem q).1.maxIoBlocks = mem.maxIoBlocks := by
  induction map generalizing mem q with
  | nil => rfl
  | cons r map ih =>
      rw [moveLoop]
      split_ifs
      · rfl
      · rw [ih, countOut_maxIoBlocks]

theorem Kept.moveToMergedQueue (h : Kept P Q M m) : Kept P Q M m.moveToMergedQueue.1 := by
  rw [DiffMerger.moveToMergedQueue]
  split_ifs
  · exact h
  · obtain ⟨moved, hq, hmap, -⟩ := moveLoop_spec m.doneAddr m.diffMem.map m.diffMem m.mergedQ
    have hsub : (moveLoop m.doneAddr m.diffMem.map m.diffMem m.mergedQ).1.map.Sublist m.diffMem.map := by
      conv_rhs => rw [← hmap]
      exact List.sublist_append_right moved _
    have hmax := (moveLoop_maxIoBlocks m.doneAddr m.diffMem.map m.diffMem m.mergedQ).trans
      h.stored.maxIoBlocks
    refine ⟨h.wdiffs, ⟨h.stored.wf.sublist hsub, hmax, fun r hr => h.stored.mem r (hsub.subset hr)⟩,
      fun r hr => ?_⟩
    change r ∈ (moveLoop m.doneAddr m.diffMem.map m.diffMem m.mergedQ).2 at hr
    rw [hq, List.mem_append] at hr
    exact hr.elim (h.queue r) fun hr => h.stored.mem r (hmap ▸ List.mem_append_left _ hr)

theorem Kept.turn (hP : Cuts P Q M) (h : Kept P Q M m) {out : List (DiffRecIo β)}
    (hrun : m.turn = .ok (some (out, m'))) :
    Kept P Q M m' ∧ ∀ r, r ∈ out → Q r := by
  rw [DiffMerger.turn] at hrun
  split at hrun
  · rename_i r q hq
    obtain ⟨rfl, rfl⟩ := Prod.mk.inj (Option.some.inj (Except.ok.inj hrun))
    have hall := List.forall_mem_cons.1 (hq ▸ h.queue)
    exact ⟨⟨h.wdiffs, h.stored, hall.2⟩, List.forall_mem_singleton.2 hall.1⟩
  · split at hrun
    · cases hrun
    · rename_i m₁ hmove
      have h₁ := (h.moveToDiffMemory hP hmove).moveToMergedQueue
      split at hrun
      · rename_i m₂ hmerged
        obtain ⟨rfl, rfl⟩ := Prod.mk.inj (Option.some.inj (Except.ok.inj hrun))
        rw [hmerged] at h₁
        exact ⟨h₁, fun _ hr => absurd hr List.not_mem_nil⟩
      · split_ifs at hrun
        cases hrun

/-- What is merged from records of a kind is of the kind of their pieces. -/
theorem Kept.getAll (hP : Cuts P Q M) (h : Kept P Q M m) {n : Nat} {rs : List (DiffRecIo β)}
    (hget : m.getAll n = .ok rs) : ∀ r, r ∈ rs → Q r := by
  induction n generalizing m rs with
  | zero => cases hget
  | succ n ih =>
      rcases turn_of_getAll hget with ⟨-, rfl⟩ | ⟨out, m', rs', hturn, hrest, rfl⟩
      · exact fun _ hr => absurd hr List.not_mem_nil
      · obtain ⟨h', hout⟩ := h.turn hP hturn
        exact fun r hr => (List.mem_append.1 hr).elim (hout r) (ih h' hrest r)

theorem prepare_kept (Q : DiffRecIo β → Prop) {wdiffs : List (List (DiffRecIo β))}
    (hwf : ∀ l, l ∈ wdiffs → WF l)
    (hP : ∀ l, l ∈ wdiffs → ∀ r, r ∈ l → P r) {searchLen maxIoBlocks : Nat}
    (hrun : prepare wdiffs searchLen maxIoBlocks = .ok m) : Kept P Q maxIoBlocks m := by
  rw [prepare] at hrun
  split_ifs at hrun
  obtain rfl := Except.ok.inj hrun
  refine ⟨fun w hw => ?_, ⟨WF.nil, rfl, fun _ hr => absurd hr List.not_mem_nil⟩,
    fun _ hr => absurd hr List.not_mem_nil⟩
  obtain ⟨l, hl, hof⟩ := List.mem_filterMap.1 hw
  cases l with
  | nil => cases hof
  | cons r l =>
      obtain rfl := Option.some.inj hof
      exact ⟨hwf _ hl, hP _ hl⟩

end Kept

end DiffMerger

/-- The merge preserves the meaning of the wdiffs exactly when no pass over
remaining wdiffs starts with `doneAddr + searchLen` past the last address. -/
theorem merges_iff_fits (wdiffs : List (List (DiffRecIo β))) (searchLen maxIoBlocks : Nat)
    (hwf : ∀ l, l ∈ wdiffs → WF l)
    (hend : ∀ l, l ∈ wdiffs → ∀ r, r ∈ l → r.record.endIoAddress + searchLen < u64) :
    wdiffs = [] ∧ DiffMerger.prepare wdiffs searchLen maxIoBlocks = .error "Wdiffs are not set." ∨
    ∃ m, DiffMerger.prepare wdiffs searchLen maxIoBlocks = .ok m ∧
      (MergesTo wdiffs m ↔ ∀ m', DiffMerger.Reaches m m' → DiffMerger.Fits m') := by
  by_cases hne : wdiffs = []
  · exact .inl ⟨hne, if_pos hne⟩
  have hu : maxAddr + 1 = u64 := by decide
  obtain ⟨m, hm, h, -⟩ := DiffMerger.prepare_spec 0 maxAddr maxAddr hne searchLen maxIoBlocks hwf
    fun l hl r hr => by
      have hr := hend l hl r hr
      omega
  refine .inr ⟨m, hm, fun ⟨rs, ⟨N, hN⟩, _⟩ m' hm' => ?_, mergesTo_of_fits h le_rfl (Nat.sub_le _ _)⟩
  exact DiffMerger.fits_of_getAll h le_rfl (Nat.sub_le _ _) (by omega) (hN N le_rfl) hm'

theorem wf_singleton (h : r.Valid) : WF [r] := ⟨by simpa using h, List.pairwise_singleton _ _⟩

theorem merges_iff_fits_two :
    let wdiffs : List (List (DiffRecIo Nat)) :=
      [[⟨⟨0, 2, 1024, .normal⟩, [7, 8]⟩], [⟨⟨1, 2, 0, .discard⟩, []⟩]]
    wdiffs = [] ∧ DiffMerger.prepare wdiffs 1 0 = .error "Wdiffs are not set." ∨
    ∃ m, DiffMerger.prepare wdiffs 1 0 = .ok m ∧
      (MergesTo wdiffs m ↔ ∀ m', DiffMerger.Reaches m m' → DiffMerger.Fits m') := by
  refine merges_iff_fits _ 1 0 (fun l hl => ?_) (by decide +kernel)
  rcases List.mem_cons.1 hl with rfl | hl
  · exact wf_singleton ⟨by decide, fun _ => rfl, fun _ => rfl, fun h => absurd rfl h⟩
  · obtain rfl := List.mem_singleton.1 hl
    exact wf_singleton ⟨by decide, nofun, nofun, fun _ => rfl⟩

/-- The second record lies so far behind the long first one that `doneAddr` plus
the length of the first one is 2^64. -/
def farRecords : List (DiffRecIo Nat) :=
  [⟨⟨0, 2 ^ 32 - 1, 0, .allZero⟩, []⟩, ⟨⟨2 ^ 64 - 2 ^ 32 + 1, 1, 0, .allZero⟩, []⟩]

theorem far_records_not_merged :
    (∀ l, l ∈ [farRecords] → WF l) ∧
    (∀ l, l ∈ [farRecords] → ∀ r, r ∈ l → r.record.endIoAddress + 1 < u64) ∧
    ∃ m, DiffMerger.prepare [farRecords] 1 0 = .ok m ∧ ¬MergesTo [farRecords] m ∧
      ∀ n, m.getAll (n + 3) = .error "nr > 0" := by
  have hget (n : Nat) : DiffMerger.getAll (n + 3) (⟨[⟨⟨⟨0, 2 ^ 32 - 1, 0, .allZero⟩, []⟩,
      [⟨⟨2 ^ 64 - 2 ^ 32 + 1, 1, 0, .allZero⟩, []⟩]⟩], .init 0, [], 0, 1⟩ : DiffMerger Nat) =
        .error "nr > 0" := rfl
  refine ⟨fun l hl => ?_, by decide +kernel, _, rfl, ?_, hget⟩
  · obtain rfl := List.mem_singleton.1 hl
    refine ⟨?_, List.pairwise_pair.2 (by decide +kernel : 2 ^ 32 - 1 ≤ 2 ^ 64 - 2 ^ 32 + 1)⟩
    exact List.forall_mem_cons.2 ⟨⟨by decide, nofun, nofun, fun _ => rfl⟩,
      List.forall_mem_singleton.2 ⟨by decide, nofun, nofun, fun _ => rfl⟩⟩
  · rintro ⟨rs, ⟨N, hN⟩, -⟩
    cases (hN (N + 3) (Nat.le_add_right _ _)).symm.trans (hget N)

end WalbTools.DiffMerge
