import Mathlib
import WalbTools.GidRangeManager
import WalbTools.Unfold

namespace WalbTools.DiffManager

open Meta GidRangeManager Unfold

/-- An element of the multimap; `it` stands for its iterator. -/
structure Node where
  it : Nat
  diff : MetaDiff
  deriving DecidableEq

def Node.key (n : Node) : Nat := n.diff.snapB.gidB

/-- The multimap, the range index over its iterators, and the next iterator
that was never used. -/
structure MetaDiffManager where
  mmap : List Node
  rangeMgr : RangeMap
  nextIt : Nat
  deriving DecidableEq

namespace MetaDiffManager

def empty : MetaDiffManager := ⟨[], [], 0⟩

def diffs (m : MetaDiffManager) : List MetaDiff := m.mmap.map Node.diff

def searchNolock (m : MetaDiffManager) (diff : MetaDiff) : Option Node :=
  (KeyedList.equalRange Node.key diff.snapB.gidB m.mmap).find? (fun n => decide (diff.opEq n.diff))

def emplace (m : MetaDiffManager) (diff : MetaDiff) : MetaDiffManager where
  mmap := KeyedList.emplace Node.key ⟨m.nextIt, diff⟩ m.mmap
  rangeMgr := GidRangeManager.add m.rangeMgr m.nextIt diff
  nextIt := m.nextIt + 1

def addNolock (m : MetaDiffManager) (diff : MetaDiff) : Except String MetaDiffManager :=
  match m.searchNolock diff with
  | some _ => .error "MetaDiffManager::add:already exists"
  | none => .ok (m.emplace diff)

def removeNode (m : MetaDiffManager) (n : Node) : MetaDiffManager :=
  { m with
    mmap := m.mmap.filter (fun n' => decide (n'.it ≠ n.it))
    rangeMgr := GidRangeManager.remove m.rangeMgr n.it n.diff }

def eraseNolock (m : MetaDiffManager) (diff : MetaDiff) (doesThrowError : Bool) :
    Except String MetaDiffManager :=
  match m.searchNolock diff with
  | none => if doesThrowError then .error "MetaDiffManager::erase:not found" else .ok m
  | some n => .ok (m.removeNode n)

/-- `add` on each diff in turn; an exception leaves the state reached so far. -/
def addVec : MetaDiffManager → List MetaDiff → MetaDiffManager × Except String Unit
  | m, [] => (m, .ok ())
  | m, d :: v =>
      match m.addNolock d with
      | .ok m => addVec m v
      | .error e => (m, .error e)

def eraseVec : MetaDiffManager → List MetaDiff → Bool → MetaDiffManager × Except String Unit
  | m, [], _ => (m, .ok ())
  | m, d :: v, doesThrowError =>
      match m.eraseNolock d doesThrowError with
      | .ok m => eraseVec m v doesThrowError
      | .error e => (m, .error e)

def clear (m : MetaDiffManager) : MetaDiffManager := { m with mmap := [], rangeMgr := [] }

def reset (m : MetaDiffManager) (v : List MetaDiff) : MetaDiffManager × Except String Unit :=
  m.clear.addVec v

/-- The diffs starting at `gid` whose flag differs from the wanted one are
changed in place and returned. -/
def changeSnapshot (m : MetaDiffManager) (gid : Nat) (enable : Bool) :
    MetaDiffManager × Bool × List MetaDiff :=
  let range := KeyedList.equalRange Node.key gid m.mmap
  let flip (d : MetaDiff) : MetaDiff :=
    if d.isMergeable = enable then { d with isMergeable := !enable } else d
  if range.isEmpty then (m, false, [])
  else
    ({ m with mmap := m.mmap.map (fun n => if n.key = gid then { n with diff := flip n.diff } else n) },
      true, (range.filter (fun n => n.diff.isMergeable = enable)).map (fun n => flip n.diff))

/-- The loops of `gcRange` and `eraseBeforeGid`: nodes are visited in key order
until `stop`, and removed where `hit`. -/
def eraseLoop (stop hit : MetaDiff → Bool) :
    List Node → MetaDiffManager → MetaDiffManager × List MetaDiff
  | [], m => (m, [])
  | n :: l, m =>
      if stop n.diff then (m, [])
      else if hit n.diff then
        let r := eraseLoop stop hit l (m.removeNode n)
        (r.1, n.diff :: r.2)
      else eraseLoop stop hit l m

def gcRange (m : MetaDiffManager) (gidB gidE : Nat) : MetaDiffManager × List MetaDiff :=
  eraseLoop (fun d => decide (d.snapB.gidB ≥ gidE))
    (fun d => decide (gidB ≤ d.snapB.gidB ∧ d.snapE.gidB ≤ gidE ∧
      ¬(gidB = d.snapB.gidB ∧ gidE = d.snapE.gidB)))
    (KeyedList.lowerBound Node.key gidB m.mmap) m

def eraseBeforeGid (m : MetaDiffManager) (gid : Nat) : MetaDiffManager × List MetaDiff :=
  eraseLoop (fun d => decide (gid ≤ d.snapB.gidB)) (fun d => decide (d.snapE.gidB ≤ gid)) m.mmap m

def deref (m : MetaDiffManager) (it : Nat) : Option MetaDiff :=
  (m.mmap.find? (fun n => decide (n.it = it))).map Node.diff

end MetaDiffManager

/-- The loop of `getMaxProgressDiff` from its first element. -/
def maxProgressFrom : MetaDiff → List MetaDiff → MetaDiff
  | diff, [] => diff
  | diff, d :: v =>
      if diff.snapE.gidB < d.snapE.gidB ∨
          (diff.snapE.gidB = d.snapE.gidB ∧ diff.snapB.gidB < d.snapB.gidB) then
        maxProgressFrom d v
      else maxProgressFrom diff v

def getMaxProgressDiff : List MetaDiff → Except String MetaDiff
  | [] => .error "getMaxProgressDiff:empty"
  | d :: v => .ok (maxProgressFrom d v)

namespace MetaDiffManager

def getApplicableCandidatesNolock (m : MetaDiffManager) (snap : MetaSnap) : List MetaDiff :=
  ((search m.rangeMgr snap.gidB).filterMap m.deref).filter (fun d => decide (canApply snap d))

def getMergeableCandidatesNolock (m : MetaDiffManager) (diff : MetaDiff) : List MetaDiff :=
  ((search m.rangeMgr diff.snapE.gidB).filterMap m.deref).filter
    (fun d => decide (¬diff.opEq d ∧ canMerge diff d))

def getApplicableDiffNolock (m : MetaDiffManager) (snap : MetaSnap) : Option MetaDiff :=
  (getMaxProgressDiff (m.getApplicableCandidatesNolock snap)).toOption

/-- One turn of the loop of `getApplicableDiffList`. -/
def applicableStep (m : MetaDiffManager) (pred : MetaDiff → MetaSnap → Bool) (s : MetaSnap) :
    Option (MetaDiff × MetaSnap) :=
  match m.getApplicableDiffNolock s with
  | none => none
  | some d => if pred d (applied s d) then some (d, applied s d) else none

/-- The source loops without a bound; every turn uses up a stored diff. -/
def getApplicableDiffList (m : MetaDiffManager) (snap : MetaSnap)
    (pred : MetaDiff → MetaSnap → Bool) : List MetaDiff :=
  unfold (m.applicableStep pred) (m.mmap.length + 1) snap

def always : MetaDiff → MetaSnap → Bool := fun _ _ => true

/-- Garbage collection keeps the diffs of the greedy list only. -/
def gc (m : MetaDiffManager) (snap : MetaSnap) :
    MetaDiffManager × Except String (List MetaDiff) :=
  let v := m.getApplicableDiffList snap always
  let erased := (m.eraseVec v false).1
  let placed := erased.clear.addVec v
  (placed.1, placed.2.map (fun _ => erased.diffs))

end MetaDiffManager

/-- The diff covers a gid: it applies to the snapshots that begin there. -/
def Covers (d : MetaDiff) (x : Nat) : Prop := d.snapB.gidB ≤ x ∧ x < d.snapE.gidB

instance (d : MetaDiff) (x : Nat) : Decidable (Covers d x) := inferInstanceAs (Decidable (_ ∧ _))

theorem canApply_iff_covers {s : MetaSnap} {d : MetaDiff} : canApply s d ↔ Covers d s.gidB :=
  canApply_iff

theorem opEq.covers_iff {d e : MetaDiff} (h : d.opEq e) (x : Nat) : Covers d x ↔ Covers e x := by
  rw [Covers, Covers, h.1, h.2]

/-- The multimap is sorted, its iterators are distinct, no two of its diffs are
equal, and the range index sees each diff at exactly the gids it covers. -/
structure Inv (m : MetaDiffManager) : Prop where
  sorted : KeyedList.Sorted Node.key m.mmap
  nodup : (m.mmap.map Node.it).Nodup
  fresh : ∀ n, n ∈ m.mmap → n.it < m.nextIt
  valid : ∀ n, n ∈ m.mmap → n.diff.Valid
  distinct : m.mmap.Pairwise (fun n n' => ¬n.diff.opEq n'.diff)
  wf : WF m.rangeMgr
  view : ∀ x, (view (ranges m.rangeMgr) x).Perm
    ((m.mmap.filter (fun n => decide (Covers n.diff x))).map Node.it)

variable {m : MetaDiffManager}

theorem mem_diffs {d : MetaDiff} : d ∈ m.diffs ↔ ∃ n, n ∈ m.mmap ∧ n.diff = d := List.mem_map

theorem Inv.eq_of_it (h : Inv m) {n n' : Node} (hn : n ∈ m.mmap) (hn' : n' ∈ m.mmap)
    (he : n.it = n'.it) : n = n' := List.inj_on_of_nodup_map h.nodup hn hn' he

theorem Inv.valid_of_mem (h : Inv m) {d : MetaDiff} (hd : d ∈ m.diffs) : d.Valid := by
  obtain ⟨n, hn, rfl⟩ := mem_diffs.1 hd
  exact h.valid n hn

theorem Inv.not_opEq (h : Inv m) {n n' : Node} (hn : n ∈ m.mmap) (hn' : n' ∈ m.mmap)
    (hne : n ≠ n') : ¬n.diff.opEq n'.diff := by
  have hsymm : Std.Symm (fun n n' : Node => ¬n.diff.opEq n'.diff) := ⟨fun _ _ hab hba => hab hba.symm⟩
  exact h.distinct.forall hn hn' hne

theorem inv_empty : Inv MetaDiffManager.empty where
  sorted := List.Pairwise.nil
  nodup := List.nodup_nil
  fresh := by simp [MetaDiffManager.empty]
  valid := by simp [MetaDiffManager.empty]
  distinct := List.Pairwise.nil
  wf := wf_nil
  view x := List.Perm.refl _

theorem Inv.searchNolock_eq_none_iff (h : Inv m) {d : MetaDiff} :
    m.searchNolock d = none ↔ ∀ e, e ∈ m.diffs → ¬d.opEq e := by
  simp only [MetaDiffManager.searchNolock, List.find?_eq_none, KeyedList.mem_equalRange h.sorted,
    decide_eq_true_eq]
  constructor
  · intro hn e he hde
    obtain ⟨n, hn', rfl⟩ := mem_diffs.1 he
    exact hn n ⟨hn', congrArg MetaSnap.gidB hde.1.symm⟩ hde
  · rintro hn n ⟨hn', -⟩
    exact hn n.diff (mem_diffs.2 ⟨n, hn', rfl⟩)

theorem Inv.of_searchNolock (h : Inv m) {d : MetaDiff} {n : Node} (hs : m.searchNolock d = some n) :
    n ∈ m.mmap ∧ d.opEq n.diff := by
  have hmem := (KeyedList.mem_equalRange h.sorted).1 (List.mem_of_find?_eq_some hs)
  exact ⟨hmem.1, by simpa using List.find?_some hs⟩

theorem mmap_emplace_perm (m : MetaDiffManager) (d : MetaDiff) :
    (m.emplace d).mmap.Perm (⟨m.nextIt, d⟩ :: m.mmap) := KeyedList.emplace_perm _ _

theorem mem_mmap_emplace {d : MetaDiff} {n : Node} :
    n ∈ (m.emplace d).mmap ↔ n = ⟨m.nextIt, d⟩ ∨ n ∈ m.mmap := KeyedList.mem_emplace

theorem mem_diffs_emplace {d e : MetaDiff} : e ∈ (m.emplace d).diffs ↔ e = d ∨ e ∈ m.diffs := by
  simp only [mem_diffs, mem_mmap_emplace, or_and_right, exists_or, exists_eq_left, eq_comm]

theorem Inv.emplace (h : Inv m) {d : MetaDiff} (hd : d.Valid)
    (hnew : ∀ e, e ∈ m.diffs → ¬d.opEq e) : Inv (m.emplace d) where
  sorted := h.sorted.emplace _
  nodup := by
    rw [((mmap_emplace_perm m d).map Node.it).nodup_iff, List.map_cons, List.nodup_cons]
    refine ⟨fun hmem => ?_, h.nodup⟩
    obtain ⟨n, hn, he⟩ := List.mem_map.1 hmem
    exact (h.fresh n hn).ne he
  fresh := by
    intro n hn
    change n.it < m.nextIt + 1
    rcases mem_mmap_emplace.1 hn with rfl | hn
    · exact Nat.lt_succ_self _
    · exact (h.fresh n hn).trans (Nat.lt_succ_self _)
  valid := by
    intro n hn
    rcases mem_mmap_emplace.1 hn with rfl | hn
    · exact hd
    · exact h.valid n hn
  distinct := by
    rw [(mmap_emplace_perm m d).pairwise_iff (fun {n n'} hne he => hne he.symm)]
    exact List.pairwise_cons.2 ⟨fun n hn => hnew n.diff (mem_diffs.2 ⟨n, hn, rfl⟩), h.distinct⟩
  wf := (add_spec h.wf m.nextIt hd).1
  view x := by
    have hmmap := ((mmap_emplace_perm m d).filter (fun n => decide (Covers n.diff x))).map Node.it
    have hview := (add_spec h.wf m.nextIt hd).2 x
    by_cases hx : d.snapB.gidB ≤ x ∧ x < d.snapE.gidB
    · have hc : Covers d x := hx
      rw [List.filter_cons_of_pos (by simpa using hc)] at hmmap
      rw [if_pos hx] at hview
      exact hview.trans (((h.view x).cons _).trans hmmap.symm)
    · have hc : ¬Covers d x := hx
      rw [List.filter_cons_of_neg (by simpa using hc)] at hmmap
      rw [if_neg hx] at hview
      exact hview.trans ((h.view x).trans hmmap.symm)

theorem mem_mmap_removeNode {n n' : Node} :
    n' ∈ (m.removeNode n).mmap ↔ n' ∈ m.mmap ∧ n'.it ≠ n.it := by
  simp [MetaDiffManager.removeNode]

theorem Inv.removeNode (h : Inv m) {n : Node} (hn : n ∈ m.mmap) : Inv (m.removeNode n) := by
  have hin : ∀ x, n.it ∈ GidRangeManager.view (ranges m.rangeMgr) x → Covers n.diff x := by
    intro x hx
    obtain ⟨n', hn', he⟩ := List.mem_map.1 ((h.view x).mem_iff.1 hx)
    obtain ⟨hn', hc⟩ := List.mem_filter.1 hn'
    rw [h.eq_of_it hn hn' he.symm]
    simpa using hc
  have hspec := remove_spec h.wf (h.valid n hn) hin
  have hsub : (m.removeNode n).mmap.Sublist m.mmap := List.filter_sublist
  refine ⟨h.sorted.sublist hsub, h.nodup.sublist (hsub.map _),
    fun n' hn' => h.fresh n' (hsub.subset hn'),
    fun n' hn' => h.valid n' (hsub.subset hn'), h.distinct.sublist hsub, hspec.1, fun x => ?_⟩
  have hfilter := (h.view x).filter (fun i => decide (i ≠ n.it))
  rw [← hspec.2 x, List.filter_map, List.filter_filter] at hfilter
  have hcomm : m.mmap.filter (fun n' => ((fun i => decide (i ≠ n.it)) ∘ Node.it) n' &&
      decide (Covers n'.diff x)) =
      (m.removeNode n).mmap.filter (fun n' => decide (Covers n'.diff x)) := by
    rw [MetaDiffManager.removeNode, List.filter_filter]
    exact List.filter_congr fun n' _ => Bool.and_comm _ _
  rwa [hcomm] at hfilter

theorem inv_clear (m : MetaDiffManager) : Inv m.clear where
  sorted := List.Pairwise.nil
  nodup := List.nodup_nil
  fresh := by simp [MetaDiffManager.clear]
  valid := by simp [MetaDiffManager.clear]
  distinct := List.Pairwise.nil
  wf := wf_nil
  view x := List.Perm.refl _

theorem Inv.addNolock (h : Inv m) {d : MetaDiff} (hd : d.Valid) {m' : MetaDiffManager}
    (ha : m.addNolock d = .ok m') : Inv m' ∧ m' = m.emplace d ∧ ∀ e, e ∈ m.diffs → ¬d.opEq e := by
  unfold MetaDiffManager.addNolock at ha
  cases hs : m.searchNolock d with
  | some n => simp [hs] at ha
  | none =>
      have hnew := h.searchNolock_eq_none_iff.1 hs
      obtain rfl : m.emplace d = m' := by simpa [hs] using ha
      exact ⟨h.emplace hd hnew, rfl, hnew⟩

theorem Inv.eraseNolock (h : Inv m) {d : MetaDiff} {b : Bool} {m' : MetaDiffManager}
    (he : m.eraseNolock d b = .ok m') : Inv m' := by
  unfold MetaDiffManager.eraseNolock at he
  cases hs : m.searchNolock d with
  | none =>
      cases b with
      | true => simp [hs] at he
      | false =>
          obtain rfl : m = m' := by simpa [hs] using he
          exact h
  | some n =>
      obtain rfl : m.removeNode n = m' := by simpa [hs] using he
      exact h.removeNode (h.of_searchNolock hs).1

theorem Inv.addVec (h : Inv m) {v : List MetaDiff} (hv : ∀ d, d ∈ v → d.Valid) :
    Inv (m.addVec v).1 := by
  induction v generalizing m with
  | nil => exact h
  | cons d v ih =>
      rw [MetaDiffManager.addVec]
      cases ha : m.addNolock d with
      | error e => exact h
      | ok m' =>
          exact ih (h.addNolock (hv d List.mem_cons_self) ha).1
            (fun e he => hv e (List.mem_cons_of_mem _ he))

theorem Inv.eraseVec (h : Inv m) (v : List MetaDiff) (b : Bool) : Inv (m.eraseVec v b).1 := by
  induction v generalizing m with
  | nil => exact h
  | cons d v ih =>
      rw [MetaDiffManager.eraseVec]
      cases he : m.eraseNolock d b with
      | error e => exact h
      | ok m' => exact ih (h.eraseNolock he)

/-- The nodes still to be visited stay in the multimap while others go. -/
theorem Inv.eraseLoop (h : Inv m) (stop hit : MetaDiff → Bool) {l : List Node}
    (hl : l.Sublist m.mmap) : Inv (MetaDiffManager.eraseLoop stop hit l m).1 := by
  induction l generalizing m with
  | nil => exact h
  | cons n l ih =>
      have hn := hl.subset List.mem_cons_self
      have htail := (List.sublist_cons_self n l).trans hl
      rw [MetaDiffManager.eraseLoop]
      split_ifs with hs hh
      · exact h
      · refine ih (h.removeNode hn) ?_
        have hne : ∀ n', n' ∈ l → n'.it ≠ n.it := by
          have hnd := h.nodup.sublist (hl.map Node.it)
          rw [List.map_cons, List.nodup_cons] at hnd
          exact fun n' hn' he => hnd.1 (List.mem_map.2 ⟨n', hn', he⟩)
        have hfilter := htail.filter (fun n' => decide (n'.it ≠ n.it))
        rwa [List.filter_eq_self.2 (fun n' hn' => by simpa using hne n' hn')] at hfilter
      · exact ih h htail

/-- When no node past a stop is to be removed, the loop removes what it hits. -/
theorem Inv.mem_eraseLoop (h : Inv m) (stop hit : MetaDiff → Bool) {l : List Node}
    (hl : l.Sublist m.mmap) (hstop : l.Pairwise (fun n n' => stop n.diff = true → stop n'.diff = true))
    (hhit : ∀ n, n ∈ l → stop n.diff = true → hit n.diff = false) :
    (∀ n, n ∈ (MetaDiffManager.eraseLoop stop hit l m).1.mmap ↔
      n ∈ m.mmap ∧ ¬(n ∈ l ∧ hit n.diff = true)) ∧
      (MetaDiffManager.eraseLoop stop hit l m).2 = (l.filter (fun n => hit n.diff)).map Node.diff := by
  induction l generalizing m with
  | nil => simp [MetaDiffManager.eraseLoop]
  | cons n l ih =>
      obtain ⟨hnl, hl'⟩ := List.pairwise_cons.1 hstop
      have hn := hl.subset List.mem_cons_self
      have htail := (List.sublist_cons_self n l).trans hl
      have hhit' := fun n' (hn' : n' ∈ l) => hhit n' (List.mem_cons_of_mem _ hn')
      rw [MetaDiffManager.eraseLoop]
      by_cases hs : stop n.diff = true
      · have hnone : ∀ n', n' ∈ n :: l → hit n'.diff = false := by
          intro n' hn'
          rcases List.mem_cons.1 hn' with rfl | hn'
          · exact hhit n' List.mem_cons_self hs
          · exact hhit' n' hn' (hnl n' hn' hs)
        rw [if_pos hs]
        refine ⟨fun n' => ⟨fun hn' => ⟨hn', ?_⟩, fun hn' => hn'.1⟩, ?_⟩
        · rintro ⟨hmem, hh⟩
          rw [hnone n' hmem] at hh
          exact absurd hh (by simp)
        · rw [List.filter_eq_nil_iff.2 (fun n' hn' => by simp [hnone n' hn'])]
          rfl
      · rw [if_neg hs]
        by_cases hh : hit n.diff = true
        · have hnd := h.nodup.sublist (hl.map Node.it)
          rw [List.map_cons, List.nodup_cons] at hnd
          have hne : ∀ n', n' ∈ l → n'.it ≠ n.it :=
            fun n' hn' he => hnd.1 (List.mem_map.2 ⟨n', hn', he⟩)
          have hfilter := htail.filter (fun n' => decide (n'.it ≠ n.it))
          rw [List.filter_eq_self.2 (fun n' hn' => by simpa using hne n' hn')] at hfilter
          obtain ⟨hmem, hret⟩ := ih (h.removeNode hn) hfilter hl' hhit'
          rw [if_pos hh]
          refine ⟨fun n' => ?_, ?_⟩
          · rw [hmem n', mem_mmap_removeNode]
            constructor
            · rintro ⟨⟨hn', hit'⟩, hnot⟩
              refine ⟨hn', fun hc => ?_⟩
              rcases List.mem_cons.1 hc.1 with rfl | hc'
              · exact hit' rfl
              · exact hnot ⟨hc', hc.2⟩
            · rintro ⟨hn', hnot⟩
              refine ⟨⟨hn', fun he => ?_⟩, fun hc => hnot ⟨List.mem_cons_of_mem _ hc.1, hc.2⟩⟩
              obtain rfl := h.eq_of_it hn' hn he
              exact hnot ⟨List.mem_cons_self, hh⟩
          · rw [List.filter_cons_of_pos (by exact hh), List.map_cons, ← hret]
        · obtain ⟨hmem, hret⟩ := ih h htail hl' hhit'
          rw [if_neg hh]
          refine ⟨fun n' => ?_, ?_⟩
          · rw [hmem n']
            refine and_congr_right fun _ => not_congr ⟨fun hc => ⟨List.mem_cons_of_mem _ hc.1, hc.2⟩,
              fun hc => ⟨?_, hc.2⟩⟩
            rcases List.mem_cons.1 hc.1 with rfl | hc'
            · exact absurd hc.2 hh
            · exact hc'
          · rw [List.filter_cons_of_neg (by exact hh), hret]

theorem mem_diffs_of_mem_mmap {m' : MetaDiffManager} {p : MetaDiff → Prop}
    (hp : ∀ n, n ∈ m'.mmap ↔ n ∈ m.mmap ∧ p n.diff) {d : MetaDiff} :
    d ∈ m'.diffs ↔ d ∈ m.diffs ∧ p d := by
  simp only [mem_diffs, hp]
  constructor
  · rintro ⟨n, ⟨hn, hpn⟩, rfl⟩
    exact ⟨⟨n, hn, rfl⟩, hpn⟩
  · rintro ⟨⟨n, hn, rfl⟩, hpn⟩
    exact ⟨n, ⟨hn, hpn⟩, rfl⟩

theorem Inv.mem_diffs_gcRange (h : Inv m) {gidB gidE : Nat} {d : MetaDiff} :
    d ∈ (m.gcRange gidB gidE).1.diffs ↔ d ∈ m.diffs ∧
      ¬(gidB ≤ d.snapB.gidB ∧ d.snapE.gidB ≤ gidE ∧
        ¬(gidB = d.snapB.gidB ∧ gidE = d.snapE.gidB)) := by
  have hsub : (KeyedList.lowerBound Node.key gidB m.mmap).Sublist m.mmap := List.dropWhile_sublist _
  have hmem := (h.mem_eraseLoop (fun d => decide (d.snapB.gidB ≥ gidE))
    (fun d => decide (gidB ≤ d.snapB.gidB ∧ d.snapE.gidB ≤ gidE ∧
      ¬(gidB = d.snapB.gidB ∧ gidE = d.snapE.gidB))) hsub ?_ ?_).1
  · refine mem_diffs_of_mem_mmap (p := fun d => ¬(gidB ≤ d.snapB.gidB ∧ d.snapE.gidB ≤ gidE ∧
      ¬(gidB = d.snapB.gidB ∧ gidE = d.snapE.gidB))) fun n => ?_
    rw [MetaDiffManager.gcRange, hmem n, decide_eq_true_eq]
    refine and_congr_right fun hn => not_congr ⟨fun hc => hc.2, fun hc => ⟨?_, hc⟩⟩
    exact (KeyedList.mem_lowerBound h.sorted).2 ⟨hn, hc.1⟩
  · refine (h.sorted.sublist hsub).imp fun {n n'} hle hs => ?_
    simp only [decide_eq_true_eq] at hs ⊢
    exact le_trans hs hle
  · intro n hn hs
    have hv := (h.valid n (hsub.subset hn)).progressB
    simp only [decide_eq_true_eq, decide_eq_false_iff_not] at hs ⊢
    omega

theorem Inv.mem_diffs_eraseBeforeGid (h : Inv m) {gid : Nat} :
    (∀ d, d ∈ (m.eraseBeforeGid gid).1.diffs ↔ d ∈ m.diffs ∧ gid < d.snapE.gidB) ∧
      (m.eraseBeforeGid gid).2 = m.diffs.filter (fun d => decide (d.snapE.gidB ≤ gid)) := by
  have hstop : m.mmap.Pairwise (fun n n' =>
      decide (gid ≤ n.diff.snapB.gidB) = true → decide (gid ≤ n'.diff.snapB.gidB) = true) := by
    refine h.sorted.imp fun {n n'} hle hs => ?_
    simp only [decide_eq_true_eq] at hs ⊢
    exact le_trans hs hle
  have hhit : ∀ n, n ∈ m.mmap → decide (gid ≤ n.diff.snapB.gidB) = true →
      decide (n.diff.snapE.gidB ≤ gid) = false := by
    intro n hn hs
    have hv := (h.valid n hn).progressB
    simp only [decide_eq_true_eq, decide_eq_false_iff_not] at hs ⊢
    omega
  obtain ⟨hmem, hret⟩ := h.mem_eraseLoop (fun d => decide (gid ≤ d.snapB.gidB))
    (fun d => decide (d.snapE.gidB ≤ gid)) (List.Sublist.refl m.mmap) hstop hhit
  refine ⟨fun d => mem_diffs_of_mem_mmap (p := fun d => gid < d.snapE.gidB) fun n => ?_, ?_⟩
  · rw [MetaDiffManager.eraseBeforeGid, hmem n, decide_eq_true_eq]
    refine and_congr_right fun hn => ?_
    simp [hn]
  · rw [MetaDiffManager.eraseBeforeGid, hret, MetaDiffManager.diffs, List.filter_map]
    rfl

theorem Inv.changeSnapshot (h : Inv m) (gid : Nat) (enable : Bool) :
    Inv (m.changeSnapshot gid enable).1 := by
  unfold MetaDiffManager.changeSnapshot
  dsimp only
  split_ifs with hempty
  · exact h
  · set f : Node → Node := fun n => if n.key = gid then
      { n with diff := if n.diff.isMergeable = enable then { n.diff with isMergeable := !enable }
        else n.diff } else n with hf
    have hit : ∀ n, (f n).it = n.it := fun n => by simp only [hf]; split_ifs <;> rfl
    have hB : ∀ n, (f n).diff.snapB = n.diff.snapB := fun n => by simp only [hf]; split_ifs <;> rfl
    have hE : ∀ n, (f n).diff.snapE = n.diff.snapE := fun n => by simp only [hf]; split_ifs <;> rfl
    have hkey : ∀ n, (f n).key = n.key := fun n => congrArg MetaSnap.gidB (hB n)
    have hcov : ∀ n x, Covers (f n).diff x ↔ Covers n.diff x :=
      fun n x => opEq.covers_iff ⟨hB n, hE n⟩ x
    have hmap : (m.mmap.map f).map Node.it = m.mmap.map Node.it := by
      rw [List.map_map]
      exact List.map_congr_left fun n _ => hit n
    refine ⟨List.pairwise_map.2 (h.sorted.imp ?_), ?_, ?_, ?_, List.pairwise_map.2 (h.distinct.imp ?_),
      h.wf, fun x => ?_⟩
    · intro n n' hle
      rwa [hkey, hkey]
    · change ((m.mmap.map f).map Node.it).Nodup
      rw [hmap]
      exact h.nodup
    · intro n hn
      obtain ⟨n', hn', rfl⟩ := List.mem_map.1 hn
      rw [hit]
      exact h.fresh n' hn'
    · intro n hn
      obtain ⟨n', hn', rfl⟩ := List.mem_map.1 hn
      have hv := h.valid n' hn'
      exact ⟨by rw [hB, hE]; exact hv.progressB, by rw [hB, hE]; exact hv.progressE,
        by rw [hE]; exact hv.fits⟩
    · intro n n' hne he
      exact hne ⟨by rw [← hB n, ← hB n']; exact he.1, by rw [← hE n, ← hE n']; exact he.2⟩
    · have hfilter : ((m.mmap.map f).filter (fun n => decide (Covers n.diff x))).map Node.it =
          (m.mmap.filter (fun n => decide (Covers n.diff x))).map Node.it := by
        rw [List.filter_map, List.map_map]
        have hp : (fun n => decide (Covers n.diff x)) ∘ f = fun n => decide (Covers n.diff x) := by
          funext n
          simp only [Function.comp, hcov]
        rw [hp]
        exact List.map_congr_left fun n _ => hit n
      exact hfilter ▸ h.view x

theorem deref_eq_some {it : Nat} {d : MetaDiff} (hd : m.deref it = some d) :
    ∃ n, n ∈ m.mmap ∧ n.it = it ∧ n.diff = d := by
  obtain ⟨n, hn, rfl⟩ := Option.map_eq_some_iff.1 hd
  exact ⟨n, List.mem_of_find?_eq_some hn, by simpa using List.find?_some hn, rfl⟩

theorem Inv.deref (h : Inv m) {n : Node} (hn : n ∈ m.mmap) : m.deref n.it = some n.diff := by
  unfold MetaDiffManager.deref
  cases hf : m.mmap.find? (fun n' => decide (n'.it = n.it)) with
  | none =>
      have hne := List.find?_eq_none.1 hf n hn
      simp at hne
  | some n' =>
      have hit : n'.it = n.it := by simpa using List.find?_some hf
      rw [h.eq_of_it (List.mem_of_find?_eq_some hf) hn hit]
      rfl

/-- `search` returns the iterators of the covering diffs and no other ones. -/
theorem Inv.search_perm (h : Inv m) {gid : Nat} (hg : gid + 1 < u64) :
    (search m.rangeMgr gid).Perm
      ((m.mmap.filter (fun n => decide (Covers n.diff gid))).map Node.it) := by
  rw [search_eq_view h.wf hg]
  exact h.view gid

theorem Inv.deref_search_perm (h : Inv m) {gid : Nat} (hg : gid + 1 < u64) :
    ((search m.rangeMgr gid).map m.deref).Perm
      ((m.diffs.filter (fun d => decide (Covers d gid))).map some) := by
  refine ((h.search_perm hg).map m.deref).trans (List.Perm.of_eq ?_)
  rw [MetaDiffManager.diffs, List.filter_map, List.map_map, List.map_map]
  exact List.map_congr_left fun n hn => h.deref (List.mem_of_mem_filter hn)

theorem Inv.mem_applicableCandidates (h : Inv m) {s : MetaSnap} {d : MetaDiff} :
    d ∈ m.getApplicableCandidatesNolock s ↔ d ∈ m.diffs ∧ canApply s d := by
  simp only [MetaDiffManager.getApplicableCandidatesNolock, List.mem_filter, List.mem_filterMap,
    decide_eq_true_eq]
  refine ⟨fun hd => ?_, fun hd => ⟨?_, hd.2⟩⟩
  · obtain ⟨⟨it, -, hit⟩, hc⟩ := hd
    obtain ⟨n, hn, -, he⟩ := deref_eq_some hit
    exact ⟨mem_diffs.2 ⟨n, hn, he⟩, hc⟩
  · have hfits := (h.valid_of_mem hd.1).gidB_lt
    have hcov := canApply_iff_covers.1 hd.2
    obtain ⟨n, hn, rfl⟩ := mem_diffs.1 hd.1
    refine ⟨n.it, (h.search_perm (lt_of_le_of_lt hcov.2 hfits)).mem_iff.2 ?_, h.deref hn⟩
    exact List.mem_map.2 ⟨n, List.mem_filter.2 ⟨hn, by simpa using hcov⟩, rfl⟩

theorem maxProgressFrom_spec (d : MetaDiff) (v : List MetaDiff) :
    maxProgressFrom d v ∈ d :: v ∧ ∀ e, e ∈ d :: v →
      e.snapE.gidB ≤ (maxProgressFrom d v).snapE.gidB := by
  induction v generalizing d with
  | nil => simp [maxProgressFrom]
  | cons e v ih =>
      rw [maxProgressFrom]
      split_ifs with hlt
      · obtain ⟨hmem, hmax⟩ := ih e
        refine ⟨List.mem_cons_of_mem _ hmem, fun f hf => ?_⟩
        have he := hmax e List.mem_cons_self
        rcases List.mem_cons.1 hf with rfl | hf
        · omega
        · exact hmax f hf
      · obtain ⟨hmem, hmax⟩ := ih d
        have hd := hmax d List.mem_cons_self
        refine ⟨?_, fun f hf => ?_⟩
        · rcases List.mem_cons.1 hmem with hd | hv
          · rw [hd]
            exact List.mem_cons_self
          · exact List.mem_cons_of_mem _ (List.mem_cons_of_mem _ hv)
        · rcases List.mem_cons.1 hf with rfl | hf
          · exact hd
          · rcases List.mem_cons.1 hf with rfl | hf
            · omega
            · exact hmax f (List.mem_cons_of_mem _ hf)

theorem Inv.getApplicableDiff_eq_none_iff (h : Inv m) {s : MetaSnap} :
    m.getApplicableDiffNolock s = none ↔ ∀ d, d ∈ m.diffs → ¬canApply s d := by
  unfold MetaDiffManager.getApplicableDiffNolock
  cases hc : m.getApplicableCandidatesNolock s with
  | nil =>
      refine ⟨fun _ d hd ha => ?_, fun _ => rfl⟩
      have hmem := h.mem_applicableCandidates.2 ⟨hd, ha⟩
      rw [hc] at hmem
      exact absurd hmem List.not_mem_nil
  | cons d v =>
      have hmem : d ∈ m.getApplicableCandidatesNolock s := hc ▸ List.mem_cons_self
      obtain ⟨hd, ha⟩ := h.mem_applicableCandidates.1 hmem
      simp only [getMaxProgressDiff, Except.toOption, reduceCtorEq, false_iff, not_forall]
      exact ⟨d, hd, not_not.2 ha⟩

theorem Inv.of_getApplicableDiff (h : Inv m) {s : MetaSnap} {d : MetaDiff}
    (hs : m.getApplicableDiffNolock s = some d) :
    d ∈ m.diffs ∧ canApply s d ∧
      ∀ e, e ∈ m.diffs → canApply s e → e.snapE.gidB ≤ d.snapE.gidB := by
  unfold MetaDiffManager.getApplicableDiffNolock at hs
  cases hc : m.getApplicableCandidatesNolock s with
  | nil => simp [hc, getMaxProgressDiff, Except.toOption] at hs
  | cons e v =>
      obtain rfl : maxProgressFrom e v = d := by
        simpa [hc, getMaxProgressDiff, Except.toOption] using hs
      obtain ⟨hmem, hmax⟩ := maxProgressFrom_spec e v
      rw [← hc] at hmem hmax
      obtain ⟨hd, ha⟩ := h.mem_applicableCandidates.1 hmem
      exact ⟨hd, ha, fun f hf hfa => hmax f (h.mem_applicableCandidates.2 ⟨hf, hfa⟩)⟩

def remaining (m : MetaDiffManager) (s : MetaSnap) : Nat :=
  m.mmap.countP (fun n => decide (s.gidB < n.diff.snapE.gidB))

theorem Inv.remaining_lt (h : Inv m) {pred : MetaDiff → MetaSnap → Bool} {s s' : MetaSnap}
    {d : MetaDiff} (hs : m.applicableStep pred s = some (d, s')) : remaining m s' < remaining m s := by
  unfold MetaDiffManager.applicableStep at hs
  cases hd : m.getApplicableDiffNolock s with
  | none => simp [hd] at hs
  | some e =>
      simp only [hd] at hs
      split_ifs at hs
      obtain ⟨rfl, rfl⟩ : e = d ∧ applied s e = s' := by simpa using hs
      obtain ⟨hmem, ha, -⟩ := h.of_getApplicableDiff hd
      have hlt := (canApply_iff.1 ha).2
      obtain ⟨n, hn, rfl⟩ := mem_diffs.1 hmem
      have hmono : ∀ n' : Node, (applied s n.diff).gidB < n'.diff.snapE.gidB →
          s.gidB < n'.diff.snapE.gidB := by
        intro n' hn'
        rw [applied_gidB] at hn'
        exact hlt.trans hn'
      refine countP_lt_countP (fun n' _ hn' => ?_) hn (by simpa using hlt) (by simp)
      simpa using hmono n' (by simpa using hn')

theorem remaining_lt_fuel (m : MetaDiffManager) (s : MetaSnap) :
    remaining m s < m.mmap.length + 1 := Nat.lt_succ_of_le List.countP_le_length

/-- The loop of `getApplicableDiffList`, without its bound. -/
theorem Inv.getApplicableDiffList_eq (h : Inv m) (s : MetaSnap)
    (pred : MetaDiff → MetaSnap → Bool) :
    m.getApplicableDiffList s pred =
      match m.getApplicableDiffNolock s with
      | none => []
      | some d => if pred d (applied s d) then d :: m.getApplicableDiffList (applied s d) pred
          else [] := by
  have hμ : ∀ s d s', m.applicableStep pred s = some (d, s') → remaining m s' < remaining m s :=
    fun s d s' hs => h.remaining_lt hs
  cases hd : m.getApplicableDiffNolock s with
  | none => exact unfold_none (by rw [MetaDiffManager.applicableStep, hd]) _
  | some d =>
      by_cases hp : pred d (applied s d)
      · have hstep : m.applicableStep pred s = some (d, applied s d) := by
          simp only [MetaDiffManager.applicableStep, hd, hp, if_true]
        simp only [hp, if_true]
        exact unfold_some (remaining m) hμ (remaining_lt_fuel m s) hstep
      · have hstep : m.applicableStep pred s = none := by
          simp only [MetaDiffManager.applicableStep, hd, hp]
          rfl
        simp only [hp]
        exact unfold_none hstep _

theorem Inv.mem_of_getApplicableDiffList (h : Inv m) {s : MetaSnap}
    {pred : MetaDiff → MetaSnap → Bool} {d : MetaDiff} (hd : d ∈ m.getApplicableDiffList s pred) :
    d ∈ m.diffs := by
  unfold MetaDiffManager.getApplicableDiffList at hd
  generalize m.mmap.length + 1 = fuel at hd
  induction fuel generalizing s with
  | zero => exact absurd hd List.not_mem_nil
  | succ fuel ih =>
      cases hs : m.applicableStep pred s with
      | none => simp [unfold_none hs] at hd
      | some r =>
          obtain ⟨e, s'⟩ := r
          rw [unfold_succ hs] at hd
          rcases List.mem_cons.1 hd with rfl | hd
          · unfold MetaDiffManager.applicableStep at hs
            cases ha : m.getApplicableDiffNolock s with
            | none => simp [ha] at hs
            | some f =>
                simp only [ha] at hs
                split_ifs at hs
                obtain ⟨rfl, -⟩ : f = d ∧ applied s f = s' := by simpa using hs
                exact (h.of_getApplicableDiff ha).1
          · exact ih hd

theorem Inv.gc (h : Inv m) (snap : MetaSnap) : Inv (m.gc snap).1 :=
  (inv_clear _).addVec fun _ hd => h.valid_of_mem (h.mem_of_getApplicableDiffList hd)

theorem Inv.mem_diffs_eraseVec (h : Inv m) (v : List MetaDiff) {e : MetaDiff} :
    e ∈ (m.eraseVec v false).1.diffs ↔ e ∈ m.diffs ∧ ∀ d, d ∈ v → ¬d.opEq e := by
  induction v generalizing m with
  | nil => simp [MetaDiffManager.eraseVec]
  | cons d v ih =>
      rw [MetaDiffManager.eraseVec, MetaDiffManager.eraseNolock]
      cases hs : m.searchNolock d with
      | none =>
          have hnone := h.searchNolock_eq_none_iff.1 hs
          simp only [Bool.false_eq_true, if_false, ih h, List.forall_mem_cons]
          exact and_congr_right fun he => ⟨fun hv => ⟨hnone e he, hv⟩, fun hv => hv.2⟩
      | some n =>
          obtain ⟨hn, hdn⟩ := h.of_searchNolock hs
          have hmem : ∀ e, e ∈ (m.removeNode n).diffs ↔ e ∈ m.diffs ∧ ¬d.opEq e := by
            intro e
            refine mem_diffs_of_mem_mmap (p := fun e => ¬d.opEq e) fun n' => ?_
            rw [mem_mmap_removeNode]
            refine and_congr_right fun hn' => ⟨fun hne hd => ?_, fun hne hit => ?_⟩
            · have hnn : n'.diff.opEq n.diff := hd.symm.trans hdn
              have hneq : n' ≠ n := fun he => hne (he ▸ rfl)
              exact h.not_opEq hn' hn hneq hnn
            · obtain rfl := h.eq_of_it hn' hn hit
              exact hne hdn
          simp only [ih (h.removeNode hn), hmem e, List.forall_mem_cons, and_assoc]

theorem Inv.addVec_ok (h : Inv m) {v : List MetaDiff} (hv : ∀ d, d ∈ v → d.Valid)
    (hd : v.Pairwise (fun d e => ¬d.opEq e)) (hm : ∀ d, d ∈ v → ∀ e, e ∈ m.diffs → ¬d.opEq e) :
    (m.addVec v).2 = .ok () ∧ ∀ e, e ∈ (m.addVec v).1.diffs ↔ e ∈ m.diffs ∨ e ∈ v := by
  induction v generalizing m with
  | nil => simp [MetaDiffManager.addVec]
  | cons d v ih =>
      obtain ⟨hdv, hd'⟩ := List.pairwise_cons.1 hd
      have hs := h.searchNolock_eq_none_iff.2 (hm d List.mem_cons_self)
      have hadd : m.addNolock d = .ok (m.emplace d) := by
        rw [MetaDiffManager.addNolock, hs]
      have hnew := h.emplace (hv d List.mem_cons_self) (hm d List.mem_cons_self)
      obtain ⟨hok, hmem⟩ := ih hnew (fun e he => hv e (List.mem_cons_of_mem _ he)) hd' (by
        intro e he f hf heq
        rcases mem_diffs_emplace.1 hf with rfl | hf
        · exact hdv e he heq.symm
        · exact hm e (List.mem_cons_of_mem _ he) f hf heq)
      rw [MetaDiffManager.addVec, hadd]
      refine ⟨hok, fun e => ?_⟩
      rw [hmem e, mem_diffs_emplace, List.mem_cons]
      tauto

inductive Op where
  | add (d : MetaDiff)
  | erase (d : MetaDiff) (doesThrowError : Bool)
  | eraseVec (v : List MetaDiff) (doesThrowError : Bool)
  | gc (snap : MetaSnap)
  | gcRange (gidB gidE : Nat)
  | eraseBeforeGid (gid : Nat)
  | reset (v : List MetaDiff)
  | clear
  | changeSnapshot (gid : Nat) (enable : Bool)

def Op.stored : Op → List MetaDiff
  | .add d => [d]
  | .reset v => v
  | _ => []

/-- The state after an operation, also when it ends with an exception. -/
def Op.run (m : MetaDiffManager) : Op → MetaDiffManager
  | .add d => match m.addNolock d with | .ok m' => m' | .error _ => m
  | .erase d b => match m.eraseNolock d b with | .ok m' => m' | .error _ => m
  | .eraseVec v b => (m.eraseVec v b).1
  | .gc snap => (m.gc snap).1
  | .gcRange gidB gidE => (m.gcRange gidB gidE).1
  | .eraseBeforeGid gid => (m.eraseBeforeGid gid).1
  | .reset v => (m.reset v).1
  | .clear => m.clear
  | .changeSnapshot gid enable => (m.changeSnapshot gid enable).1

theorem Inv.run (h : Inv m) {op : Op} (hop : ∀ d, d ∈ op.stored → d.Valid) : Inv (op.run m) := by
  cases op with
  | add d =>
      rw [Op.run]
      cases ha : m.addNolock d with
      | ok m' => exact (h.addNolock (hop d List.mem_cons_self) ha).1
      | error e => exact h
  | erase d b =>
      rw [Op.run]
      cases he : m.eraseNolock d b with
      | ok m' => exact h.eraseNolock he
      | error e => exact h
  | eraseVec v b => exact h.eraseVec v b
  | gc snap => exact h.gc snap
  | gcRange gidB gidE => exact h.eraseLoop _ _ (List.dropWhile_sublist _)
  | eraseBeforeGid gid => exact h.eraseLoop _ _ (List.Sublist.refl _)
  | reset v => exact (inv_clear m).addVec hop
  | clear => exact inv_clear m
  | changeSnapshot gid enable => exact h.changeSnapshot gid enable

theorem inv_foldl {ops : List Op} (h : Inv m) (hops : ∀ op, op ∈ ops → ∀ d, d ∈ op.stored → d.Valid) :
    Inv (ops.foldl Op.run m) := by
  induction ops generalizing m with
  | nil => exact h
  | cons op ops ih =>
      exact ih (h.run (hops op List.mem_cons_self))
        (fun op' hop' => hops op' (List.mem_cons_of_mem _ hop'))

/-- After any operations `search` is an exact view of the stored diffs, and
the ranges it reads are disjoint and stored under their ends. -/
theorem search_exact (ops : List Op)
    (hops : ∀ op, op ∈ ops → ∀ d, d ∈ op.stored → d.Valid) :
    (∀ gid, gid < 2 ^ 64 - 1 →
      ((search (ops.foldl Op.run .empty).rangeMgr gid).map (ops.foldl Op.run .empty).deref).Perm
        (((ops.foldl Op.run .empty).diffs.filter
          (fun d => decide (d.snapB.gidB ≤ gid ∧ gid < d.snapE.gidB))).map some)) ∧
    (ops.foldl Op.run .empty).rangeMgr.Pairwise (fun p q => p.2.gidE ≤ q.2.gidB) ∧
    ∀ p, p ∈ (ops.foldl Op.run .empty).rangeMgr → p.1 = p.2.gidE ∧ p.2.gidB < p.2.gidE := by
  have h : Inv (ops.foldl Op.run .empty) := inv_foldl inv_empty hops
  refine ⟨fun gid hg => ?_, h.wf.pairwise, fun p hp => ⟨h.wf.keyed p hp, (h.wf.valid hp).lt⟩⟩
  have hg' : gid + 1 < u64 := by
    have hu : u64 = 2 ^ 64 := rfl
    omega
  exact h.deref_search_perm hg'

theorem search_exact_overlapping :
    let m := [Op.add (.ofSnaps (.clean 0) (.clean 4) true 0),
      .add (.ofSnaps (.clean 2) (.clean 6) true 0),
      .add (.ofSnaps (.clean 2) (.clean 3) true 0), .gcRange 2 6].foldl Op.run .empty
    ((search m.rangeMgr 3).map m.deref).Perm
      [some (.ofSnaps (.clean 0) (.clean 4) true 0), some (.ofSnaps (.clean 2) (.clean 6) true 0)] := by
  refine ((search_exact _ ?_).1 3 (by decide)).trans (List.Perm.of_eq (by decide +kernel))
  intro op hop
  simp only [List.mem_cons, List.not_mem_nil, or_false] at hop
  rcases hop with rfl | rfl | rfl | rfl <;> simp only [Op.stored, List.mem_singleton, forall_eq,
    List.not_mem_nil, false_imp_iff, implies_true] <;> decide

end WalbTools.DiffManager
