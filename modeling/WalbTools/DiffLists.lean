import Mathlib
import WalbTools.DiffManager
import WalbTools.GreedyCover

namespace WalbTools.DiffLists

open Meta DiffManager

variable (m : MetaDiffManager)

def getApplicableDiffListByGid (snap : MetaSnap) (maxGid : Nat) : List MetaDiff :=
  m.getApplicableDiffList snap (fun _ s => decide (s.gidB ≤ maxGid))

def getMinimumApplicableDiffList (st : MetaState) : List MetaDiff :=
  if st.isApplying then m.getApplicableDiffList st.snapB (fun _ s => decide (s.gidB ≤ st.snapE.gidB))
  else []

def getLatestSnapshot (st : MetaState) : MetaSnap :=
  appliedVec st.snapB (m.getApplicableDiffList st.snapB MetaDiffManager.always)

def getLatestState (st : MetaState) : MetaState :=
  st.applyVec (m.getApplicableDiffList st.snapB MetaDiffManager.always)

/-- `getTargetDiffLists` for a gid, as the pair of `applicableV` and `minV`. -/
def getTargetDiffListsByGid (st : MetaState) (gid : Nat) : List MetaDiff × List MetaDiff :=
  let applicableV := getApplicableDiffListByGid m st.snapB gid
  if applicableV.isEmpty then (applicableV, []) else (applicableV, getMinimumApplicableDiffList m st)

def getTargetDiffLists (st : MetaState) : Except String (List MetaDiff × List MetaDiff) :=
  let applicableV := m.getApplicableDiffList st.snapB MetaDiffManager.always
  let minV := getMinimumApplicableDiffList m st
  if applicableV.length < minV.length then .error "size bug" else .ok (applicableV, minV)

def getDiffListToApply (st : MetaState) (gid maxNr : Nat) : List MetaDiff :=
  let (applicableV, minV) := getTargetDiffListsByGid m st gid
  let applicableV := if maxNr > 0 ∧ applicableV.length > maxNr then applicableV.take maxNr
    else applicableV
  if minV.length > applicableV.length then minV else applicableV

def getDiffListToSync (st : MetaState) (snap : MetaSnap) : List MetaDiff :=
  let (applicableV, minV) := getTargetDiffListsByGid m st snap.gidB
  if minV.length > applicableV.length then []
  else if (st.applyVec applicableV).snapB ≠ snap then []
  else applicableV

def getDiffListToRestore (st : MetaState) (gid maxNr : Nat) : List MetaDiff :=
  let v := getDiffListToSync m st (MetaSnap.clean gid)
  if maxNr > 0 ∧ v.length > maxNr then v.take maxNr else v

/-- The loop of `getRestorableList` over the diffs after `minV`. -/
def restorableFrom (isAll : Bool) : MetaState → List MetaDiff → List MetaState
  | _, [] => []
  | st, d :: v =>
      let isExplicit := match v with
        | [] => true
        | e :: _ => !e.isMergeable
      let st0 : MetaState := { st.apply d with isExplicit := isExplicit }
      if st0.snapB.isClean ∧ (isAll ∨ isExplicit) then st0 :: restorableFrom isAll st0 v
      else restorableFrom isAll st0 v

def getRestorableList (st : MetaState) (isAll : Bool) : Except String (List MetaState) := do
  let (applicableV, minV) ← getTargetDiffLists m st
  let st0 := st.applyVec minV
  let rest := restorableFrom isAll st0 (applicableV.drop minV.length)
  pure (if st0.snapB.isClean then st0 :: rest else rest)

def getFirstDiffsNolock (gid : Nat) : List MetaDiff :=
  match KeyedList.lowerBound Node.key gid m.mmap with
  | [] => []
  | n :: _ => (KeyedList.equalRange Node.key n.diff.snapB.gidB m.mmap).map Node.diff

/-- One turn of the loop of `getMergeableDiffList`; its state is `mdiff`. -/
def mergeableStep (pred : MetaDiff → Bool) (mdiff : MetaDiff) : Option (MetaDiff × MetaDiff) :=
  match m.getMergeableCandidatesNolock mdiff with
  | [] => none
  | e :: u =>
      let diff := maxProgressFrom e u
      if pred diff then some (diff, merge mdiff diff) else none

def getMergeableDiffList (gid : Nat) (pred : MetaDiff → Bool) : List MetaDiff :=
  match getFirstDiffsNolock m gid with
  | [] => []
  | e :: v =>
      let diff := maxProgressFrom e v
      diff :: Unfold.unfold (mergeableStep m pred) (m.mmap.length + 1) diff

variable {m}

def beginGid (d : MetaDiff) : Nat := d.snapB.gidB

def endGid (d : MetaDiff) : Nat := d.snapE.gidB

def family (m : MetaDiffManager) : Set MetaDiff := fun d => d ∈ m.diffs

abbrev Next (m : MetaDiffManager) : Nat → Nat → Prop := GreedyCover.Next beginGid endGid (family m)

abbrev Path (m : MetaDiffManager) : Nat → List Nat → Prop :=
  GreedyCover.Path beginGid endGid (family m)

abbrev Covered (m : MetaDiffManager) : Nat → Prop := GreedyCover.Covered beginGid endGid (family m)

theorem path_append {x : Nat} {ps qs : List Nat} :
    Path m x (ps ++ qs) ↔ Path m x ps ∧ Path m (ps.getLastD x) qs := GreedyCover.Path.append

theorem appliedVec_gidB (s : MetaSnap) (v : List MetaDiff) :
    (appliedVec s v).gidB = (v.map endGid).getLastD s.gidB := by
  induction v generalizing s with
  | nil => rfl
  | cons d v ih => rw [appliedVec_cons, ih, applied_gidB, List.map_cons, List.getLastD_cons]; rfl

theorem next_of_getApplicableDiff (h : Inv m) {s : MetaSnap} {d : MetaDiff}
    (hd : m.getApplicableDiffNolock s = some d) : Next m s.gidB (endGid d) := by
  obtain ⟨hmem, ha, hmax⟩ := h.of_getApplicableDiff hd
  exact ⟨⟨d, hmem, canApply_iff.1 ha, rfl⟩,
    fun e he hl hlt => hmax e he (canApply_iff.2 ⟨hl, hlt⟩)⟩

theorem getApplicableDiff_eq_none_iff_not_covered (h : Inv m) {s : MetaSnap} :
    m.getApplicableDiffNolock s = none ↔ ¬Covered m s.gidB := by
  rw [h.getApplicableDiff_eq_none_iff]
  constructor
  · rintro hn ⟨d, hd, hc⟩
    exact hn d hd (canApply_iff.2 hc)
  · intro hn d hd ha
    exact hn ⟨d, hd, canApply_iff.1 ha⟩

theorem exists_next_of_covered (h : Inv m) {s : MetaSnap} (hc : Covered m s.gidB) :
    ∃ d, m.getApplicableDiffNolock s = some d ∧ Next m s.gidB (endGid d) := by
  cases hd : m.getApplicableDiffNolock s with
  | none => exact absurd hc ((getApplicableDiff_eq_none_iff_not_covered h).1 hd)
  | some d => exact ⟨d, rfl, next_of_getApplicableDiff h hd⟩

/-- The greedy list is applicable, visits the greedy points, satisfies the
predicate all along, and stops only where it must. -/
structure Greedy (m : MetaDiffManager) (pred : MetaDiff → MetaSnap → Bool) (s : MetaSnap)
    (v : List MetaDiff) : Prop where
  canApply : canApplyVec s v
  mem : ∀ d, d ∈ v → d ∈ m.diffs
  path : Path m s.gidB (v.map endGid)
  holds : ∀ u d w, v = u ++ d :: w → pred d (appliedVec s (u ++ [d])) = true
  stop : ∀ d, m.getApplicableDiffNolock (appliedVec s v) = some d →
    pred d (applied (appliedVec s v) d) = false

theorem greedy_getApplicableDiffList (h : Inv m) (pred : MetaDiff → MetaSnap → Bool) (s : MetaSnap) :
    Greedy m pred s (m.getApplicableDiffList s pred) := by
  -- induction on the diffs left, along the loop without its bound
  induction hr : remaining m s using Nat.strong_induction_on generalizing s with
  | _ r ih =>
      rw [h.getApplicableDiffList_eq]
      cases hd : m.getApplicableDiffNolock s with
      | none =>
          refine ⟨trivial, by simp, trivial, ?_, ?_⟩
          · intro u d w he
            simp at he
          · intro d he
            rw [appliedVec_nil, hd] at he
            exact absurd he (by simp)
      | some d =>
          obtain ⟨hmem, ha, -⟩ := h.of_getApplicableDiff hd
          by_cases hp : pred d (applied s d) = true
          · have hstep : m.applicableStep pred s = some (d, applied s d) := by
              simp only [MetaDiffManager.applicableStep, hd, hp, if_true]
            have hg := ih _ (hr ▸ h.remaining_lt hstep) (applied s d) rfl
            simp only [hp, if_true]
            refine ⟨⟨ha, hg.canApply⟩, ?_, ?_, ?_, hg.stop⟩
            · intro e he
              rcases List.mem_cons.1 he with rfl | he
              · exact hmem
              · exact hg.mem e he
            · have hpath := hg.path
              rw [applied_gidB] at hpath
              exact ⟨next_of_getApplicableDiff h hd, hpath⟩
            · intro u e w he
              cases u with
              | nil =>
                  obtain ⟨rfl, -⟩ := List.cons.inj he
                  exact hp
              | cons f u =>
                  obtain ⟨rfl, he'⟩ := List.cons.inj he
                  exact hg.holds u e w he'
          · simp only [hp, Bool.false_eq_true, if_false]
            refine ⟨trivial, by simp, trivial, ?_, ?_⟩
            · intro u e w he
              simp at he
            · intro e he
              rw [appliedVec_nil, hd] at he
              obtain rfl := Option.some.inj he
              simpa using hp

/-- The greedy list goes on from every snapshot it visits as it would start there. -/
theorem getApplicableDiffList_suffix (h : Inv m) {pred : MetaDiff → MetaSnap → Bool} {s : MetaSnap}
    {v w : List MetaDiff} (hl : m.getApplicableDiffList s pred = v ++ w) :
    m.getApplicableDiffList (appliedVec s v) pred = w := by
  induction v generalizing s with
  | nil => exact hl
  | cons d v ih =>
      rw [h.getApplicableDiffList_eq] at hl
      cases hd : m.getApplicableDiffNolock s with
      | none => simp [hd] at hl
      | some e =>
          simp only [hd] at hl
          split_ifs at hl with hp
          · obtain ⟨rfl, htail⟩ := List.cons.inj hl
            exact ih htail
          · simp at hl

theorem getApplicableDiffListByGid_eq (h : Inv m) {s : MetaSnap} {bound : Nat}
    {v : List MetaDiff} (hv : m.getApplicableDiffList s MetaDiffManager.always = v)
    (hle : ∀ d, d ∈ v → d.snapE.gidB ≤ bound) : getApplicableDiffListByGid m s bound = v := by
  induction v generalizing s with
  | nil =>
      rw [h.getApplicableDiffList_eq] at hv
      rw [getApplicableDiffListByGid, h.getApplicableDiffList_eq]
      cases hd : m.getApplicableDiffNolock s with
      | none => rfl
      | some e => simp [hd, MetaDiffManager.always] at hv
  | cons d v ih =>
      rw [h.getApplicableDiffList_eq] at hv
      rw [getApplicableDiffListByGid, h.getApplicableDiffList_eq]
      cases hd : m.getApplicableDiffNolock s with
      | none => simp [hd] at hv
      | some e =>
          simp only [hd, MetaDiffManager.always, if_true] at hv
          obtain ⟨rfl, htail⟩ := List.cons.inj hv
          have hb : (applied s e).gidB ≤ bound := by
            rw [applied_gidB]
            exact hle e List.mem_cons_self
          simp only [hb, decide_true, if_true]
          exact congrArg (e :: ·) (ih htail fun f hf => hle f (List.mem_cons_of_mem _ hf))

/-- The list up to a gid: it is applicable, stays within the bound, and the
next greedy step would leave it. -/
structure Bounded (m : MetaDiffManager) (s : MetaSnap) (bound : Nat) (v : List MetaDiff) : Prop where
  canApply : canApplyVec s v
  path : Path m s.gidB (v.map endGid)
  le : ∀ y, y ∈ v.map endGid → y ≤ bound
  stop : ∀ y, Next m ((v.map endGid).getLastD s.gidB) y → bound < y

theorem bounded_getApplicableDiffListByGid (h : Inv m) (s : MetaSnap) (bound : Nat) :
    Bounded m s bound (getApplicableDiffListByGid m s bound) := by
  have hg := greedy_getApplicableDiffList h (fun _ s => decide (s.gidB ≤ bound)) s
  refine ⟨hg.canApply, hg.path, fun y hy => ?_, fun y hy => ?_⟩
  · obtain ⟨d, hd, rfl⟩ := List.mem_map.1 hy
    obtain ⟨u, w, he⟩ := List.append_of_mem hd
    have hle := hg.holds u d w he
    rw [decide_eq_true_eq, appliedVec_append, appliedVec_cons, appliedVec_nil, applied_gidB] at hle
    exact hle
  · rw [← appliedVec_gidB] at hy
    have hc : Covered m (appliedVec s (getApplicableDiffListByGid m s bound)).gidB :=
      hy.covered le_rfl hy.lt
    obtain ⟨d, hd, hn⟩ := exists_next_of_covered h hc
    obtain rfl := hy.unique hn
    have hstop := hg.stop d hd
    rw [decide_eq_false_iff_not, applied_gidB, not_le] at hstop
    exact hstop

theorem getMinimumApplicableDiffList_of_isApplying {st : MetaState} (hst : st.isApplying = true) :
    getMinimumApplicableDiffList m st = getApplicableDiffListByGid m st.snapB st.snapE.gidB := by
  rw [getMinimumApplicableDiffList, if_pos hst]
  rfl

theorem Bounded.take {s : MetaSnap} {bound : Nat} {v : List MetaDiff} (h : Bounded m s bound v)
    (k : Nat) : canApplyVec s (v.take k) ∧ Path m s.gidB ((v.take k).map endGid) := by
  have hv := List.take_append_drop k v
  have ha := h.canApply
  have hp := h.path
  rw [← hv, canApplyVec_append] at ha
  rw [← hv, List.map_append, path_append] at hp
  exact ⟨ha.1, hp.1⟩

/-- The latest snapshot begins where the greedy walk from the base ends. -/
theorem getLatestSnapshot_spec (h : Inv m) (st : MetaState) :
    ∃ ps, Path m st.snapB.gidB ps ∧ ps.getLastD st.snapB.gidB = (getLatestSnapshot m st).gidB ∧
      ¬Covered m (getLatestSnapshot m st).gidB := by
  have hg := greedy_getApplicableDiffList h MetaDiffManager.always st.snapB
  refine ⟨_, hg.path, (appliedVec_gidB _ _).symm, ?_⟩
  rw [getLatestSnapshot, ← getApplicableDiff_eq_none_iff_not_covered h]
  by_contra hne
  obtain ⟨d, hd⟩ := Option.ne_none_iff_exists'.1 hne
  exact absurd (hg.stop d hd) (by simp [MetaDiffManager.always])

/-- No stored diff the walk can meet goes beyond the latest snapshot. -/
theorem le_latest_of_path (h : Inv m) (st : MetaState) {ps : List Nat}
    (hp : Path m st.snapB.gidB ps) :
    ps.getLastD st.snapB.gidB ≤ (getLatestSnapshot m st).gidB := by
  obtain ⟨qs, hq, he, hend⟩ := getLatestSnapshot_spec h st
  rw [← he] at hend ⊢
  rcases hp.prefix_or hq with ⟨us, rfl⟩ | ⟨us, rfl⟩
  · rw [GreedyCover.getLastD_append]
    exact (path_append.1 hq).2.le_last
  · cases us with
    | nil => simp
    | cons u us =>
        have hn := (path_append.1 hp).2.1
        exact absurd (hn.covered le_rfl hn.lt) hend

theorem mem_of_getApplicableDiffListByGid (h : Inv m) {s : MetaSnap} {bound : Nat} {d : MetaDiff}
    (hd : d ∈ getApplicableDiffListByGid m s bound) : d ∈ m.diffs :=
  h.mem_of_getApplicableDiffList hd

theorem getDiffListToApply_cases (m : MetaDiffManager) (st : MetaState) (gid maxNr : Nat) :
    getDiffListToApply m st gid maxNr = [] ∨
      getDiffListToApply m st gid maxNr = getMinimumApplicableDiffList m st ∨
      ∃ k, getDiffListToApply m st gid maxNr = (getApplicableDiffListByGid m st.snapB gid).take k ∧
        (getMinimumApplicableDiffList m st).length ≤
          ((getApplicableDiffListByGid m st.snapB gid).take k).length := by
  set ap := getApplicableDiffListByGid m st.snapB gid with hap
  by_cases hnil : ap = []
  · left
    have ht : getTargetDiffListsByGid m st gid = ([], []) := by
      simp [getTargetDiffListsByGid, ← hap, hnil]
    simp [getDiffListToApply, ht]
  · have ht : getTargetDiffListsByGid m st gid = (ap, getMinimumApplicableDiffList m st) := by
      simp [getTargetDiffListsByGid, ← hap, hnil]
    have htake : ∃ k, (if maxNr > 0 ∧ ap.length > maxNr then ap.take maxNr else ap) = ap.take k := by
      by_cases hmax : maxNr > 0 ∧ ap.length > maxNr
      · exact ⟨maxNr, by rw [if_pos hmax]⟩
      · exact ⟨ap.length, by rw [if_neg hmax, List.take_length]⟩
    obtain ⟨k, hk⟩ := htake
    rw [getDiffListToApply, ht]
    dsimp only
    rw [hk]
    split_ifs with hlen
    · exact .inr (.inl rfl)
    · exact .inr (.inr ⟨k, rfl, not_lt.1 hlen⟩)

theorem getDiffListToApply_spec (h : Inv m) (st : MetaState) (gid maxNr : Nat) :
    canApplyVec st.snapB (getDiffListToApply m st gid maxNr) ∧
      ∀ d, d ∈ getDiffListToApply m st gid maxNr → d ∈ m.diffs := by
  rcases getDiffListToApply_cases m st gid maxNr with he | he | ⟨k, he, -⟩
  · rw [he]
    exact ⟨trivial, by simp⟩
  · rw [he]
    by_cases hst : st.isApplying = true
    · rw [getMinimumApplicableDiffList_of_isApplying hst]
      exact ⟨(bounded_getApplicableDiffListByGid h _ _).canApply,
        fun d hd => mem_of_getApplicableDiffListByGid h hd⟩
    · rw [getMinimumApplicableDiffList, if_neg hst]
      exact ⟨trivial, by simp⟩
  · rw [he]
    exact ⟨((bounded_getApplicableDiffListByGid h _ _).take k).1,
      fun d hd => mem_of_getApplicableDiffListByGid h (List.mem_of_mem_take hd)⟩

/-- The members of an applicable list cover what the list passes over. -/
theorem covered_of_canApplyVec {s : MetaSnap} {v : List MetaDiff} (hc : canApplyVec s v) {x : Nat}
    (hs : s.gidB ≤ x) (hx : x < (v.map endGid).getLastD s.gidB) :
    ∃ d, d ∈ v ∧ d.snapB.gidB ≤ x ∧ x < d.snapE.gidB := by
  induction v generalizing s with
  | nil =>
      simp at hx
      omega
  | cons d v ih =>
      obtain ⟨hl, -⟩ := canApply_iff.1 hc.1
      by_cases hxd : x < d.snapE.gidB
      · exact ⟨d, List.mem_cons_self, hl.trans hs, hxd⟩
      · rw [List.map_cons, List.getLastD_cons] at hx
        obtain ⟨e, he, hcov⟩ := ih hc.2 (by rw [applied_gidB]; omega)
          (by rw [applied_gidB]; exact hx)
        exact ⟨e, List.mem_cons_of_mem _ he, hcov⟩

theorem mem_diffs_gc (h : Inv m) (s : MetaSnap) (d : MetaDiff) :
    d ∈ (m.gc s).1.diffs ↔ d ∈ m.getApplicableDiffList s MetaDiffManager.always := by
  have hg := greedy_getApplicableDiffList h MetaDiffManager.always s
  have hd : (m.getApplicableDiffList s MetaDiffManager.always).Pairwise (fun d e => ¬d.opEq e) := by
    refine (List.pairwise_map.1 hg.path.pairwise).imp fun {d e} hlt he => ?_
    rw [endGid, endGid, he.2] at hlt
    exact absurd hlt (lt_irrefl _)
  have hadd := (inv_clear (m.eraseVec (m.getApplicableDiffList s MetaDiffManager.always)
    false).1).addVec_ok
    (fun e he => h.valid_of_mem (hg.mem e he)) hd (fun e _ f hf => absurd hf (by
      simp [MetaDiffManager.diffs, MetaDiffManager.clear]))
  rw [MetaDiffManager.gc]
  refine (hadd.2 d).trans ⟨fun hmem => hmem.resolve_left ?_, Or.inr⟩
  simp [MetaDiffManager.diffs, MetaDiffManager.clear]

theorem mem_mergeableCandidates {mdiff d : MetaDiff}
    (hd : d ∈ m.getMergeableCandidatesNolock mdiff) : d ∈ m.diffs ∧ canMerge mdiff d := by
  obtain ⟨hmem, hc⟩ := List.mem_filter.1 hd
  obtain ⟨it, -, hit⟩ := List.mem_filterMap.1 hmem
  obtain ⟨n, hn, -, he⟩ := deref_eq_some hit
  have hc' : ¬mdiff.opEq d ∧ canMerge mdiff d := by simpa using hc
  exact ⟨mem_diffs.2 ⟨n, hn, he⟩, hc'.2⟩

theorem mem_of_getMergeableDiffList {gid : Nat} {pred : MetaDiff → Bool} {d : MetaDiff}
    (hd : d ∈ getMergeableDiffList m gid pred) : d ∈ m.diffs := by
  unfold getMergeableDiffList at hd
  cases hf : getFirstDiffsNolock m gid with
  | nil => simp [hf] at hd
  | cons e v =>
      simp only [hf] at hd
      have hfirst : ∀ f, f ∈ getFirstDiffsNolock m gid → f ∈ m.diffs := by
        intro f hmem
        unfold getFirstDiffsNolock at hmem
        split at hmem
        next => exact absurd hmem List.not_mem_nil
        next n l hl =>
          obtain ⟨n', hn', rfl⟩ := List.mem_map.1 hmem
          exact mem_diffs.2 ⟨n', (List.dropWhile_sublist _).subset
            ((List.takeWhile_sublist _).subset hn'), rfl⟩
      rcases List.mem_cons.1 hd with rfl | hd
      · exact hfirst _ (hf ▸ (maxProgressFrom_spec e v).1)
      · generalize m.mmap.length + 1 = fuel at hd
        generalize maxProgressFrom e v = mdiff at hd
        induction fuel generalizing mdiff with
        | zero => exact absurd hd List.not_mem_nil
        | succ fuel ih =>
            cases hs : mergeableStep m pred mdiff with
            | none => simp [Unfold.unfold_none hs] at hd
            | some r =>
                obtain ⟨f, mdiff'⟩ := r
                rw [Unfold.unfold_succ hs] at hd
                rcases List.mem_cons.1 hd with rfl | hd
                · unfold mergeableStep at hs
                  split at hs
                  next => exact absurd hs (by simp)
                  next f u hcand =>
                    dsimp only at hs
                    split_ifs at hs
                    obtain ⟨rfl, -⟩ : maxProgressFrom f u = d ∧ _ := by simpa using hs
                    exact (mem_mergeableCandidates (hcand ▸ (maxProgressFrom_spec f u).1)).1
                · exact ih mdiff' hd

end WalbTools.DiffLists
