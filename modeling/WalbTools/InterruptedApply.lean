import Mathlib
import WalbTools.DiffLists

namespace WalbTools.InterruptedApply

open Meta DiffManager DiffLists

variable {m : MetaDiffManager} {st : MetaState}

/-- One diff is received while the base state is `st`: it must be applicable to
the latest snapshot, and the garbage in its own range may be removed. -/
def receive (m : MetaDiffManager) (st : MetaState) (d : MetaDiff) (doesGc : Bool) :
    Except String MetaDiffManager :=
  match getRelation (getLatestSnapshot m st) d with
  | .applicableDiff =>
      match m.addNolock d with
      | .ok m' => .ok (if doesGc then (m'.gcRange d.snapB.gidB d.snapE.gidB).1 else m')
      | .error e => .error e
  | .tooOldDiff => .error "too-old-diff"
  | .tooNewDiff => .error "too-new-diff"
  | .notApplicableDiff => .error "bad meta diff relation"

/-- Runs of accepted receptions; `P` holds of each with the states around it. -/
inductive Received (st : MetaState) (P : MetaDiffManager → MetaDiff → MetaDiffManager → Prop)
    (m : MetaDiffManager) : List (MetaDiff × Bool) → MetaDiffManager → Prop
  | nil : Received st P m [] m
  | snoc {l : List (MetaDiff × Bool)} {m' m'' : MetaDiffManager} {d : MetaDiff} {doesGc : Bool}
      (hm : Received st P m l m') (hv : d.Valid) (hr : receive m' st d doesGc = .ok m'')
      (hP : P m' d m'') : Received st P m (l ++ [(d, doesGc)]) m''

def Any : MetaDiffManager → MetaDiff → MetaDiffManager → Prop := fun _ _ _ => True

/-- The received diff does not start after the base and at or before a snapshot
in the middle of the interrupted list, unless some diff leads from the base past
the target anyway. -/
def Clear (st : MetaState) (v : List MetaDiff) (m : MetaDiffManager) (d : MetaDiff) : Prop :=
  d.snapB.gidB ≤ st.snapB.gidB ∨ (∀ e, e ∈ v.dropLast → e.snapE.gidB < d.snapB.gidB) ∨
    ∃ e, e ∈ m.diffs ∧ canApply st.snapB e ∧ st.snapE.gidB < e.snapE.gidB

/-- The interrupted apply can be finished: every list to apply is empty or is
applicable and reaches the target. -/
def Finishable (m : MetaDiffManager) (st : MetaState) : Prop :=
  ∀ gid maxNr, getDiffListToApply m st gid maxNr = [] ∨
    st.canApplyVec (getDiffListToApply m st gid maxNr)

theorem receive_eq_ok (h : Inv m) {d : MetaDiff} (hv : d.Valid) {doesGc : Bool}
    {m' : MetaDiffManager} (hr : receive m st d doesGc = .ok m') :
    canApply (getLatestSnapshot m st) d ∧ Inv m' ∧ d ∈ m'.diffs ∧
      (∀ e, e ∈ m'.diffs → e = d ∨ e ∈ m.diffs) ∧
      ∀ e, e ∈ m.diffs → ¬(d.snapB.gidB ≤ e.snapB.gidB ∧ e.snapE.gidB ≤ d.snapE.gidB) →
        e ∈ m'.diffs := by
  unfold receive at hr
  cases hrel : getRelation (getLatestSnapshot m st) d with
  | tooOldDiff => simp [hrel] at hr
  | tooNewDiff => simp [hrel] at hr
  | notApplicableDiff => simp [hrel] at hr
  | applicableDiff =>
      cases ha : m.addNolock d with
      | error e => simp [hrel, ha] at hr
      | ok m₁ =>
          obtain ⟨hinv, rfl, -⟩ := h.addNolock hv ha
          cases doesGc with
          | false =>
              obtain rfl : m.emplace d = m' := by simpa [hrel, ha] using hr
              exact ⟨hrel, hinv, mem_diffs_emplace.2 (.inl rfl), fun e he => mem_diffs_emplace.1 he,
                fun e he _ => mem_diffs_emplace.2 (.inr he)⟩
          | true =>
              obtain rfl : ((m.emplace d).gcRange d.snapB.gidB d.snapE.gidB).1 = m' := by
                simpa [hrel, ha] using hr
              refine ⟨hrel, hinv.eraseLoop _ _ (List.dropWhile_sublist _),
                hinv.mem_diffs_gcRange.2 ⟨mem_diffs_emplace.2 (.inl rfl), by simp⟩,
                fun e he => mem_diffs_emplace.1 (hinv.mem_diffs_gcRange.1 he).1, fun e he hn => ?_⟩
              exact hinv.mem_diffs_gcRange.2
                ⟨mem_diffs_emplace.2 (.inr he), fun hc => hn ⟨hc.1, hc.2.1⟩⟩

theorem Received.inv {P : MetaDiffManager → MetaDiff → MetaDiffManager → Prop}
    {l : List (MetaDiff × Bool)} {m' : MetaDiffManager} (h : Inv m) (hr : Received st P m l m') :
    Inv m' := by
  induction hr with
  | nil => exact h
  | snoc _ hv hr _ ih => exact (receive_eq_ok ih hv hr).2.1

def Overshoots (m : MetaDiffManager) (st : MetaState) : Prop :=
  ∃ e, e ∈ m.diffs ∧ canApply st.snapB e ∧ st.snapE.gidB < e.snapE.gidB

/-- What reception keeps about an interrupted apply with the points `ps`. -/
def Kept (m : MetaDiffManager) (st : MetaState) (ps : List Nat) : Prop :=
  Overshoots m st ∨ Path m st.snapB.gidB ps

theorem Overshoots.of_receive (h : Inv m) (ho : Overshoots m st) {d : MetaDiff} (hv : d.Valid)
    {doesGc : Bool} {m' : MetaDiffManager} (hr : receive m st d doesGc = .ok m') :
    Overshoots m' st := by
  obtain ⟨e, he, ha, hlt⟩ := ho
  obtain ⟨-, -, hd, -, hold⟩ := receive_eq_ok h hv hr
  by_cases hc : d.snapB.gidB ≤ e.snapB.gidB ∧ e.snapE.gidB ≤ d.snapE.gidB
  · rw [canApply_iff] at ha
    exact ⟨d, hd, canApply_iff.2 ⟨hc.1.trans ha.1, ha.2.trans_le hc.2⟩, hlt.trans_le hc.2⟩
  · exact ⟨e, hold e he hc, ha, hlt⟩

/-- A greedy step from before the received diff is not disturbed by it. -/
theorem next_receive (h : Inv m) {d : MetaDiff} (hv : d.Valid) {doesGc : Bool}
    {m' : MetaDiffManager} (hr : receive m st d doesGc = .ok m') {x y : Nat}
    (hx : x < d.snapB.gidB) (hn : Next m x y) : Next m' x y := by
  obtain ⟨-, -, -, hnew, hold⟩ := receive_eq_ok h hv hr
  obtain ⟨⟨e, he, ⟨hl, hlt⟩, hy⟩, hmax⟩ := hn
  refine ⟨⟨e, hold e he fun hc => ?_, ⟨hl, hlt⟩, hy⟩, fun f hf hfl hflt => ?_⟩
  · have hle := hc.1.trans hl
    omega
  · rcases hnew f hf with rfl | hf
    · exact absurd hfl (not_le.2 hx)
    · exact hmax f hf hfl hflt

theorem lt_of_mem_dropLast {x b : Nat} {v : List MetaDiff} (hx : x < b)
    (hv : ∀ e, e ∈ v.dropLast → e.snapE.gidB < b) {z : Nat}
    (hz : z ∈ (x :: v.map endGid).dropLast) : z < b := by
  cases v with
  | nil => simp at hz
  | cons d v =>
      rw [List.map_cons, List.dropLast_cons_of_ne_nil (List.cons_ne_nil _ _), ← List.map_cons,
        ← List.map_dropLast] at hz
      rcases List.mem_cons.1 hz with rfl | hz
      · exact hx
      · obtain ⟨e, he, rfl⟩ := List.mem_map.1 hz
        exact hv e he

theorem Kept.of_receive (h : Inv m) {v : List MetaDiff} (hk : Kept m st (v.map endGid))
    (hE : st.snapE.gidB = (v.map endGid).getLastD st.snapB.gidB) {d : MetaDiff} (hv : d.Valid)
    (hc : Clear st v m d) {doesGc : Bool} {m' : MetaDiffManager}
    (hr : receive m st d doesGc = .ok m') : Kept m' st (v.map endGid) := by
  rcases hk with ho | hp
  · exact .inl (ho.of_receive h hv hr)
  · have hlatest := le_latest_of_path h st hp
    have hnil : Path m st.snapB.gidB [] := trivial
    have hbase := le_latest_of_path h st hnil
    obtain ⟨ha, -, hd, -, -⟩ := receive_eq_ok h hv hr
    obtain ⟨-, hpast⟩ := canApply_iff.1 ha
    rw [← hE] at hlatest
    by_cases hle : d.snapB.gidB ≤ st.snapB.gidB
    · exact .inl ⟨d, hd, canApply_iff.2 ⟨hle, hbase.trans_lt hpast⟩, hlatest.trans_lt hpast⟩
    · rcases hc with hc | hc | hc
      · exact absurd hc hle
      · exact .inr (GreedyCover.Path.of_next hp fun z hz y hn =>
          next_receive h hv hr (lt_of_mem_dropLast (not_le.1 hle) hc hz) hn)
      · exact .inl (Overshoots.of_receive h hc hv hr)

theorem minimum_of_kept (h : Inv m) (hst : st.isApplying = true) {v : List MetaDiff}
    (hk : Kept m st (v.map endGid))
    (hE : st.snapE.gidB = (v.map endGid).getLastD st.snapB.gidB) :
    getMinimumApplicableDiffList m st = [] ∨
      (appliedVec st.snapB (getMinimumApplicableDiffList m st)).gidB = st.snapE.gidB := by
  rw [getMinimumApplicableDiffList_of_isApplying hst]
  have hb := bounded_getApplicableDiffListByGid h st.snapB st.snapE.gidB
  generalize getApplicableDiffListByGid m st.snapB st.snapE.gidB = mn at hb
  rcases hk with ⟨e, he, ha, hpast⟩ | hp
  · left
    cases mn with
    | nil => rfl
    | cons d mn =>
        obtain ⟨hl, hlt'⟩ := canApply_iff.1 ha
        have hmax := hb.path.1.2 e he hl hlt'
        have hle := hb.le (endGid d) List.mem_cons_self
        exact absurd (hpast.trans_le hmax) (not_lt.2 hle)
  · right
    have hple : ∀ y, y ∈ v.map endGid → y ≤ st.snapE.gidB := by
      intro y hy
      obtain ⟨us, ws, he⟩ := List.append_of_mem hy
      have hpath := hp
      rw [he, path_append] at hpath
      rw [hE, he, GreedyCover.getLastD_append, List.getLastD_cons]
      exact hpath.2.2.le_last
    have hstop : ∀ y, Next m ((v.map endGid).getLastD st.snapB.gidB) y → st.snapE.gidB < y := by
      intro y hy
      rw [← hE] at hy
      exact hy.lt
    have heq := GreedyCover.Path.eq_of_bound hb.path hp hb.le hple hb.stop hstop
    rw [appliedVec_gidB, heq, hE]

theorem finishable_of_minimum (h : Inv m) (hst : st.isApplying = true)
    (hmin : getMinimumApplicableDiffList m st = [] ∨
      (appliedVec st.snapB (getMinimumApplicableDiffList m st)).gidB = st.snapE.gidB) :
    Finishable m st := by
  intro gid maxNr
  have hmn := getMinimumApplicableDiffList_of_isApplying (m := m) hst
  have hb := bounded_getApplicableDiffListByGid h st.snapB st.snapE.gidB
  rw [← hmn] at hb
  rcases getDiffListToApply_cases m st gid maxNr with he | he | ⟨k, he, hlen⟩
  · exact .inl he
  · rw [he]
    rcases hmin with hnil | hend
    · exact .inl hnil
    · exact .inr ⟨hb.canApply, fun hgt => absurd hgt.2 (by omega)⟩
  · rw [he]
    obtain ⟨ha, hp⟩ := (bounded_getApplicableDiffListByGid h st.snapB gid).take k
    generalize (getApplicableDiffListByGid m st.snapB gid).take k = l at ha hp hlen
    generalize getMinimumApplicableDiffList m st = mn at hb hmin hlen
    by_cases hl : l = []
    · exact .inl hl
    refine .inr ⟨ha, fun hgt => absurd hgt.2 (not_lt.2 ?_)⟩
    rw [appliedVec_gidB]
    -- the list goes at least as far as the minimum one
    have hinit : mn.map endGid <+: l.map endGid := by
      rcases hb.path.prefix_or hp with hpre | hpre
      · exact hpre
      · have hle := hpre.length_le
        rw [List.length_map, List.length_map] at hle
        rw [hpre.eq_of_length (by rw [List.length_map, List.length_map]; omega)]
    obtain ⟨ws, hws⟩ := hinit
    cases ws with
    | nil =>
        rw [List.append_nil] at hws
        rcases hmin with rfl | hend
        · exact absurd (List.map_eq_nil_iff.1 hws.symm) hl
        · rw [← hws, ← appliedVec_gidB]
          exact hend.symm.le
    | cons w ws =>
        rw [← hws, path_append] at hp
        rw [← hws, GreedyCover.getLastD_append, List.getLastD_cons]
        exact (hb.stop w hp.2.1).le.trans hp.2.2.le_last

theorem beginApplyingVec_of_ne_nil (st : MetaState) {v : List MetaDiff} (hv : v ≠ []) :
    (st.beginApplyingVec v).isApplying = true ∧ (st.beginApplyingVec v).snapB = st.snapB ∧
      (st.beginApplyingVec v).snapE = appliedVec st.snapB v := by
  unfold MetaState.beginApplyingVec
  cases v using List.reverseRecOn with
  | nil => exact absurd rfl hv
  | append_singleton v d => simp [MetaState.ofSnaps]

theorem finishable_of_not_isApplying (h : Inv m) (hst : st.isApplying = false) :
    Finishable m st := by
  intro gid maxNr
  have hmn : getMinimumApplicableDiffList m st = [] := by simp [getMinimumApplicableDiffList, hst]
  rcases getDiffListToApply_cases m st gid maxNr with he | he | ⟨k, he, -⟩
  · exact .inl he
  · exact .inl (he.trans hmn)
  · have ha := ((bounded_getApplicableDiffListByGid h st.snapB gid).take k).1
    exact .inr (he ▸ ⟨ha, by simp [hst]⟩)

theorem exists_first {α : Type} {p : α → Prop} {l : List α} (h : ¬∀ a, a ∈ l → p a) :
    ∃ u a w, l = u ++ a :: w ∧ (∀ b, b ∈ u → p b) ∧ ¬p a := by
  induction l with
  | nil => exact absurd nofun h
  | cons b l ih =>
      by_cases hb : p b
      · obtain ⟨u, a, w, hl, hu, ha⟩ := ih fun hall => h (List.forall_mem_cons.2 ⟨hb, hall⟩)
        exact ⟨b :: u, a, w, by rw [hl, List.cons_append], List.forall_mem_cons.2 ⟨hb, hu⟩, ha⟩
      · exact ⟨[], b, l, rfl, nofun, hb⟩

theorem eq_concat_of_dropLast {α : Type} {v u w : List α} {e : α} (h : v.dropLast = u ++ e :: w) :
    ∃ f, v = (u ++ [e]) ++ (w ++ [f]) := by
  cases v using List.reverseRecOn with
  | nil => simp at h
  | append_singleton v f =>
      rw [List.dropLast_concat] at h
      exact ⟨f, by rw [h]; simp⟩

theorem not_finishable_of_lt (hst : st.isApplying = true)
    (hne : getApplicableDiffListByGid m st.snapB st.snapE.gidB ≠ [])
    (hlt : ((getApplicableDiffListByGid m st.snapB st.snapE.gidB).map endGid).getLastD
      st.snapB.gidB < st.snapE.gidB) :
    ¬Finishable m st := by
  have hmn := getMinimumApplicableDiffList_of_isApplying (m := m) hst
  have hlist : getDiffListToApply m st st.snapE.gidB 0 =
      getApplicableDiffListByGid m st.snapB st.snapE.gidB := by
    simp [getDiffListToApply, getTargetDiffListsByGid, hne, hmn]
  intro hfin
  rcases hfin st.snapE.gidB 0 with hnil | hcan
  · exact hne (hlist.symm.trans hnil)
  · rw [hlist] at hcan
    refine hcan.2 ⟨hst, ?_⟩
    rwa [appliedVec_gidB]

/-- A diff that starts inside the interrupted list cuts the walk to the target
off: the walk now jumps over it from an inner snapshot. -/
theorem not_finishable_of_not_clear (h : Inv m) (hst : st.isApplying = true) {v : List MetaDiff}
    (hk : Kept m st (v.map endGid)) (hE : st.snapE.gidB = (v.map endGid).getLastD st.snapB.gidB)
    {d : MetaDiff} (hv : d.Valid) (hc : ¬Clear st v m d) {doesGc : Bool} {m' : MetaDiffManager}
    (hr : receive m st d doesGc = .ok m') : ¬Finishable m' st := by
  simp only [Clear, not_or] at hc
  obtain ⟨hbase, hinner, hover⟩ := hc
  have hp := hk.resolve_left hover
  have hlatest := le_latest_of_path h st hp
  obtain ⟨ha, hinv, hd, -, -⟩ := receive_eq_ok h hv hr
  have hpast := hlatest.trans_lt (canApply_iff.1 ha).2
  rw [← hE] at hpast
  -- `e` leads to the first inner snapshot that the diff covers.
  obtain ⟨u, e, w, hsplit, hu, he⟩ := exists_first hinner
  obtain ⟨f, hv'⟩ := eq_concat_of_dropLast hsplit
  have hp' := hp
  rw [hv', List.map_append, path_append] at hp'
  have hlast : endGid e < st.snapE.gidB := by
    have hbeyond := hp'.2
    rw [List.map_append, List.map_append, GreedyCover.getLastD_append] at hbeyond
    rw [hE, hv', List.map_append, GreedyCover.getLastD_append, List.map_append,
      GreedyCover.getLastD_append]
    have hmem : endGid f ∈ w.map endGid ++ [f].map endGid := by simp
    exact hbeyond.lt hmem
  have hpath : Path m' st.snapB.gidB ((u ++ [e]).map endGid) := by
    refine GreedyCover.Path.of_next hp'.1 fun z hz y hn => next_receive h hv hr ?_ hn
    exact lt_of_mem_dropLast (not_le.1 hbase) (by simpa using hu) hz
  have hend : ((u ++ [e]).map endGid).getLastD st.snapB.gidB = endGid e := by
    rw [List.map_append, GreedyCover.getLastD_append]
    rfl
  have hstop : ∀ y, Next m' (((u ++ [e]).map endGid).getLastD st.snapB.gidB) y →
      st.snapE.gidB < y := by
    intro y hy
    rw [hend] at hy
    exact hpast.trans_le (hy.2 d hd (not_lt.1 he) (hlast.trans hpast))
  have hle : ∀ y, y ∈ (u ++ [e]).map endGid → y ≤ st.snapE.gidB := fun y hy =>
    (hpath.le_of_mem hy).trans (hend.trans_le hlast.le)
  have hb := bounded_getApplicableDiffListByGid hinv st.snapB st.snapE.gidB
  have heq := GreedyCover.Path.eq_of_bound hb.path hpath hb.le hle hb.stop hstop
  refine not_finishable_of_lt hst (fun hnil => ?_) (by rw [heq, hend]; exact hlast)
  rw [hnil] at heq
  simp at heq

/-- The run rule: an invariant of the steps carries one step property over to another. -/
theorem Received.transfer {P Q : MetaDiffManager → MetaDiff → MetaDiffManager → Prop}
    (I : MetaDiffManager → Prop) (h₀ : I m)
    (hstep : ∀ m₁ m₂ d doesGc, I m₁ → d.Valid → receive m₁ st d doesGc = .ok m₂ → P m₁ d m₂ →
      I m₂ ∧ Q m₁ d m₂)
    {l : List (MetaDiff × Bool)} {m' : MetaDiffManager} (hr : Received st P m l m') :
    I m' ∧ Received st Q m l m' := by
  induction hr with
  | nil => exact ⟨h₀, .nil⟩
  | snoc _ hv hr hP ih =>
      obtain ⟨hI, hQ⟩ := hstep _ _ _ _ ih.1 hv hr hP
      exact ⟨hI, ih.2.snoc hv hr hQ⟩

/-- The state of an interrupted apply of `v`, as receptions that meet the
condition keep it. -/
structure Interrupted (st : MetaState) (v : List MetaDiff) (m : MetaDiffManager) : Prop where
  inv : Inv m
  kept : v ≠ [] → Kept m st (v.map endGid)

theorem Interrupted.finishable {v : List MetaDiff} (h : Interrupted st v m)
    (happ : st.isApplying = true ↔ v ≠ [])
    (hE : v ≠ [] → st.snapE.gidB = (v.map endGid).getLastD st.snapB.gidB) : Finishable m st := by
  by_cases hnil : v = []
  · have hst : st.isApplying = false := by
      rw [← Bool.not_eq_true, happ]
      exact not_not.2 hnil
    exact finishable_of_not_isApplying h.inv hst
  · exact finishable_of_minimum h.inv (happ.2 hnil)
      (minimum_of_kept h.inv (happ.2 hnil) (h.kept hnil) (hE hnil))

theorem Interrupted.of_receive {v : List MetaDiff} (h : Interrupted st v m)
    (hE : v ≠ [] → st.snapE.gidB = (v.map endGid).getLastD st.snapB.gidB) {d : MetaDiff}
    (hv : d.Valid) (hc : Clear st v m d) {doesGc : Bool} {m' : MetaDiffManager}
    (hr : receive m st d doesGc = .ok m') : Interrupted st v m' :=
  ⟨(receive_eq_ok h.inv hv hr).2.1, fun hnil => (h.kept hnil).of_receive h.inv (hE hnil) hv hc hr⟩

theorem Interrupted.clear_of_finishable {v : List MetaDiff} (h : Interrupted st v m)
    (happ : st.isApplying = true ↔ v ≠ [])
    (hE : v ≠ [] → st.snapE.gidB = (v.map endGid).getLastD st.snapB.gidB) {d : MetaDiff}
    (hv : d.Valid) {doesGc : Bool} {m' : MetaDiffManager} (hr : receive m st d doesGc = .ok m')
    (hf : Finishable m' st) : Clear st v m d := by
  by_cases hnil : v = []
  · exact .inr (.inl (by simp [hnil]))
  · by_contra hc
    exact not_finishable_of_not_clear h.inv (happ.2 hnil) (h.kept hnil) (hE hnil) hv hc hr hf

theorem interrupted_beginApplyingVec (h : Inv m) (snap : MetaSnap) (ts g maxNr : Nat)
    {v : List MetaDiff} (hv : v = getDiffListToApply m (.ofSnap snap ts) g maxNr)
    (hst : st = (MetaState.ofSnap snap ts).beginApplyingVec v) :
    Interrupted st v m ∧ (st.isApplying = true ↔ v ≠ []) ∧
      (v ≠ [] → st.snapE.gidB = (v.map endGid).getLastD st.snapB.gidB) := by
  have hB : st.snapB = snap := by
    by_cases hnil : v = []
    · rw [hst, hnil]
      rfl
    · rw [hst]
      exact (beginApplyingVec_of_ne_nil (.ofSnap snap ts) hnil).2.1
  have hpath : Path m st.snapB.gidB (v.map endGid) := by
    rw [hB]
    rcases getDiffListToApply_cases m (.ofSnap snap ts) g maxNr with he | he | ⟨k, he, -⟩
    · rw [hv, he]
      trivial
    · rw [hv, he]
      trivial
    · rw [hv, he]
      exact ((bounded_getApplicableDiffListByGid h snap g).take k).2
  refine ⟨⟨h, fun _ => .inr hpath⟩, ⟨fun happ hnil => ?_, fun hnil => ?_⟩, fun hnil => ?_⟩
  · rw [hst, hnil] at happ
    exact absurd happ (by simp [MetaState.beginApplyingVec, MetaState.ofSnap])
  · rw [hst]
    exact (beginApplyingVec_of_ne_nil _ hnil).1
  · rw [← appliedVec_gidB, hB, hst, (beginApplyingVec_of_ne_nil _ hnil).2.2]
    rfl

/-- The runs whose receptions all meet the condition are the runs in which the
interrupted apply can be finished in every state reached. -/
theorem interrupted_apply_finishes (snap : MetaSnap) (ts g maxNr : Nat) {m₀ m₁ : MetaDiffManager}
    {l₀ l₁ : List (MetaDiff × Bool)} {v : List MetaDiff}
    (h₀ : Received (.ofSnap snap ts) Any .empty l₀ m₀)
    (hv : v = getDiffListToApply m₀ (.ofSnap snap ts) g maxNr)
    (hst : st = (MetaState.ofSnap snap ts).beginApplyingVec v) :
    (Received st (fun m d _ => Clear st v m d) m₀ l₁ m₁ → Finishable m₁ st) ∧
      (Received st (fun m d _ => Clear st v m d) m₀ l₁ m₁ ↔
        Received st (fun _ _ m' => Finishable m' st) m₀ l₁ m₁) := by
  obtain ⟨hint, happ, hE⟩ := interrupted_beginApplyingVec (h₀.inv inv_empty) snap ts g maxNr hv hst
  have hclear (hr : Received st (fun m d _ => Clear st v m d) m₀ l₁ m₁) :=
    hr.transfer (Q := fun _ _ m' => Finishable m' st) (Interrupted st v) hint
      (fun m₁ m₂ d doesGc hI hd hr hP =>
        have hI' := hI.of_receive hE hd hP hr
        ⟨hI', hI'.finishable happ hE⟩)
  refine ⟨fun hr => (hclear hr).1.finishable happ hE, fun hr => (hclear hr).2, fun hr => ?_⟩
  refine (hr.transfer (Q := fun m d _ => Clear st v m d) (Interrupted st v) hint ?_).2
  intro m₁ m₂ d doesGc hI hd hr hP
  have hc := hI.clear_of_finishable happ hE hd hr hP
  exact ⟨hI.of_receive hE hd hc hr, hc⟩

def diff01 : MetaDiff := .ofSnaps (.clean 0) (.clean 1) true 0
def diff12 : MetaDiff := .ofSnaps (.clean 1) (.clean 2) true 0
def diff13 : MetaDiff := .ofSnaps (.clean 1) (.clean 3) true 0
def diff23 : MetaDiff := .ofSnaps (.clean 2) (.clean 3) true 0

def twoDiffs : MetaDiffManager := (MetaDiffManager.empty.emplace diff01).emplace diff12

def halfApplied : MetaState :=
  (MetaState.ofSnap (.clean 0) 0).beginApplyingVec (getDiffListToApply twoDiffs
    (.ofSnap (.clean 0) 0) 2 0)

theorem received_twoDiffs :
    Received (.ofSnap (.clean 0) 0) Any .empty [(diff01, false), (diff12, false)] twoDiffs := by
  have h₁ : Received (.ofSnap (.clean 0) 0) Any .empty [(diff01, false)]
      (MetaDiffManager.empty.emplace diff01) :=
    Received.snoc (l := []) .nil (by decide) (by decide +kernel) trivial
  exact h₁.snoc (by decide) (by decide +kernel) trivial

/-- The last diff arrives again, merged with its successor: the list to apply
up to gid 1 then drops the half written second diff. -/
theorem interrupted_apply_dropped :
    Received (.ofSnap (.clean 0) 0) Any .empty [(diff01, false), (diff12, false)] twoDiffs ∧
      Received halfApplied Any twoDiffs [(diff13, false)] (twoDiffs.emplace diff13) ∧
      getDiffListToApply (twoDiffs.emplace diff13) halfApplied 1 0 = [diff01] ∧
      ¬Finishable (twoDiffs.emplace diff13) halfApplied := by
  refine ⟨received_twoDiffs, Received.snoc (l := []) .nil (by decide) (by decide +kernel) trivial,
    by decide +kernel, fun hf => ?_⟩
  rcases hf 1 0 with h | h
  · exact absurd h (by decide +kernel)
  · exact absurd h (by decide +kernel)

theorem interrupted_apply_finishes_next :
    Finishable (twoDiffs.emplace diff23) halfApplied := by
  have hv : getDiffListToApply twoDiffs (.ofSnap (.clean 0) 0) 2 0 = [diff01, diff12] := by
    decide +kernel
  have hr : Received halfApplied (fun m d _ => Clear halfApplied
      (getDiffListToApply twoDiffs (.ofSnap (.clean 0) 0) 2 0) m d) twoDiffs [(diff23, false)]
      (twoDiffs.emplace diff23) := by
    refine Received.snoc (l := []) .nil (by decide) (by decide +kernel) (.inr (.inl ?_))
    rw [hv]
    decide
  exact (interrupted_apply_finishes (.clean 0) 0 2 0 received_twoDiffs rfl rfl).1 hr

end WalbTools.InterruptedApply
