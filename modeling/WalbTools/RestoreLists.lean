import WalbTools.DiffLists

namespace WalbTools.RestoreLists

open Meta DiffManager DiffLists

variable {m : MetaDiffManager}

theorem walk_of_canApplyVec {s : MetaSnap} {v : List MetaDiff} (hv : ∀ d, d ∈ v → d ∈ m.diffs)
    (hc : canApplyVec s v) :
    GreedyCover.Walk beginGid endGid (family m) s.gidB v := by
  induction v generalizing s with
  | nil => trivial
  | cons d v ih =>
      obtain ⟨hd, hv⟩ := List.forall_mem_cons.1 hv
      have hrest := ih hv hc.2
      rw [applied_gidB] at hrest
      exact ⟨hd, canApply_iff.1 hc.1, hrest⟩

theorem not_covered_latest (h : Inv m) (s : MetaSnap) :
    ¬Covered m (((m.getApplicableDiffList s MetaDiffManager.always).map endGid).getLastD s.gidB) := by
  have hg := greedy_getApplicableDiffList h MetaDiffManager.always s
  rw [← appliedVec_gidB, ← getApplicableDiff_eq_none_iff_not_covered h]
  by_contra hne
  obtain ⟨d, hd⟩ := Option.ne_none_iff_exists'.1 hne
  have hstop := hg.stop d hd
  exact absurd hstop (by simp [MetaDiffManager.always])

abbrev full (m : MetaDiffManager) (s : MetaSnap) : List MetaDiff :=
  m.getApplicableDiffList s MetaDiffManager.always

theorem full_pairwise (h : Inv m) (s : MetaSnap) : ((full m s).map endGid).Pairwise (· < ·) :=
  (greedy_getApplicableDiffList h MetaDiffManager.always s).path.pairwise

/-- A list with a condition on the gids is the part of the greedy list that satisfies it. -/
theorem getApplicableDiffList_eq_takeWhile (h : Inv m) (f : Nat → Bool) {s : MetaSnap}
    {v : List MetaDiff} (hv : full m s = v) :
    m.getApplicableDiffList s (fun _ s => f s.gidB) = v.takeWhile fun d => f (endGid d) := by
  induction v generalizing s with
  | nil =>
      rw [full, h.getApplicableDiffList_eq] at hv
      rw [h.getApplicableDiffList_eq]
      cases hd : m.getApplicableDiffNolock s with
      | none => rfl
      | some e => simp [hd, MetaDiffManager.always] at hv
  | cons d v ih =>
      rw [full, h.getApplicableDiffList_eq] at hv
      rw [h.getApplicableDiffList_eq]
      cases hd : m.getApplicableDiffNolock s with
      | none => simp [hd] at hv
      | some e =>
          simp only [hd, MetaDiffManager.always, if_true] at hv
          obtain ⟨rfl, htail⟩ := List.cons.inj hv
          dsimp only
          rw [applied_gidB, List.takeWhile_cons, ih htail]
          rfl

theorem getApplicableDiffListByGid_eq_takeWhile (h : Inv m) {s : MetaSnap} {v : List MetaDiff}
    (hv : full m s = v) (bound : Nat) :
    getApplicableDiffListByGid m s bound = v.takeWhile fun d => decide (endGid d ≤ bound) :=
  getApplicableDiffList_eq_takeWhile h (fun gid => decide (gid ≤ bound)) hv

/-- A prefix of the greedy list is the list up to the gid where it ends. -/
theorem getApplicableDiffListByGid_of_prefix (h : Inv m) {s : MetaSnap} {p q : List MetaDiff}
    (hv : full m s = p ++ q) {d : MetaDiff}
    (hd : p.getLast? = some d) : getApplicableDiffListByGid m s (endGid d) = p := by
  rw [getApplicableDiffListByGid_eq_takeWhile h hv]
  have hpw := full_pairwise h s
  rw [hv, List.map_append, List.pairwise_append] at hpw
  obtain ⟨hp, -, hpq⟩ := hpw
  obtain ⟨u, rfl⟩ := List.getLast?_eq_some_iff.1 hd
  have hdm : endGid d ∈ (u ++ [d]).map endGid :=
    List.mem_map_of_mem (List.mem_append_right u List.mem_cons_self)
  have hle : ∀ e, e ∈ u ++ [d] → decide (endGid e ≤ endGid d) = true := by
    intro e he
    rw [decide_eq_true_eq]
    rcases List.mem_append.1 he with he | he
    · rw [List.map_append, List.pairwise_append] at hp
      exact (hp.2.2 _ (List.mem_map_of_mem he) _ (List.mem_map_of_mem List.mem_cons_self)).le
    · exact (congrArg endGid (List.mem_singleton.1 he)).le
  have hq : q.takeWhile (fun e => decide (endGid e ≤ endGid d)) = [] := by
    cases q with
    | nil => rfl
    | cons e q =>
        have hlt := hpq _ hdm _ (List.mem_map_of_mem List.mem_cons_self)
        rw [List.takeWhile_cons_of_neg]
        rw [decide_eq_true_eq]
        exact not_le.2 hlt
  rw [List.takeWhile_append_of_pos hle, hq, List.append_nil]

theorem minimum_isPrefix (h : Inv m) (st : MetaState) :
    getMinimumApplicableDiffList m st <+: full m st.snapB := by
  by_cases hst : st.isApplying = true
  · rw [getMinimumApplicableDiffList_of_isApplying hst, getApplicableDiffListByGid_eq_takeWhile h rfl]
    exact List.takeWhile_prefix _
  · rw [getMinimumApplicableDiffList, if_neg hst]
    exact List.nil_prefix

theorem getTargetDiffLists_eq (h : Inv m) (st : MetaState) :
    getTargetDiffLists m st = .ok (full m st.snapB, getMinimumApplicableDiffList m st) := by
  rw [getTargetDiffLists]
  exact if_neg (not_lt.2 (minimum_isPrefix h st).length_le)

/-- A list that reproduces a snapshot is a part of the greedy list that leads to it. -/
theorem of_getDiffListToSync (h : Inv m) {st : MetaState} {snap : MetaSnap}
    (hne : getDiffListToSync m st snap ≠ []) :
    getDiffListToSync m st snap <+: full m st.snapB ∧
      (getMinimumApplicableDiffList m st).length ≤ (getDiffListToSync m st snap).length ∧
      appliedVec st.snapB (getDiffListToSync m st snap) = snap := by
  cases hap : getApplicableDiffListByGid m st.snapB snap.gidB with
  | nil => simp [getDiffListToSync, getTargetDiffListsByGid, hap] at hne
  | cons d v =>
      have hinit : d :: v <+: full m st.snapB := by
        rw [← hap, getApplicableDiffListByGid_eq_takeWhile h rfl]
        exact List.takeWhile_prefix _
      have ht : getTargetDiffListsByGid m st snap.gidB =
          (d :: v, getMinimumApplicableDiffList m st) := by
        rw [getTargetDiffListsByGid, hap]
        rfl
      rw [getDiffListToSync, ht] at hne ⊢
      dsimp only at hne ⊢
      split_ifs at hne ⊢ with hlen hsnap
      · exact absurd rfl hne
      · exact absurd rfl hne
      · rw [MetaState.applyVec, MetaState.endApplyingVec_snapB, not_not] at hsnap
        exact ⟨hinit, not_lt.1 hlen, hsnap⟩

theorem getDiffListToSync_eq (h : Inv m) {st : MetaState} {gid : Nat} {p q : List MetaDiff}
    (hv : full m st.snapB = p ++ q)
    (hp : p ≠ []) (hmin : (getMinimumApplicableDiffList m st).length ≤ p.length)
    (happ : appliedVec st.snapB p = MetaSnap.clean gid) :
    getDiffListToSync m st (MetaSnap.clean gid) = p := by
  have hlast : p.getLast? = some (p.getLast hp) := List.getLast?_eq_some_getLast hp
  have hgid : endGid (p.getLast hp) = gid := by
    have hB := congrArg MetaSnap.gidB happ
    rw [appliedVec_gidB] at hB
    obtain ⟨u, hu⟩ := List.getLast?_eq_some_iff.1 hlast
    rw [hu, List.map_append, List.map_singleton, GreedyCover.getLastD_append] at hB
    exact hB
  have hby : getApplicableDiffListByGid m st.snapB gid = p :=
    hgid ▸ getApplicableDiffListByGid_of_prefix h hv hlast
  rw [getDiffListToSync, getTargetDiffListsByGid, MetaSnap.clean_gidB, hby,
    if_neg (by rw [List.isEmpty_iff]; exact hp)]
  dsimp only
  rw [if_neg (not_lt.2 hmin), MetaState.applyVec, MetaState.endApplyingVec_snapB, happ,
    if_neg (not_not.2 rfl)]

/-- A clean point is explicit at the end of the list and before a diff that must
not be merged. -/
def explicitBefore : List MetaDiff → Bool
  | [] => true
  | e :: _ => !e.isMergeable

def stateAfter (snap : MetaSnap) (u : List MetaDiff) (d : MetaDiff) (w : List MetaDiff) : MetaState :=
  { MetaState.ofSnap (appliedVec snap (u ++ [d])) d.timestamp with isExplicit := explicitBefore w }

theorem mem_restorableFrom {isAll : Bool} {st r : MetaState} {v : List MetaDiff} :
    r ∈ restorableFrom isAll st v ↔
      ∃ u d w, v = u ++ d :: w ∧ r = stateAfter st.snapB u d w ∧ r.snapB.isClean ∧
      (isAll = true ∨ r.isExplicit = true) := by
  induction v generalizing st r with
  | nil =>
      refine iff_of_false List.not_mem_nil ?_
      rintro ⟨u, d, w, hv, -⟩
      exact absurd hv.symm (List.append_ne_nil_of_right_ne_nil u (List.cons_ne_nil d w))
  | cons d v ih =>
      have hstep : restorableFrom isAll st (d :: v) =
          if (stateAfter st.snapB [] d v).snapB.isClean ∧
          (isAll = true ∨ (stateAfter st.snapB [] d v).isExplicit = true) then
            stateAfter st.snapB [] d v :: restorableFrom isAll (stateAfter st.snapB [] d v) v
          else restorableFrom isAll (stateAfter st.snapB [] d v) v := by
        cases v
        · rfl
        · rfl
      have htail : ∀ r, r ∈ restorableFrom isAll (stateAfter st.snapB [] d v) v ↔
          ∃ u e w, v = u ++ e :: w ∧ r = stateAfter st.snapB (d :: u) e w ∧ r.snapB.isClean ∧
          (isAll = true ∨ r.isExplicit = true) :=
        fun r => @ih (stateAfter st.snapB [] d v) r
      rw [hstep]
      constructor
      · intro hr
        have hr' : (r = stateAfter st.snapB [] d v ∧ (r.snapB.isClean ∧
            (isAll = true ∨ r.isExplicit = true))) ∨
              r ∈ restorableFrom isAll (stateAfter st.snapB [] d v) v := by
          split_ifs at hr with hc
          · rcases List.mem_cons.1 hr with rfl | hr
            · exact .inl ⟨rfl, hc⟩
            · exact .inr hr
          · exact .inr hr
        rcases hr' with ⟨rfl, hc⟩ | hr'
        · exact ⟨[], d, v, rfl, rfl, hc⟩
        · obtain ⟨u, e, w, hv, hres⟩ := (htail r).1 hr'
          exact ⟨d :: u, e, w, by rw [hv]; rfl, hres⟩
      · rintro ⟨u, e, w, hv, rfl, hc⟩
        cases u with
        | nil =>
            obtain ⟨rfl, rfl⟩ := List.cons.inj hv
            rw [if_pos hc]
            exact List.mem_cons_self
        | cons f u =>
            obtain ⟨rfl, rfl⟩ := List.cons.inj hv
            have hmem := (htail (stateAfter st.snapB (d :: u) e w)).2 ⟨u, e, w, rfl, rfl, hc⟩
            split_ifs
            · exact List.mem_cons_of_mem _ hmem
            · exact hmem

theorem getRestorableList_eq (h : Inv m) (st : MetaState) (isAll : Bool) :
    ∃ l, getRestorableList m st isAll = .ok l ∧ ∀ r, r ∈ l ↔
      (r = st.applyVec (getMinimumApplicableDiffList m st) ∧ r.snapB.isClean) ∨
        ∃ u d w, full m st.snapB = u ++ d :: w ∧ getMinimumApplicableDiffList m st <+: u ∧
        r = stateAfter st.snapB u d w ∧
          r.snapB.isClean ∧ (isAll = true ∨ r.isExplicit = true) := by
  obtain ⟨rest, hrest⟩ := minimum_isPrefix h st
  have hdrop : (full m st.snapB).drop (getMinimumApplicableDiffList m st).length = rest := by
    rw [← hrest, List.drop_left]
  refine ⟨_, by rw [getRestorableList, getTargetDiffLists_eq h]; rfl, fun r => ?_⟩
  rw [hdrop]
  have hfrom : r ∈ restorableFrom isAll (st.applyVec (getMinimumApplicableDiffList m st)) rest ↔
      ∃ u d w, full m st.snapB = u ++ d :: w ∧ getMinimumApplicableDiffList m st <+: u ∧
      r = stateAfter st.snapB u d w ∧
        r.snapB.isClean ∧ (isAll = true ∨ r.isExplicit = true) := by
    have hafter : ∀ u d w, stateAfter (appliedVec st.snapB (getMinimumApplicableDiffList m st)) u d w =
        stateAfter st.snapB (getMinimumApplicableDiffList m st ++ u) d w := by
      intro u d w
      rw [stateAfter, stateAfter, List.append_assoc, appliedVec_append st.snapB _ (u ++ [d])]
    rw [mem_restorableFrom, MetaState.applyVec, MetaState.endApplyingVec_snapB]
    constructor
    · rintro ⟨u, d, w, rfl, hr⟩
      rw [hafter] at hr
      exact ⟨_ ++ u, d, w, by rw [List.append_assoc, hrest], List.prefix_append _ _, hr⟩
    · rintro ⟨_, d, w, hv, ⟨u, rfl⟩, hr⟩
      rw [← hafter] at hr
      rw [← hrest, List.append_assoc] at hv
      exact ⟨u, d, w, List.append_cancel_left hv, hr⟩
  split_ifs with hc
  · rw [List.mem_cons, hfrom]
    exact or_congr_left ⟨fun hr => ⟨hr, hr ▸ hc⟩, And.left⟩
  · have hnot : ¬(r = st.applyVec (getMinimumApplicableDiffList m st) ∧ r.snapB.isClean) := by
      rintro ⟨rfl, hr⟩
      exact hc hr
    rw [hfrom]
    exact (or_iff_right hnot).symm

/-- The greedy list is a chain of stored diffs, none goes farther, and none that
goes as far is shorter. -/
theorem applicable_list_optimal (ops : List Op)
    (hops : ∀ op, op ∈ ops → ∀ d, d ∈ op.stored → d.Valid) (s : MetaSnap) :
    let m := ops.foldl Op.run .empty
    let v := m.getApplicableDiffList s MetaDiffManager.always
    (∀ d, d ∈ v → d ∈ m.diffs) ∧ canApplyVec s v ∧
      ∀ w, (∀ d, d ∈ w → d ∈ m.diffs) → canApplyVec s w →
        (appliedVec s w).gidB ≤ (appliedVec s v).gidB ∧
          ((appliedVec s w).gidB = (appliedVec s v).gidB → v.length ≤ w.length) := by
  intro m v
  have h : Inv m := inv_foldl inv_empty hops
  have hg := greedy_getApplicableDiffList h MetaDiffManager.always s
  refine ⟨hg.mem, hg.canApply, fun w hw hc => ?_⟩
  obtain ⟨hle, hlen⟩ := hg.path.ahead (not_covered_latest h s) (walk_of_canApplyVec hw hc) le_rfl
  rw [List.length_map] at hlen
  rw [appliedVec_gidB, appliedVec_gidB]
  exact ⟨hle, hlen⟩

structure Restored (m : MetaDiffManager) (st : MetaState) (gid : Nat) (r : MetaState) : Prop where
  ne_nil : getDiffListToRestore m st gid 0 ≠ []
  snapB : (st.applyVec (getDiffListToRestore m st gid 0)).snapB = MetaSnap.clean gid
  isApplying : (st.applyVec (getDiffListToRestore m st gid 0)).isApplying = false
  timestamp : (st.applyVec (getDiffListToRestore m st gid 0)).timestamp = r.timestamp

theorem getDiffListToRestore_zero (m : MetaDiffManager) (st : MetaState) (gid : Nat) :
    getDiffListToRestore m st gid 0 = getDiffListToSync m st (MetaSnap.clean gid) := by
  rw [getDiffListToRestore]
  exact if_neg fun hn => absurd hn.1 (lt_irrefl 0)

theorem applyVec_of_getLast {st : MetaState} {u : List MetaDiff} {d : MetaDiff} :
    st.applyVec (u ++ [d]) = MetaState.ofSnap (appliedVec st.snapB (u ++ [d])) d.timestamp := by
  rw [MetaState.applyVec, MetaState.endApplyingVec, List.getLast?_concat]

def twoDiffs : List Op :=
  [.add (.ofSnaps (.clean 0) (.clean 1) true 10), .add (.ofSnaps (.clean 1) (.clean 2) true 20)]

theorem valid_twoDiffs : ∀ op, op ∈ twoDiffs → ∀ d, d ∈ op.stored → d.Valid := by
  intro op hop d hd
  simp only [twoDiffs, List.mem_cons, List.not_mem_nil, or_false] at hop
  rcases hop with rfl | rfl <;> obtain rfl := List.mem_singleton.1 hd <;> decide

theorem applicable_list_optimal_two :
    let m := twoDiffs.foldl Op.run .empty
    let v := m.getApplicableDiffList (.clean 0) MetaDiffManager.always
    (∀ d, d ∈ v → d ∈ m.diffs) ∧ canApplyVec (.clean 0) v ∧
      ∀ w, (∀ d, d ∈ w → d ∈ m.diffs) → canApplyVec (.clean 0) w →
        (appliedVec (.clean 0) w).gidB ≤ (appliedVec (.clean 0) v).gidB ∧
          ((appliedVec (.clean 0) w).gidB = (appliedVec (.clean 0) v).gidB → v.length ≤ w.length) :=
  applicable_list_optimal twoDiffs valid_twoDiffs (.clean 0)

/-- A prefix of the greedy list that contains the minimum and ends clean restores its end. -/
theorem restored_of_prefix (h : Inv m) {st : MetaState} {u w : List MetaDiff} {d : MetaDiff}
    (hv : full m st.snapB = (u ++ [d]) ++ w)
    (hmin : (getMinimumApplicableDiffList m st).length ≤ (u ++ [d]).length)
    (hc : (appliedVec st.snapB (u ++ [d])).isClean) {r : MetaState}
    (hts : r.timestamp = d.timestamp) : Restored m st (appliedVec st.snapB (u ++ [d])).gidB r := by
  have hsnap : appliedVec st.snapB (u ++ [d]) = MetaSnap.clean
    (appliedVec st.snapB (u ++ [d])).gidB := MetaSnap.eq_of_gids rfl hc.symm
  have hsync := getDiffListToSync_eq h hv (List.concat_ne_nil d u) hmin hsnap
  rw [← getDiffListToRestore_zero] at hsync
  refine ⟨fun hn => List.concat_ne_nil d u (hsync.symm.trans hn), ?_, ?_, ?_⟩
  · rw [hsync, MetaState.applyVec, MetaState.endApplyingVec_snapB]
    exact hsnap
  · rw [hsync, applyVec_of_getLast]
    rfl
  · rw [hsync, applyVec_of_getLast, hts]
    rfl

theorem exists_restorable (h : Inv m) {st : MetaState} {gid : Nat} (hgid : st.snapB.gidB < gid) :
    ∃ l, getRestorableList m st true = .ok l ∧
      ((∃ r, r ∈ l ∧ r.snapB.gidB = gid) ↔ getDiffListToSync m st (MetaSnap.clean gid) ≠ []) ∧
      ∀ r, r ∈ l → r.snapB.gidB = gid → Restored m st gid r := by
  obtain ⟨l, hl, hmem⟩ := getRestorableList_eq h st true
  have hrestored : ∀ r, r ∈ l → r.snapB.gidB = gid → Restored m st gid r := by
    rintro r hr rfl
    rcases (hmem r).1 hr with ⟨rfl, hc⟩ | ⟨u, d, w, hv, hmin, rfl, hc, -⟩
    · -- The state after the minimum list; it is not the base.
      obtain ⟨q, hq⟩ := minimum_isPrefix h st
      rcases List.eq_nil_or_concat' (getMinimumApplicableDiffList m st) with hm | ⟨u, d, hm⟩
      · rw [hm, MetaState.applyVec, MetaState.endApplyingVec_snapB] at hgid
        exact absurd hgid (lt_irrefl _)
      · have hmin : (getMinimumApplicableDiffList m st).length ≤ (u ++ [d]).length := by rw [hm]
        rw [hm] at hc hq ⊢
        rw [MetaState.applyVec, MetaState.endApplyingVec_snapB] at hc
        have hts : (st.applyVec (u ++ [d])).timestamp = d.timestamp := by
          rw [applyVec_of_getLast]
          rfl
        have hres := restored_of_prefix h hq.symm hmin hc hts
        rwa [← MetaState.endApplyingVec_snapB] at hres
    · rw [List.append_cons] at hv
      exact restored_of_prefix h hv (hmin.length_le.trans
        (by rw [List.length_append]; exact Nat.le_add_right _ _)) hc rfl
  refine ⟨l, hl, ⟨?_, fun hne => ?_⟩, hrestored⟩
  · rintro ⟨r, hr, hgid'⟩
    rw [← getDiffListToRestore_zero]
    exact (hrestored r hr hgid').ne_nil
  · obtain ⟨⟨q, hq⟩, hlen, happ⟩ := of_getDiffListToSync h hne
    generalize getDiffListToSync m st (MetaSnap.clean gid) = p at hne hq hlen happ
    obtain ⟨u, d, rfl⟩ := List.eq_nil_or_concat' p |>.resolve_left hne
    have hc : (appliedVec st.snapB (u ++ [d])).isClean := by
      rw [happ]
      exact rfl
    rcases Nat.lt_or_ge (getMinimumApplicableDiffList m st).length (u ++ [d]).length with hlt | hge
    · have hpre : getMinimumApplicableDiffList m st <+: u := by
        apply List.prefix_of_prefix_length_le (minimum_isPrefix h st)
        · exact ⟨d :: q, by rw [← hq, List.append_assoc]; rfl⟩
        · rw [List.length_append] at hlt
          exact Nat.le_of_lt_succ hlt
      refine ⟨stateAfter st.snapB u d q, (hmem _).2 (.inr ⟨u, d, q,
        by rw [← hq, List.append_assoc]; rfl, hpre, rfl, hc, .inl rfl⟩), ?_⟩
      exact congrArg MetaSnap.gidB happ
    · have heq : getMinimumApplicableDiffList m st = u ++ [d] :=
        List.prefix_of_prefix_length_le (minimum_isPrefix h st) ⟨q, hq⟩
          (hlen.antisymm hge).le |>.eq_of_length (hlen.antisymm hge)
      refine ⟨_, (hmem _).2 (.inl ⟨rfl, ?_⟩), ?_⟩
      · rw [MetaState.applyVec, MetaState.endApplyingVec_snapB, heq]
        exact hc
      · rw [MetaState.applyVec, MetaState.endApplyingVec_snapB, heq]
        exact congrArg MetaSnap.gidB happ

/-- A gid above the base is in the list of restorable states just when a diff list
restores it, and then the two agree. -/
theorem restorable_iff_restored (ops : List Op)
    (hops : ∀ op, op ∈ ops → ∀ d, d ∈ op.stored → d.Valid) (st : MetaState) (gid : Nat)
    (hgid : st.snapB.gidB < gid) :
    let m := ops.foldl Op.run .empty
    ∃ l, getRestorableList m st true = .ok l ∧
      ((∃ r, r ∈ l ∧ r.snapB.gidB = gid) ↔ getDiffListToRestore m st gid 0 ≠ []) ∧
      ∀ r, r ∈ l → r.snapB.gidB = gid → Restored m st gid r := by
  intro m
  obtain ⟨l, hl, hiff, hrestored⟩ := exists_restorable (inv_foldl inv_empty hops : Inv m) hgid
  refine ⟨l, hl, ?_, hrestored⟩
  rw [getDiffListToRestore_zero]
  exact hiff

theorem restorable_iff_restored_two :
    let m := twoDiffs.foldl Op.run .empty
    ∃ l, getRestorableList m (.ofSnap (.clean 0) 0) true = .ok l ∧
      ((∃ r, r ∈ l ∧ r.snapB.gidB = 2) ↔ getDiffListToRestore m (.ofSnap (.clean 0) 0) 2 0 ≠ []) ∧
      ∀ r, r ∈ l → r.snapB.gidB = 2 → Restored m (.ofSnap (.clean 0) 0) 2 r :=
  restorable_iff_restored twoDiffs valid_twoDiffs (.ofSnap (.clean 0) 0) 2 (by decide)

def noNeedToApply (st : MetaState) (gid : Nat) : Prop :=
  st.isApplying = false ∧ st.snapB.isClean ∧ st.snapB.gidB = gid

instance (st : MetaState) (gid : Nat) : Decidable (noNeedToApply st gid) :=
  inferInstanceAs (Decidable (_ ∧ _ ∧ _))

/-- The loop of `restore` from its turn `i` on, with the manager that this turn finds;
it does not return within its bound where the result is `none`. -/
def restoreLoop (mgr : Nat → MetaDiffManager) (gid maxNr : Nat) :
    Nat → Nat → MetaState → Option (Except String MetaState)
  | 0, _, _ => none
  | fuel + 1, i, st =>
      if noNeedToApply st gid then some (.ok st)
      else
        let diffV := getDiffListToRestore (mgr i) st gid maxNr
        if diffV = [] then some (.error "diffV empty")
          else restoreLoop mgr gid maxNr fuel (i + 1) (st.applyVec diffV)

/-- The loop returns the snapshot or an error. -/
def Ends (mgr : Nat → MetaDiffManager) (gid maxNr : Nat) (st : MetaState) : Prop :=
  ∃ fuel r, restoreLoop mgr gid maxNr fuel 0 st = some r ∧
    (r = .error "diffV empty" ∨ ∃ st', r = .ok st' ∧ noNeedToApply st' gid)

/-- A list to restore is the begin of the list that reproduces the snapshot. -/
theorem getDiffListToRestore_eq_take (m : MetaDiffManager) (st : MetaState) (gid maxNr : Nat) :
    ∃ k, getDiffListToRestore m st gid maxNr = (getDiffListToSync m st (MetaSnap.clean gid)).take k ∧
      (k = if 0 < maxNr then min maxNr (getDiffListToSync m st (MetaSnap.clean gid)).length
        else (getDiffListToSync m st (MetaSnap.clean gid)).length) := by
  rw [getDiffListToRestore]
  split_ifs with hc hpos hpos
  · exact ⟨_, rfl, (min_eq_left hc.2.le).symm⟩
  · exact absurd hc.1 hpos
  · exact ⟨_, (List.take_length).symm, (min_eq_right (not_lt.1 fun hlt => hc ⟨hpos, hlt⟩)).symm⟩
  · exact ⟨_, (List.take_length).symm, rfl⟩

theorem restore_step (h : Inv m) {st : MetaState} {gid maxNr : Nat}
    (hne : getDiffListToRestore m st gid maxNr ≠ []) :
    getDiffListToRestore m st gid maxNr <+: full m st.snapB ∧
      canApplyVec st.snapB (getDiffListToRestore m st gid maxNr) ∧
      st.snapB.gidB < (appliedVec st.snapB (getDiffListToRestore m st gid maxNr)).gidB ∧
      (appliedVec st.snapB (getDiffListToRestore m st gid maxNr)).gidB ≤ gid := by
  obtain ⟨k, hk, -⟩ := getDiffListToRestore_eq_take m st gid maxNr
  have hsne : getDiffListToSync m st (MetaSnap.clean gid) ≠ [] := by
    intro hn
    rw [hk, hn, List.take_nil] at hne
    exact hne rfl
  obtain ⟨⟨q, hq⟩, -, happ⟩ := of_getDiffListToSync h hsne
  have hg := greedy_getApplicableDiffList h MetaDiffManager.always st.snapB
  have hsplit := List.take_append_drop k (getDiffListToSync m st (MetaSnap.clean gid))
  rw [← hk] at hsplit
  have hpath := hg.path
  have hca := hg.canApply
  change Path m st.snapB.gidB ((full m st.snapB).map endGid) at hpath
  change canApplyVec st.snapB (full m st.snapB) at hca
  rw [← hq, ← hsplit, List.append_assoc, List.map_append, path_append] at hpath
  rw [← hq, ← hsplit, List.append_assoc, canApplyVec_append] at hca
  refine ⟨⟨_, by rw [← hq, ← hsplit, List.append_assoc]⟩, hca.1, ?_, ?_⟩
  · rw [appliedVec_gidB]
    generalize getDiffListToRestore m st gid maxNr = v at hne hpath
    cases v with
    | nil => exact absurd rfl hne
    | cons d v =>
        rw [List.map_cons, List.getLastD_cons]
        exact hpath.1.1.lt.trans_le hpath.1.2.le_last
  · rw [← hsplit, appliedVec_append] at happ
    have hmono := gidB_le_appliedVec_gidB (s := appliedVec st.snapB
      (getDiffListToRestore m st gid maxNr))
      (v := (getDiffListToSync m st (MetaSnap.clean gid)).drop k) (by
        have hca' := greedy_getApplicableDiffList h MetaDiffManager.always st.snapB |>.canApply
        change canApplyVec st.snapB (full m st.snapB) at hca'
        rw [← hq, ← hsplit, canApplyVec_append, canApplyVec_append] at hca'
        exact hca'.1.2)
    rw [happ] at hmono
    exact hmono

theorem restoreLoop_ends {mgr : Nat → MetaDiffManager} (h : ∀ i, Inv (mgr i)) (gid maxNr i : Nat)
    (st : MetaState) :
    ∃ fuel r, restoreLoop mgr gid maxNr fuel i st = some r ∧
      (r = .error "diffV empty" ∨ ∃ st', r = .ok st' ∧ noNeedToApply st' gid) := by
  -- Each turn comes closer to the gid.
  induction hn : gid - st.snapB.gidB using Nat.strong_induction_on generalizing i st with
  | _ n ih =>
      by_cases hdone : noNeedToApply st gid
      · exact ⟨1, .ok st, if_pos hdone, .inr ⟨st, rfl, hdone⟩⟩
      · by_cases hne : getDiffListToRestore (mgr i) st gid maxNr = []
        · refine ⟨1, .error "diffV empty", ?_, .inl rfl⟩
          rw [restoreLoop, if_neg hdone]
          exact if_pos hne
        · obtain ⟨-, -, hlt, hle⟩ := restore_step (h i) hne
          rw [← MetaState.endApplyingVec_snapB, ← MetaState.applyVec] at hlt hle
          obtain ⟨fuel, r, hr, hres⟩ :=
            ih _ (by omega) (i + 1) (st.applyVec (getDiffListToRestore (mgr i) st gid maxNr)) rfl
          refine ⟨fuel + 1, r, ?_, hres⟩
          rw [restoreLoop, if_neg hdone]
          dsimp only
          rw [if_neg hne, hr]

/-- The diffs of the greedy list that end before the snapshot an apply was leading to. -/
def endingBefore (m : MetaDiffManager) (st : MetaState) : List MetaDiff :=
  m.getApplicableDiffList st.snapB fun _ s => decide (s.gidB < st.snapE.gidB)

theorem lt_length_takeWhile_iff {f : MetaDiff → Bool} {p v : List MetaDiff} (hp : p <+: v) (hne : p ≠ [])
    (hmono : ∀ d e u w, v = u ++ d :: w → e ∈ w → f e = true → f d = true) :
    f (p.getLast hne) = false ↔ (v.takeWhile f).length < p.length := by
  obtain ⟨q, rfl⟩ := hp
  induction p with
  | nil => exact absurd rfl hne
  | cons d p ih =>
      rw [List.cons_append, List.takeWhile_cons]
      cases p with
      | nil =>
          rw [List.getLast_singleton]
          cases hf : f d with
          | false => simp
          | true => simp
      | cons e p =>
          have ih' := ih (List.cons_ne_nil e p) fun d' e' u w hv =>
            hmono d' e' (d :: u) w (by rw [List.cons_append, hv]; rfl)
          rw [List.getLast_cons (List.cons_ne_nil e p)]
          cases hf : f d with
          | true =>
              rw [ih', if_pos rfl, List.length_cons, List.length_cons]
              exact (Nat.succ_lt_succ_iff).symm
          | false =>
              refine iff_of_true ?_ (by simp)
              rw [← Bool.not_eq_true]
              intro hlast
              have hd := hmono d _ [] _ rfl (List.mem_append_left q
                (List.getLast_mem (List.cons_ne_nil e p))) hlast
              rw [hf] at hd
              cases hd

/-- A part of the greedy list reaches the snapshot an apply was leading to just when
it is longer than the part that ends before it. -/
theorem reaches_iff (h : Inv m) {st : MetaState} {p : List MetaDiff} (hp : p <+: full m st.snapB)
    (hne : p ≠ []) :
    st.snapE.gidB ≤ (appliedVec st.snapB p).gidB ↔ (endingBefore m st).length < p.length := by
  have hbefore : endingBefore m st = (full m st.snapB).takeWhile fun d =>
      decide (endGid d < st.snapE.gidB) :=
    getApplicableDiffList_eq_takeWhile h (fun gid => decide (gid < st.snapE.gidB)) rfl
  have hend : (appliedVec st.snapB p).gidB = endGid (p.getLast hne) := by
    rw [appliedVec_gidB]
    conv_lhs => rw [← List.dropLast_append_getLast hne]
    rw [List.map_append, List.map_singleton, GreedyCover.getLastD_append]
    rfl
  rw [hbefore, ← lt_length_takeWhile_iff hp hne, hend, decide_eq_false_iff_not, not_lt]
  intro d e u w hv he hlt
  have hpw := full_pairwise h st.snapB
  rw [hv, List.map_append, List.map_cons, List.pairwise_append, List.pairwise_cons] at hpw
  have hde := hpw.2.1.1 (endGid e) (List.mem_map_of_mem he)
  rw [decide_eq_true_eq] at hlt ⊢
  exact hde.trans hlt

/-- A gid above the base that the list of restorable states has. -/
def Restorable (m : MetaDiffManager) (st : MetaState) (gid : Nat) : Prop :=
  st.snapB.gidB < gid ∧ ∃ l, getRestorableList m st true = .ok l ∧ ∃ r, r ∈ l ∧ r.snapB.gidB = gid

theorem restorable_iff (h : Inv m) {st : MetaState} {gid : Nat} :
    Restorable m st gid ↔ getDiffListToSync m st (MetaSnap.clean gid) ≠ [] := by
  constructor
  · rintro ⟨hgid, l, hl, hr⟩
    obtain ⟨l', hl', hiff, -⟩ := exists_restorable h hgid
    rw [hl] at hl'
    cases hl'
    exact hiff.1 hr
  · intro hne
    have hgid : st.snapB.gidB < gid := by
      obtain ⟨-, -, hlt, hle⟩ := restore_step h ((getDiffListToRestore_zero m st gid).symm ▸ hne)
      exact hlt.trans_le hle
    obtain ⟨l, hl, hiff, -⟩ := exists_restorable h hgid
    exact ⟨hgid, l, hl, hiff.2 hne⟩

/-- A list to restore can be applied to a state in the middle of an apply just when
it goes as far as the apply was going; the loop ends in either case. -/
theorem restore_list_applicable_iff (ops : List Op)
    (hops : ∀ op, op ∈ ops → ∀ d, d ∈ op.stored → d.Valid) (st : MetaState)
    (gid maxNr : Nat) :
    let m := ops.foldl Op.run .empty
    ((getDiffListToRestore m st gid maxNr ≠ [] → st.canApplyVec (getDiffListToRestore m st gid maxNr)) ∧
        Ends (fun _ => m) gid maxNr st) ↔
      ¬Restorable m st gid ∨ st.isApplying = false ∨
        (st.snapE.gidB ≤ gid ∧ (maxNr = 0 ∨ (endingBefore m st).length < maxNr)) := by
  intro m
  have h : Inv m := inv_foldl inv_empty hops
  have hends : Ends (fun _ => m) gid maxNr st := restoreLoop_ends (fun _ => h) gid maxNr 0 st
  rw [and_iff_left hends, restorable_iff h, not_not]
  obtain ⟨k, hk, hkeq⟩ := getDiffListToRestore_eq_take m st gid maxNr
  by_cases hsync : getDiffListToSync m st (MetaSnap.clean gid) = []
  · refine iff_of_true (fun hne => absurd ?_ hne) (.inl hsync)
    rw [hk, hsync, List.take_nil]
  · have hpos := List.length_pos_of_ne_nil hsync
    have hlen : (getDiffListToRestore m st gid maxNr).length = k := by
      rw [hk, List.length_take, hkeq]
      split_ifs <;> omega
    have hkpos : 0 < k := by
      rw [hkeq]
      split_ifs <;> omega
    have hne : getDiffListToRestore m st gid maxNr ≠ [] := List.ne_nil_of_length_pos (hlen ▸ hkpos)
    obtain ⟨hpre, hca, -, -⟩ := restore_step h hne
    obtain ⟨hspre, -, happ⟩ := of_getDiffListToSync h hsync
    have hr := reaches_iff h hpre hne
    have hs := reaches_iff h hspre hsync
    rw [happ, MetaSnap.clean_gidB] at hs
    rw [hlen] at hr
    rw [or_iff_right hsync, MetaState.canApplyVec]
    have hcond : (st.snapE.gidB ≤ gid ∧ (maxNr = 0 ∨ (endingBefore m st).length < maxNr)) ↔
        (endingBefore m st).length < k := by
      rw [hs, hkeq]
      split_ifs <;> omega
    rw [hcond, ← hr]
    constructor
    · intro hcan
      cases hst : st.isApplying with
      | false => exact .inl rfl
      | true => exact .inr (not_lt.1 fun hlt => (hcan hne).2 ⟨hst, hlt⟩)
    · intro hor _
      refine ⟨hca, ?_⟩
      rintro ⟨hst, hgt⟩
      rcases hor with hf | hle
      · rw [hst] at hf
        cases hf
      · exact absurd hgt (not_lt.2 hle)

/-- An apply to `|2|` was interrupted, and one diff is allowed at a time. -/
theorem restore_list_underdone :
    getDiffListToRestore (twoDiffs.foldl Op.run .empty) (.ofSnaps (.clean 0) (.clean 2) 0) 2 1 ≠ [] ∧
      ¬(MetaState.ofSnaps (.clean 0) (.clean 2) 0).canApplyVec
        (getDiffListToRestore (twoDiffs.foldl Op.run .empty)
          (.ofSnaps (.clean 0) (.clean 2) 0) 2 1) := by
  decide +kernel

theorem restore_list_applicable_iff_two :
    let m := twoDiffs.foldl Op.run .empty
    ((getDiffListToRestore m (.ofSnaps (.clean 0) (.clean 2) 0) 2 2 ≠ [] →
          (MetaState.ofSnaps (.clean 0) (.clean 2) 0).canApplyVec
          (getDiffListToRestore m (.ofSnaps (.clean 0) (.clean 2) 0) 2 2)) ∧
        Ends (fun _ => m) 2 2 (.ofSnaps (.clean 0) (.clean 2) 0)) ↔
      ¬Restorable m (.ofSnaps (.clean 0) (.clean 2) 0) 2 ∨
        (MetaState.ofSnaps (.clean 0) (.clean 2) 0).isApplying = false ∨
        ((MetaState.ofSnaps (.clean 0) (.clean 2) 0).snapE.gidB ≤ 2 ∧
          (2 = 0 ∨ (endingBefore m (.ofSnaps (.clean 0) (.clean 2) 0)).length < 2)) :=
  restore_list_applicable_iff twoDiffs valid_twoDiffs (.ofSnaps (.clean 0) (.clean 2) 0) 2 2

end WalbTools.RestoreLists
