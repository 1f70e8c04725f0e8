import WalbTools.RestoreLists

namespace WalbTools.GarbageDiffs

open Meta GidRangeManager DiffManager DiffLists RestoreLists

variable {m m' : MetaDiffManager}

/-- Managers that choose the same diff at every snapshot from `s` on have the same lists. -/
theorem getApplicableDiffList_congr (h : Inv m) (h' : Inv m') (pred : MetaDiff → MetaSnap → Bool)
    {s : MetaSnap}
    (heq : ∀ t : MetaSnap, s.gidB ≤ t.gidB → m'.getApplicableDiffNolock t =
      m.getApplicableDiffNolock t) :
    m'.getApplicableDiffList s pred = m.getApplicableDiffList s pred := by
  induction hr : remaining m s using Nat.strong_induction_on generalizing s with
  | _ r ih =>
      rw [h.getApplicableDiffList_eq, h'.getApplicableDiffList_eq, heq s le_rfl]
      cases hd : m.getApplicableDiffNolock s with
      | none => rfl
      | some d =>
          by_cases hp : pred d (applied s d) = true
          · have hstep : m.applicableStep pred s = some (d, applied s d) := by
              simp only [MetaDiffManager.applicableStep, hd, hp, if_true]
            have hlt := (canApply_iff.1 (h.of_getApplicableDiff hd).2.1).2
            have hrest := ih _ (hr ▸ h.remaining_lt hstep) (s := applied s d)
              (fun t ht => heq t (hlt.le.trans (by rwa [applied_gidB] at ht))) rfl
            simp only [hp, if_true, hrest]
          · simp only [hp, Bool.false_eq_true, if_false]

theorem candidates_eq_nil (h : Inv m) {s : MetaSnap} (hs : u64 ≤ s.gidB + 1) :
    m.getApplicableCandidatesNolock s = [] := by
  rw [List.eq_nil_iff_forall_not_mem]
  intro d hd
  obtain ⟨hmem, hc⟩ := h.mem_applicableCandidates.1 hd
  have hfits := (h.valid_of_mem hmem).gidB_lt
  have hlt := (canApply_iff.1 hc).2
  omega

/-- To remove a diff that does not apply to a snapshot does not change what applies, nor its
order. -/
theorem candidates_removeNode (h : Inv m) {n : Node} (hn : n ∈ m.mmap) {s : MetaSnap}
    (hc : ¬canApply s n.diff) :
    (m.removeNode n).getApplicableCandidatesNolock s = m.getApplicableCandidatesNolock s := by
  have h' := h.removeNode hn
  rcases Nat.lt_or_ge (s.gidB + 1) u64 with hlt | hge
  · have hin : ∀ x, n.it ∈ GidRangeManager.view (ranges m.rangeMgr) x → Covers n.diff x := by
      intro x hx
      obtain ⟨n', hn', he⟩ := List.mem_map.1 ((h.view x).mem_iff.1 hx)
      obtain ⟨hn', hc⟩ := List.mem_filter.1 hn'
      rw [h.eq_of_it hn hn' he.symm]
      simpa using hc
    have hsearch : search (m.removeNode n).rangeMgr s.gidB =
        (search m.rangeMgr s.gidB).filter fun i => decide (i ≠ n.it) := by
      rw [search_eq_view h.wf hlt, search_eq_view h'.wf hlt]
      exact (remove_spec h.wf (h.valid n hn) hin).2 s.gidB
    rw [MetaDiffManager.getApplicableCandidatesNolock,
      MetaDiffManager.getApplicableCandidatesNolock, hsearch]
    have hderef : ∀ i, i ≠ n.it → (m.removeNode n).deref i = m.deref i := by
      intro i hi
      rw [MetaDiffManager.deref, MetaDiffManager.deref, MetaDiffManager.removeNode, List.find?_filter]
      congr 2
      funext n'
      apply decide_eq_decide.2
      rw [decide_eq_true_eq, decide_eq_true_eq]
      exact and_iff_right_of_imp fun hit => hit ▸ hi
    generalize search m.rangeMgr s.gidB = its
    induction its with
    | nil => rfl
    | cons i its ih =>
        by_cases hi : i = n.it
        · rw [List.filter_cons_of_neg (by rw [hi]; simp), ih, List.filterMap_cons, hi, h.deref hn]
          exact (List.filter_cons_of_neg (by simpa using hc)).symm
        · rw [List.filter_cons_of_pos (by simpa using hi), List.filterMap_cons, List.filterMap_cons,
            hderef i hi]
          cases m.deref i with
          | none => exact ih
          | some d =>
              rw [List.filter_cons, List.filter_cons, ih]
  · rw [candidates_eq_nil h hge, candidates_eq_nil h' hge]

theorem candidates_eraseLoop (h : Inv m) {stop hit : MetaDiff → Bool} {l : List Node}
    (hl : l.Sublist m.mmap) {s : MetaSnap}
    (hhit : ∀ d, hit d = true → ¬canApply s d) :
    (MetaDiffManager.eraseLoop stop hit l m).1.getApplicableCandidatesNolock s =
      m.getApplicableCandidatesNolock s := by
  induction l generalizing m with
  | nil => rfl
  | cons n l ih =>
      have hn := hl.subset List.mem_cons_self
      have htail := (List.sublist_cons_self n l).trans hl
      rw [MetaDiffManager.eraseLoop]
      split_ifs with hs hh
      · rfl
      · have hne : ∀ n', n' ∈ l → n'.it ≠ n.it := by
          have hnd := h.nodup.sublist (hl.map Node.it)
          rw [List.map_cons, List.nodup_cons] at hnd
          exact fun n' hn' he => hnd.1 (List.mem_map.2 ⟨n', hn', he⟩)
        have hfilter := htail.filter (fun n' => decide (n'.it ≠ n.it))
        rw [List.filter_eq_self.2 (fun n' hn' => by simpa using hne n' hn')] at hfilter
        have hrest := ih (h.removeNode hn) hfilter
        rw [candidates_removeNode h hn (hhit n.diff hh)] at hrest
        exact hrest
      · exact ih h htail

theorem applicable_eraseBeforeGid (h : Inv m) (pred : MetaDiff → MetaSnap → Bool) (s : MetaSnap) :
    (m.eraseBeforeGid s.gidB).1.getApplicableDiffList s pred = m.getApplicableDiffList s pred := by
  apply getApplicableDiffList_congr h (h.eraseLoop _ _ (List.Sublist.refl _))
  intro t ht
  have hcand : (m.eraseBeforeGid s.gidB).1.getApplicableCandidatesNolock t =
      m.getApplicableCandidatesNolock t := by
    apply candidates_eraseLoop h (List.Sublist.refl _)
    intro d hd hc
    rw [decide_eq_true_eq] at hd
    exact absurd (canApply_iff.1 hc).2 (not_lt.2 (hd.trans ht))
  exact congrArg (fun v => (getMaxProgressDiff v).toOption) hcand

theorem maxProgressFrom_of_all {d e : MetaDiff} {v : List MetaDiff}
    (hall : ∀ f, f ∈ e :: v → f = d) : maxProgressFrom e v = d :=
  hall _ (maxProgressFrom_spec e v).1

/-- The diffs of the greedy list lead on as they did among all diffs. -/
theorem getApplicableDiff_of_kept (h : Inv m) (h' : Inv m') {snap : MetaSnap}
    (hmem : ∀ d, d ∈ m'.diffs ↔ d ∈ full m snap)
    {u w : List MetaDiff} (hv : full m snap = u ++ w) :
    m'.getApplicableDiffNolock (appliedVec snap u) = m.getApplicableDiffNolock (appliedVec snap u) := by
  have hg := greedy_getApplicableDiffList h MetaDiffManager.always snap
  have hpw := full_pairwise h snap
  have hlist := getApplicableDiffList_suffix h hv
  rw [h.getApplicableDiffList_eq] at hlist
  cases hd : m.getApplicableDiffNolock (appliedVec snap u) with
  | none =>
      rw [h.getApplicableDiff_eq_none_iff] at hd
      exact h'.getApplicableDiff_eq_none_iff.2 fun d hd' => hd d (hg.mem d ((hmem d).1 hd'))
  | some d =>
      simp only [hd, MetaDiffManager.always, if_true] at hlist
      obtain ⟨hdm, hda, hmax⟩ := h.of_getApplicableDiff hd
      have hd' : d ∈ full m snap := by
        rw [hv, ← hlist]
        exact List.mem_append_right u List.mem_cons_self
      -- Of the diffs kept only the next one covers the point.
      have honly : ∀ e, e ∈ m'.diffs → canApply (appliedVec snap u) e → e = d := by
        intro e he ha
        have hev := (hmem e).1 he
        have hle := hmax e (hg.mem e hev) ha
        have hgt := (canApply_iff.1 ha).2
        have hev' := hev
        rw [hv, ← hlist] at hev'
        rcases List.mem_append.1 hev' with heu | hew
        · -- The diffs before it end at or before the point.
          rw [appliedVec_gidB] at hgt
          rw [hv, List.map_append, List.pairwise_append] at hpw
          rcases List.eq_nil_or_concat' u with rfl | ⟨u', f, rfl⟩
          · exact absurd heu List.not_mem_nil
          · rw [List.map_append, List.map_singleton, GreedyCover.getLastD_append] at hgt
            change endGid f < e.snapE.gidB at hgt
            rcases List.mem_append.1 heu with heu | heu
            · rw [List.map_append, List.pairwise_append] at hpw
              have hlt := hpw.1.2.2 _ (List.mem_map_of_mem heu) _
                (List.mem_map_of_mem List.mem_cons_self)
              exact absurd hgt (not_lt.2 (le_of_lt hlt))
            · obtain rfl := List.mem_singleton.1 heu
              exact absurd hgt (lt_irrefl _)
        · rcases List.mem_cons.1 hew with rfl | hew
          · rfl
          · rw [hv, ← hlist, List.map_append, List.pairwise_append, List.map_cons,
              List.pairwise_cons] at hpw
            have hlt := hpw.2.1.1 _ (List.mem_map_of_mem hew)
            exact absurd hle (not_le.2 hlt)
      have hcand : d ∈ m'.getApplicableCandidatesNolock (appliedVec snap u) :=
        h'.mem_applicableCandidates.2 ⟨(hmem d).2 hd', hda⟩
      rw [MetaDiffManager.getApplicableDiffNolock]
      cases hc : m'.getApplicableCandidatesNolock (appliedVec snap u) with
      | nil => exact absurd (hc ▸ hcand) List.not_mem_nil
      | cons e v =>
          have hall : ∀ f, f ∈ e :: v → f = d := by
            intro f hf
            rw [← hc] at hf
            obtain ⟨hfm, hfa⟩ := h'.mem_applicableCandidates.1 hf
            exact honly f hfm hfa
          rw [getMaxProgressDiff, maxProgressFrom_of_all hall]
          rfl

theorem getApplicableDiffList_of_kept (h : Inv m) (h' : Inv m') {snap : MetaSnap}
    (hmem : ∀ d, d ∈ m'.diffs ↔ d ∈ full m snap)
    (pred : MetaDiff → MetaSnap → Bool) {u w : List MetaDiff} (hv : full m snap = u ++ w) :
    m'.getApplicableDiffList (appliedVec snap u) pred =
      m.getApplicableDiffList (appliedVec snap u) pred := by
  induction w generalizing u with
  | nil =>
      have hnext := getApplicableDiff_of_kept h h' hmem hv
      have hlist := getApplicableDiffList_suffix h hv
      rw [h.getApplicableDiffList_eq] at hlist
      rw [h.getApplicableDiffList_eq, h'.getApplicableDiffList_eq, hnext]
      cases hd : m.getApplicableDiffNolock (appliedVec snap u) with
      | none => rfl
      | some d => simp [hd, MetaDiffManager.always] at hlist
  | cons d w ih =>
      have hnext := getApplicableDiff_of_kept h h' hmem hv
      have hlist := getApplicableDiffList_suffix h hv
      rw [h.getApplicableDiffList_eq] at hlist
      rw [h.getApplicableDiffList_eq, h'.getApplicableDiffList_eq, hnext]
      cases hd : m.getApplicableDiffNolock (appliedVec snap u) with
      | none => rfl
      | some e =>
          simp only [hd, MetaDiffManager.always, if_true] at hlist
          obtain ⟨rfl, -⟩ := List.cons.inj hlist
          have hrest := ih (u := u ++ [e]) (by rw [hv, List.append_assoc]; rfl)
          rw [appliedVec_append] at hrest
          change m'.getApplicableDiffList (applied (appliedVec snap u) e) pred = _ at hrest
          dsimp only
          rw [hrest]
          rfl

theorem applicable_gc (h : Inv m) (snap : MetaSnap) (pred : MetaDiff → MetaSnap → Bool) :
    (m.gc snap).1.getApplicableDiffList snap pred = m.getApplicableDiffList snap pred :=
  getApplicableDiffList_of_kept h (h.gc snap) (fun d => mem_diffs_gc h snap d) pred (u := []) rfl

/-- Managers with the same lists from the base have the same restorable states. -/
theorem restorable_congr {st : MetaState}
    (heq : ∀ pred, m'.getApplicableDiffList st.snapB pred = m.getApplicableDiffList st.snapB pred)
    (isAll : Bool) :
    getRestorableList m' st isAll = getRestorableList m st isAll := by
  have hmin : getMinimumApplicableDiffList m' st = getMinimumApplicableDiffList m st := by
    rw [getMinimumApplicableDiffList, getMinimumApplicableDiffList, heq]
  have htarget : getTargetDiffLists m' st = getTargetDiffLists m st := by
    rw [getTargetDiffLists, getTargetDiffLists, heq, hmin]
  rw [getRestorableList, getRestorableList, htarget]

theorem nodup_diffs (h : Inv m) : m.diffs.Nodup := by
  apply List.pairwise_map.2
  apply h.distinct.imp
  intro n n' hne heq
  rw [heq] at hne
  exact hne (MetaDiff.opEq_refl n'.diff)

theorem eq_of_opEq (h : Inv m) {d e : MetaDiff} (hd : d ∈ m.diffs) (he : e ∈ m.diffs)
    (hde : d.opEq e) : d = e := by
  obtain ⟨n, hn, rfl⟩ := mem_diffs.1 hd
  obtain ⟨n', hn', rfl⟩ := mem_diffs.1 he
  by_cases hnn : n = n'
  · rw [hnn]
  · exact absurd hde (h.not_opEq hn hn' hnn)

theorem gc_perm (h : Inv m) (snap : MetaSnap) :
    ∃ removed, (m.gc snap).2 = .ok removed ∧ ((m.gc snap).1.diffs ++ removed).Perm m.diffs := by
  have hg := greedy_getApplicableDiffList h MetaDiffManager.always snap
  have hd : (full m snap).Pairwise fun d e => ¬d.opEq e := by
    apply (List.pairwise_map.1 (full_pairwise h snap)).imp
    intro d e hlt he
    rw [endGid, endGid, he.2] at hlt
    exact absurd hlt (lt_irrefl _)
  have herased := h.eraseVec (full m snap) false
  have hadd := (inv_clear (m.eraseVec (full m snap) false).1).addVec_ok
    (fun e he => h.valid_of_mem (hg.mem e he)) hd
    fun e _ f hf => absurd hf (by simp [MetaDiffManager.diffs, MetaDiffManager.clear])
  refine ⟨(m.eraseVec (full m snap) false).1.diffs, ?_, ?_⟩
  · change ((m.eraseVec (full m snap) false).1.clear.addVec (full m snap)).2.map
      (fun _ => (m.eraseVec (full m snap) false).1.diffs) = _
    rw [hadd.1]
    rfl
  · have hmem : ∀ {e : MetaDiff}, e ∈ (m.eraseVec (full m snap) false).1.diffs ↔ e ∈ m.diffs ∧ ∀ d,
        d ∈ full m snap → ¬d.opEq e :=
      fun {e} => h.mem_diffs_eraseVec (full m snap)
    rw [List.perm_ext_iff_of_nodup _ (nodup_diffs h)]
    · intro e
      rw [List.mem_append, mem_diffs_gc h, hmem]
      constructor
      · rintro (he | ⟨he, -⟩)
        · exact hg.mem e he
        · exact he
      · intro he
        by_cases hex : ∃ d, d ∈ full m snap ∧ d.opEq e
        · obtain ⟨d, hdv, hde⟩ := hex
          rw [← eq_of_opEq h (hg.mem d hdv) he hde]
          exact .inl hdv
        · exact .inr ⟨he, fun d hdv hde => hex ⟨d, hdv, hde⟩⟩
    · apply List.nodup_append.2
      refine ⟨nodup_diffs (h.gc snap), nodup_diffs herased, fun d hdg e he hde => ?_⟩
      obtain rfl := hde
      exact (hmem.1 he).2 d ((mem_diffs_gc h snap d).1 hdg) (MetaDiff.opEq_refl d)

/-- Where a diff has exactly the range, the other diffs in the range cover nothing more. -/
theorem covered_gcRange (h : Inv m) {gidB gidE : Nat} {d : MetaDiff} (hd : d ∈ m.diffs)
    (hB : d.snapB.gidB = gidB)
    (hE : d.snapE.gidB = gidE) (x : Nat) : Covered (m.gcRange gidB gidE).1 x ↔ Covered m x := by
  constructor
  · rintro ⟨e, he, hc⟩
    exact ⟨e, (h.mem_diffs_gcRange.1 he).1, hc⟩
  · rintro ⟨e, he, hl, hlt⟩
    by_cases hin : gidB ≤ e.snapB.gidB ∧ e.snapE.gidB ≤ gidE
    · refine ⟨d, h.mem_diffs_gcRange.2 ⟨hd, fun hn => hn.2.2 ⟨hB.symm, hE.symm⟩⟩, ?_, ?_⟩
      · change d.snapB.gidB ≤ x
        exact hB.le.trans (hin.1.trans hl)
      · change x < d.snapE.gidB
        exact hlt.trans_le (hin.2.trans hE.ge)
    · exact ⟨e, h.mem_diffs_gcRange.2 ⟨he, fun hn => hin ⟨hn.1, hn.2.1⟩⟩, hl, hlt⟩

theorem latest_gcRange (h : Inv m) {gidB gidE : Nat} {d : MetaDiff} (hd : d ∈ m.diffs)
    (hB : d.snapB.gidB = gidB)
    (hE : d.snapE.gidB = gidE) (st : MetaState) :
    (getLatestSnapshot (m.gcRange gidB gidE).1 st).gidB = (getLatestSnapshot m st).gidB := by
  have h' : Inv (m.gcRange gidB gidE).1 := h.eraseLoop _ _ (List.dropWhile_sublist _)
  have hcov := covered_gcRange h hd hB hE
  obtain ⟨ps, hps, hpe, hpn⟩ := getLatestSnapshot_spec h st
  obtain ⟨qs, hqs, hqe, hqn⟩ := getLatestSnapshot_spec h' st
  rw [← hpe]
  rw [← hpe] at hpn
  symm
  apply hps.last_eq hpn
  · rw [← hqe]
    exact hqs.le_last
  · intro z hz hlt
    rw [← hqe] at hlt
    exact (hcov z).1 (hqs.covered hz hlt)
  · exact fun hc => hqn ((hcov _).2 hc)

/-- Garbage collection removes only diffs that no list from the base needs. -/
theorem gc_removes_useless (ops : List Op) (hops : ∀ op, op ∈ ops → ∀ d, d ∈ op.stored → d.Valid) :
    let m := ops.foldl Op.run .empty
    (∀ snap, (∃ removed, (m.gc snap).2 = .ok removed ∧ ((m.gc snap).1.diffs ++ removed).Perm m.diffs) ∧
      (∀ pred, (m.gc snap).1.getApplicableDiffList snap pred = m.getApplicableDiffList snap pred) ∧
      ∀ st isAll, st.snapB = snap → getRestorableList (m.gc snap).1 st isAll =
      getRestorableList m st isAll) ∧
    (∀ gidB gidE, (∃ d, d ∈ m.diffs ∧ d.snapB.gidB = gidB ∧ d.snapE.gidB = gidE) → ∀ st,
      (getLatestSnapshot (m.gcRange gidB gidE).1 st).gidB = (getLatestSnapshot m st).gidB) ∧
    ∀ (st : MetaState) pred,
      (m.eraseBeforeGid st.snapB.gidB).1.getApplicableDiffList st.snapB pred =
      m.getApplicableDiffList st.snapB pred := by
  intro m
  have h : Inv m := inv_foldl inv_empty hops
  refine ⟨fun snap => ⟨gc_perm h snap, applicable_gc h snap, ?_⟩, ?_,
    fun st pred => applicable_eraseBeforeGid h pred st.snapB⟩
  · rintro st isAll rfl
    exact restorable_congr (applicable_gc h st.snapB) isAll
  · rintro gidB gidE ⟨d, hd, hB, hE⟩ st
    exact latest_gcRange h hd hB hE st

theorem gc_removes_useless_two :
    let m := twoDiffs.foldl Op.run .empty
    (∀ snap, (∃ removed, (m.gc snap).2 = .ok removed ∧ ((m.gc snap).1.diffs ++ removed).Perm m.diffs) ∧
      (∀ pred, (m.gc snap).1.getApplicableDiffList snap pred = m.getApplicableDiffList snap pred) ∧
      ∀ st isAll, st.snapB = snap → getRestorableList (m.gc snap).1 st isAll =
      getRestorableList m st isAll) ∧
    (∀ gidB gidE, (∃ d, d ∈ m.diffs ∧ d.snapB.gidB = gidB ∧ d.snapE.gidB = gidE) → ∀ st,
      (getLatestSnapshot (m.gcRange gidB gidE).1 st).gidB = (getLatestSnapshot m st).gidB) ∧
    ∀ (st : MetaState) pred,
      (m.eraseBeforeGid st.snapB.gidB).1.getApplicableDiffList st.snapB pred =
      m.getApplicableDiffList st.snapB pred :=
  gc_removes_useless twoDiffs valid_twoDiffs

end WalbTools.GarbageDiffs
