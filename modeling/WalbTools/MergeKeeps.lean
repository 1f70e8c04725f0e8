import WalbTools.MetaHistory
import WalbTools.GarbageDiffs

namespace WalbTools.MergeKeeps

open Meta MetaHistory DiffManager DiffLists RestoreLists GarbageDiffs

/-- `unixTimeToStr` is left open. -/
def createDiffFileName (unixTimeToStr : Nat → String) (diff : MetaDiff) : String :=
  let s := unixTimeToStr diff.timestamp ++ "-" ++ (if diff.isMergeable then "M" else "-") ++
    (if diff.isCompDiff then "C" else "-")
  let v := if diff.isDirty then [diff.snapB.gidB, diff.snapB.gidE, diff.snapE.gidB, diff.snapE.gidE]
    else [diff.snapB.gidB, diff.snapE.gidB]
  v.foldl (fun s gid => s ++ "-" ++ toString gid) s ++ ".wdiff"

section FileName

theorem append_cons_inj {α : Type} {c : α} {a b x y : List α} (hx : c ∉ x) (hy : c ∉ y)
    (h : a ++ c :: x = b ++ c :: y) :
    a = b ∧ x = y := by
  rcases List.append_eq_append_iff.1 h with ⟨e, rfl, he⟩ | ⟨e, rfl, he⟩
  · cases e with
    | nil => exact ⟨(List.append_nil a).symm, (List.cons.inj he).2⟩
    | cons f e =>
        obtain ⟨-, rfl⟩ := List.cons.inj he
        exact absurd (List.mem_append_right e List.mem_cons_self) hx
  · cases e with
    | nil => exact ⟨List.append_nil b, (List.cons.inj he).2.symm⟩
    | cons f e =>
        obtain ⟨-, rfl⟩ := List.cons.inj he
        exact absurd (List.mem_append_right e List.mem_cons_self) hy

theorem isDigit_of_mem_itoa {gid : Nat} {c : Char} (hc : c ∈ (toString gid).toList) :
    c.isDigit = true := by
  rw [Nat.toString_eq_ofList_toDigits, String.toList_ofList] at hc
  exact Nat.isDigit_of_mem_toDigits (by decide) (by decide) hc

theorem dash_notMem_itoa (gid : Nat) : '-' ∉ (toString gid).toList :=
  fun h => absurd (isDigit_of_mem_itoa h) (by decide)

theorem itoa_injective {gid gid' : Nat} (h : (toString gid).toList = (toString gid').toList) :
    gid = gid' := by
  rw [Nat.toString_eq_ofList_toDigits, Nat.toString_eq_ofList_toDigits, String.toList_ofList,
    String.toList_ofList] at h
  rw [← Nat.ofDigitChars_ten_toDigits (n := gid), h, Nat.ofDigitChars_ten_toDigits]

theorem last_gid {s t : String} {gid gid' : Nat}
    (h : s ++ "-" ++ toString gid = t ++ "-" ++ toString gid') : s = t ∧ gid = gid' := by
  have hl := congrArg String.toList h
  rw [String.toList_append, String.toList_append, String.toList_append, String.toList_append,
    List.append_assoc, List.append_assoc] at hl
  obtain ⟨hs, hg⟩ := append_cons_inj (c := '-') (dash_notMem_itoa gid) (dash_notMem_itoa gid') hl
  exact ⟨String.toList_inj.1 hs, itoa_injective hg⟩

theorem flags_ne_gid {s t : String} {b : Bool} {gid : Nat} :
    s ++ (if b then "C" else "-") ≠ t ++ toString gid := by
  intro h
  have hl := congrArg (fun s : String => s.toList.getLast?) h
  have hne : (toString gid).toList ≠ [] := by
    rw [Nat.toString_eq_ofList_toDigits, String.toList_ofList]
    exact Nat.toDigits_ne_nil
  rw [String.toList_append, String.toList_append, List.getLast?_append_of_ne_nil _ hne,
    List.getLast?_eq_some_getLast hne] at hl
  have hdigit := isDigit_of_mem_itoa (List.getLast_mem hne)
  cases b with
  | true =>
      rw [if_pos rfl, List.getLast?_append_of_ne_nil _ (by decide)] at hl
      rw [← Option.some.inj hl] at hdigit
      exact absurd hdigit (by decide)
  | false =>
      rw [if_neg Bool.false_ne_true, List.getLast?_append_of_ne_nil _ (by decide)] at hl
      rw [← Option.some.inj hl] at hdigit
      exact absurd hdigit (by decide)

theorem dirty_name_ne {time : Nat → String} {d e : MetaDiff} (hd : d.isDirty) (he : ¬e.isDirty) :
    createDiffFileName time d ≠ createDiffFileName time e := by
  intro h
  unfold createDiffFileName at h
  rw [String.append_left_inj, if_pos hd, if_neg he] at h
  simp only [List.foldl_cons, List.foldl_nil] at h
  obtain ⟨h, -⟩ := last_gid h
  obtain ⟨h, -⟩ := last_gid h
  exact flags_ne_gid h.symm

theorem opEq_of_name_eq {time : Nat → String} {d e : MetaDiff}
    (h : createDiffFileName time d = createDiffFileName time e) :
    d.opEq e := by
  by_cases hd : d.isDirty
  · by_cases he : e.isDirty
    · unfold createDiffFileName at h
      rw [String.append_left_inj, if_pos hd, if_pos he] at h
      simp only [List.foldl_cons, List.foldl_nil] at h
      obtain ⟨h, hEE⟩ := last_gid h
      obtain ⟨h, hEB⟩ := last_gid h
      obtain ⟨h, hBE⟩ := last_gid h
      obtain ⟨-, hBB⟩ := last_gid h
      exact ⟨MetaSnap.eq_of_gids hBB hBE, MetaSnap.eq_of_gids hEB hEE⟩
    · exact absurd h (dirty_name_ne hd he)
  · by_cases he : e.isDirty
    · exact absurd h.symm (dirty_name_ne he hd)
    · unfold createDiffFileName at h
      rw [String.append_left_inj, if_neg hd, if_neg he] at h
      simp only [List.foldl_cons, List.foldl_nil] at h
      obtain ⟨h, hE⟩ := last_gid h
      obtain ⟨-, hB⟩ := last_gid h
      rw [MetaDiff.isDirty_iff_not_isClean, not_not] at hd he
      have hdB : d.snapB.gidB = d.snapB.gidE := hd.1
      have hdE : d.snapE.gidB = d.snapE.gidE := hd.2
      have heB : e.snapB.gidB = e.snapB.gidE := he.1
      have heE : e.snapE.gidB = e.snapE.gidE := he.2
      exact ⟨MetaSnap.eq_of_gids hB (hdB.symm.trans (hB.trans heB)),
        MetaSnap.eq_of_gids hE (hdE.symm.trans (hE.trans heE))⟩

end FileName

variable {n : Nat} {H : History n} {m m' : MetaDiffManager}

/-- The diffs of a history as they are stored: generated ones, which mark the
explicit snapshots, comparisons of two images, and merges. -/
inductive Stored (H : History n) : MetaDiff → Prop
  | generated {i : Nat} {d : MetaDiff} (hi : i < n) (he : (H.md i).opEq d)
      (hm : d.isMergeable = (H.md i).isMergeable)
      (hc : d.isCompDiff = false) : Stored H d
  | compared {k l : Nat} {d : MetaDiff} (hkl : k < l) (hl : l ≤ n) (hB : d.snapB = H.ms k)
      (hE : d.snapE = H.ms l)
      (hcl : (H.ms l).isClean) (hm : d.isMergeable = true) (hc : d.isCompDiff = true) : Stored H d
  | merged {d e : MetaDiff} (hd : Stored H d) (he : Stored H e) (hm : canMerge d e) : Stored H
      (merge d e)
  | sized {d : MetaDiff} (hd : Stored H d) (dataSize : Nat) : Stored H { d with dataSize := dataSize }

/-- What the flags of a stored diff say: only a comparison passes over an explicit snapshot. -/
structure Spans (H : History n) (k l : Nat) (d : MetaDiff) : Prop where
  leads : H.Leads k l d
  first : d.isCompDiff = false → d.isMergeable = (H.md k).isMergeable
  rest : d.isCompDiff = false → ∀ i, k < i → i < l → (H.md i).isMergeable = true
  compared : d.isCompDiff = true → d.isMergeable = true

theorem Spans.merge {k l k' l' : Nat} {d e : MetaDiff} (hd : Spans H k l d) (he : Spans H k' l' e)
    (hm : canMerge d e) :
    Spans H k l' (Meta.merge d e) where
  leads := hd.leads.of_canMerge he.leads hm
  first _ := hd.first (Bool.not_eq_true _ ▸ (not_or.1 hm.2.1).1)
  rest _ i hki hil := by
    have hdc : d.isCompDiff = false := Bool.not_eq_true _ ▸ (not_or.1 hm.2.1).1
    have hec : e.isCompDiff = false := Bool.not_eq_true _ ▸ (not_or.1 hm.2.1).2
    rcases Nat.lt_or_ge i l with hlt | hge
    · exact hd.rest hdc i hki hlt
    · have hkl : k' ≤ l := by
        have hle := hm.2.2.2.1
        rw [he.leads.snapB_gidB, hd.leads.snapE_gidB] at hle
        exact (H.gidB_le_iff (he.leads.lt.le.trans he.leads.le) hd.leads.le).1 hle
      rcases (hkl.trans hge).eq_or_lt with rfl | hlt
      · rw [← he.first hec]
        exact hm.1
      · exact he.rest hec i hlt hil
  compared hc := absurd hc Bool.false_ne_true

theorem Stored.spans {d : MetaDiff} (h : Stored H d) : ∃ k l, Spans H k l d := by
  induction h with
  | generated hi he hm hc =>
      refine ⟨_, _, (History.leads_md hi).of_opEq he, fun _ => hm, fun _ i hlt hgt => ?_, fun hc' => ?_⟩
      · omega
      · exact absurd (hc.symm.trans hc') Bool.false_ne_true
  | compared hkl hl hB hE hcl hm hc =>
      exact ⟨_, _, History.leads_compared hkl hl hB hE hcl,
        fun hc' => absurd (hc'.symm.trans hc) Bool.false_ne_true,
        fun hc' => absurd (hc'.symm.trans hc) Bool.false_ne_true, fun _ => hm⟩
  | merged _ _ hm ihd ihe =>
      obtain ⟨k, l, hd⟩ := ihd
      obtain ⟨k', l', he⟩ := ihe
      exact ⟨k, l', hd.merge he hm⟩
  | sized _ dataSize ih =>
      obtain ⟨k, l, hd⟩ := ih
      exact ⟨k, l, hd.leads.of_opEq ⟨rfl, rfl⟩, hd.first, hd.rest, hd.compared⟩

theorem Stored.begin_lt_end {d : MetaDiff} (h : Stored H d) : d.snapB.gidB < d.snapE.gidB := by
  obtain ⟨k, l, hk⟩ := h.spans
  rw [hk.leads.snapB_gidB, hk.leads.snapE_gidB]
  exact H.gidB_lt_gidB hk.leads.lt hk.leads.le

theorem Stored.of_isCompDiff {d : MetaDiff} (h : Stored H d) (hc : d.isCompDiff = true) :
    ∃ k l, H.Leads k l d ∧ d.snapB = H.ms k ∧ d.snapE = H.ms l ∧ (H.ms l).isClean := by
  induction h with
  | generated _ _ _ hc' => exact absurd (hc'.symm.trans hc) Bool.false_ne_true
  | compared hkl hl hB hE hcl => exact ⟨_, _, History.leads_compared hkl hl hB hE hcl, hB, hE, hcl⟩
  | merged => exact absurd hc Bool.false_ne_true
  | sized _ _ ih =>
      obtain ⟨k, l, hk, hrest⟩ := ih hc
      exact ⟨k, l, hk.of_opEq ⟨rfl, rfl⟩, hrest⟩

theorem Stored.opEq_of_clean {d e : MetaDiff} (hd : Stored H d) (he : Stored H e)
    (hdc : d.isCompDiff = true) {q : Nat} (hq : q ≤ n)
    (hc : (H.ms q).isClean) (hB : d.snapB.gidB = (H.ms q).gidB) (hBB : d.snapB.gidB = e.snapB.gidB)
    (hEE : d.snapE.gidB = e.snapE.gidB) : d.opEq e := by
  obtain ⟨k, l, hkd, hdB, hdE, hcl⟩ := hd.of_isCompDiff hdc
  obtain ⟨k', l', hke⟩ := he.spans
  have hkn := hkd.lt.le.trans hkd.le
  have hkn' := hke.leads.lt.le.trans hke.leads.le
  have hind : ∀ {i j : Nat}, i ≤ n → j ≤ n → (H.ms i).gidB = (H.ms j).gidB → i = j := fun hi hj heq =>
    le_antisymm ((H.gidB_le_iff hi hj).1 heq.le) ((H.gidB_le_iff hj hi).1 heq.ge)
  rw [hkd.snapB_gidB] at hB hBB
  rw [hke.leads.snapB_gidB] at hBB
  rw [hkd.snapE_gidB, hke.leads.snapE_gidB] at hEE
  obtain rfl := hind hkn hq hB
  obtain rfl := hind hkn hkn' hBB
  obtain rfl := hind hkd.le hke.leads.le hEE
  have hclean : ∀ {s : MetaSnap}, s.isClean → MetaSnap.clean s.gidB = s :=
    fun hs => MetaSnap.eq_of_gids rfl hs
  constructor
  · rcases hke.leads.snapB with h | h
    · rw [hdB, h, hclean hc]
    · rw [hdB, h]
  · by_cases hec : e.isClean
    · rw [hdE, ← hclean hcl, ← hke.leads.snapE_gidB, hclean hec.2]
    · rw [hdE, hke.leads.snapE_of_not_isClean hec]

structure Merges (d : MetaDiff) (v : List MetaDiff) (merged : MetaDiff) : Prop where
  snapB : merged.snapB = d.snapB
  isMergeable : merged.isMergeable = d.isMergeable
  covers : ∀ x, Covers merged x ↔ Covers d x ∨ ∃ e, e ∈ v ∧ Covers e x
  mergeable : ∀ e, e ∈ v → e.isMergeable = true
  progress : v ≠ [] → d.snapE.gidB < merged.snapE.gidB
  not_isCompDiff : v ≠ [] → ∀ e, e ∈ d :: v → e.isCompDiff = false

theorem covers_merge {d e : MetaDiff} (hm : canMerge d e) (x : Nat) :
    Covers (merge d e) x ↔ Covers d x ∨ Covers e x := by
  obtain ⟨-, -, hB, hBE, hE⟩ := hm
  rw [Covers, Covers, Covers, merge_snapB, merge_snapE_gidB]
  omega

theorem merges_of_mergeFrom {d merged : MetaDiff} {v : List MetaDiff}
    (h : mergeFrom d v = .ok merged) : Merges d v merged := by
  induction v generalizing d with
  | nil =>
      obtain rfl := Except.ok.inj h
      exact ⟨rfl, rfl, fun x => by simp, by simp, fun hne => absurd rfl hne, fun hne => absurd rfl hne⟩
  | cons e v ih =>
      rw [mergeFrom] at h
      split_ifs at h with hm
      have hrest := ih h
      have hlt : d.snapE.gidB < (merge d e).snapE.gidB := by
        rw [merge_snapE_gidB]
        exact hm.2.2.2.2
      obtain ⟨hd, he⟩ := not_or.1 hm.2.1
      refine ⟨hrest.snapB, hrest.isMergeable, fun x => ?_,
        List.forall_mem_cons.2 ⟨hm.1, hrest.mergeable⟩, fun _ => ?_, fun _ => ?_⟩
      · simp only [hrest.covers, covers_merge hm, or_assoc, List.mem_cons, exists_eq_or_imp]
      · cases v with
        | nil =>
            obtain rfl := Except.ok.inj h
            exact hlt
        | cons f v => exact hlt.trans (hrest.progress (List.cons_ne_nil f v))
      · refine List.forall_mem_cons.2 ⟨Bool.eq_false_iff.2 hd,
          List.forall_mem_cons.2 ⟨Bool.eq_false_iff.2 he, fun f hf => ?_⟩⟩
        exact hrest.not_isCompDiff (List.ne_nil_of_mem hf) f (List.mem_cons_of_mem _ hf)

theorem stored_mergeFrom {d merged : MetaDiff} {v : List MetaDiff} (hd : Stored H d)
    (hv : ∀ e, e ∈ v → Stored H e)
    (h : mergeFrom d v = .ok merged) : Stored H merged := by
  induction v generalizing d with
  | nil =>
      obtain rfl := Except.ok.inj h
      exact hd
  | cons e v ih =>
      obtain ⟨he, hv⟩ := List.forall_mem_cons.1 hv
      rw [mergeFrom] at h
      split_ifs at h with hm
      exact ih (.merged hd he hm) hv h

theorem of_mergeableStep {pred : MetaDiff → Bool} {mdiff d mdiff' : MetaDiff}
    (hs : mergeableStep m pred mdiff = some (d, mdiff')) :
    d ∈ m.diffs ∧ canMerge mdiff d ∧ mdiff' = merge mdiff d := by
  unfold mergeableStep at hs
  split at hs
  next => exact absurd hs.symm (Option.some_ne_none _)
  next e u hcand =>
    dsimp only at hs
    split_ifs at hs
    obtain ⟨rfl, rfl⟩ := Prod.mk.inj (Option.some.inj hs)
    obtain ⟨hmem, hm⟩ := mem_mergeableCandidates (hcand ▸ (maxProgressFrom_spec e u).1)
    exact ⟨hmem, hm, rfl⟩

/-- The diffs that the loop of `getMergeableDiffList` takes can all be merged. -/
theorem mergeFrom_unfold (m : MetaDiffManager) (pred : MetaDiff → Bool) (fuel : Nat) (mdiff : MetaDiff) :
    ∃ merged, mergeFrom mdiff (Unfold.unfold (mergeableStep m pred) fuel mdiff) = .ok merged := by
  induction fuel generalizing mdiff with
  | zero => exact ⟨mdiff, rfl⟩
  | succ fuel ih =>
      cases hs : mergeableStep m pred mdiff with
      | none =>
          rw [Unfold.unfold_none hs]
          exact ⟨mdiff, rfl⟩
      | some r =>
          obtain ⟨d, mdiff'⟩ := r
          obtain ⟨-, hm, rfl⟩ := of_mergeableStep hs
          obtain ⟨merged, hmerged⟩ := ih (merge mdiff d)
          refine ⟨merged, ?_⟩
          rw [Unfold.unfold_succ hs, mergeFrom, if_pos hm]
          exact hmerged

/-- The bound of the loop does not cut it. -/
theorem mergeable_unfold_eq (m : MetaDiffManager) (pred : MetaDiff → Bool) {fuel : Nat}
    (hfuel : m.mmap.length < fuel)
    (mdiff : MetaDiff) :
    Unfold.unfold (mergeableStep m pred) fuel mdiff = Unfold.unfold (mergeableStep m pred)
      (m.mmap.length + 1) mdiff := by
  have hle : ∀ d : MetaDiff, m.mmap.countP (fun n => decide (d.snapE.gidB < n.diff.snapE.gidB)) ≤
      m.mmap.length :=
    fun _ => List.countP_le_length
  refine Unfold.unfold_fuel (fun d => m.mmap.countP fun n =>
    decide (d.snapE.gidB < n.diff.snapE.gidB)) ?_
    ((hle mdiff).trans_lt hfuel) (Nat.lt_succ_of_le (hle mdiff))
  intro d e d' hs
  obtain ⟨hmem, hm, rfl⟩ := of_mergeableStep hs
  obtain ⟨n, hn, rfl⟩ := mem_diffs.1 hmem
  have hlt := hm.2.2.2.2
  refine Unfold.countP_lt_countP (fun n' _ hn' => ?_) hn (by simpa using hlt) (by simp)
  rw [decide_eq_true_eq, merge_snapE_gidB] at hn'
  exact decide_eq_true (hlt.trans hn')

/-- The list starts with a stored diff that goes farthest among those of its begin. -/
theorem getMergeableDiffList_first (h : Inv m) {gid : Nat} {pred : MetaDiff → Bool} {d : MetaDiff}
    {v : List MetaDiff}
    (hv : getMergeableDiffList m gid pred = d :: v) :
    ∀ e, e ∈ m.diffs → e.snapB.gidB = d.snapB.gidB → e.snapE.gidB ≤ d.snapE.gidB := by
  unfold getMergeableDiffList at hv
  cases hf : getFirstDiffsNolock m gid with
  | nil => simp [hf] at hv
  | cons f u =>
      rw [hf] at hv
      obtain ⟨rfl, -⟩ := List.cons.inj hv
      obtain ⟨hmem, hmax⟩ := maxProgressFrom_spec f u
      unfold getFirstDiffsNolock at hf
      split at hf
      next => exact absurd hf (List.cons_ne_nil f u).symm
      next n l hl =>
        have hkey : ∀ e, e ∈ f :: u ↔ e ∈ m.diffs ∧ e.snapB.gidB = n.diff.snapB.gidB := by
          intro e
          rw [← hf, mem_diffs, List.mem_map]
          constructor
          · rintro ⟨n', hn', rfl⟩
            obtain ⟨hmem, hk⟩ := (KeyedList.mem_equalRange h.sorted).1 hn'
            exact ⟨⟨n', hmem, rfl⟩, hk⟩
          · rintro ⟨⟨n', hmem, rfl⟩, hk⟩
            exact ⟨n', (KeyedList.mem_equalRange h.sorted).2 ⟨hmem, hk⟩, rfl⟩
        intro e he hk
        exact hmax e ((hkey e).2 ⟨he, hk.trans ((hkey _).1 hmem).2⟩)

def explicitBegin (d : MetaDiff) : Prop := d.isMergeable = false

/-- No stored comparison passes over the begin of a stored diff that must not be merged. -/
def NoneHidden (m : MetaDiffManager) : Prop :=
  ∀ d, d ∈ m.diffs → ∀ e, e ∈ m.diffs → d.isCompDiff = true → e.isMergeable = false →
    ¬(d.snapB.gidB < e.snapB.gidB ∧ e.snapB.gidB < d.snapE.gidB)

theorem Spans.not_isCompDiff {k l : Nat} {d : MetaDiff} (h : Spans H k l d) (hm : explicitBegin d) :
    d.isCompDiff = false := by
  by_contra hc
  exact Bool.false_ne_true (hm.symm.trans (h.compared (eq_true_of_ne_false hc)))

theorem unhidden_of_stored (hs : ∀ d, d ∈ m.diffs → Stored H d) (hn : NoneHidden m) :
    GreedyCover.Unhidden beginGid endGid (family m) explicitBegin := by
  rintro e he hm d hd ⟨hl, hlt⟩
  obtain ⟨k, l, hke⟩ := (hs e he).spans
  obtain ⟨k', l', hkd⟩ := (hs d hd).spans
  have hdc : d.isCompDiff = false := by
    by_contra hc
    exact hn d hd e he (eq_true_of_ne_false hc) hm ⟨hl, hlt⟩
  have hkn := hke.leads.lt.le.trans hke.leads.le
  have hkn' := hkd.leads.lt.le.trans hkd.leads.le
  rw [beginGid, beginGid, hkd.leads.snapB_gidB, hke.leads.snapB_gidB, H.gidB_lt_iff hkn' hkn] at hl
  rw [beginGid, endGid, hke.leads.snapB_gidB, hkd.leads.snapE_gidB, H.gidB_lt_iff hkn hkd.leads.le]
    at hlt
  have hexp : (H.md k).isMergeable = false := (hke.first (hke.not_isCompDiff hm)).symm.trans hm
  exact absurd (hexp.symm.trans (hkd.rest hdc k hl hlt)) Bool.false_ne_true

/-- The diffs that begin together have the same flag, comparisons apart. -/
theorem explicitBegin_of_stored {d e : MetaDiff} (hd : Stored H d) (he : Stored H e)
    (hm : explicitBegin e)
    (hdc : d.isCompDiff = false) (hl : beginGid d = beginGid e) : explicitBegin d := by
  obtain ⟨k, l, hke⟩ := he.spans
  obtain ⟨k', l', hkd⟩ := hd.spans
  have hkn := hke.leads.lt.le.trans hke.leads.le
  have hkn' := hkd.leads.lt.le.trans hkd.leads.le
  rw [beginGid, beginGid, hkd.leads.snapB_gidB, hke.leads.snapB_gidB] at hl
  obtain rfl : k' = k := by
    have hle := (H.gidB_le_iff hkn' hkn).1 hl.le
    have hge := (H.gidB_le_iff hkn hkn').1 hl.ge
    omega
  exact (hkd.first hdc).trans ((hke.first (hke.not_isCompDiff hm)).symm.trans hm)

structure Merged (m : MetaDiffManager) (v : List MetaDiff) (merged : MetaDiff) : Prop where
  joins : GreedyCover.Joins beginGid endGid (family m) explicitBegin {d | d ∈ v} merged
  not_isCompDiff : ∀ d, d ∈ v → d.isCompDiff = false
  not_mem : ∀ d, d ∈ m.diffs → ¬merged.opEq d

theorem Merged.mem {v : List MetaDiff} {merged : MetaDiff} (h : Merged m v merged) :
    ∀ d, d ∈ v → d ∈ m.diffs := h.joins.subset

theorem merged_of_mergeable (h : Inv m) {gid : Nat} {pred : MetaDiff → Bool}
    (hlen : 2 ≤ (getMergeableDiffList m gid pred).length) :
    ∃ merged, mergeVec (getMergeableDiffList m gid pred) = .ok merged ∧
      Merged m (getMergeableDiffList m gid pred) merged := by
  have hmem : ∀ d, d ∈ getMergeableDiffList m gid pred → d ∈ m.diffs :=
    fun d hd => mem_of_getMergeableDiffList hd
  have hok : ∃ merged, mergeVec (getMergeableDiffList m gid pred) = .ok merged := by
    unfold getMergeableDiffList at hlen ⊢
    cases hf : getFirstDiffsNolock m gid with
    | nil =>
        simp [hf] at hlen
    | cons e u => exact mergeFrom_unfold m pred _ _
  obtain ⟨merged, hmerged⟩ := hok
  refine ⟨merged, hmerged, ?_⟩
  cases hv : getMergeableDiffList m gid pred with
  | nil =>
      rw [hv] at hlen
      exact absurd hlen (by decide)
  | cons d v =>
      have hfirst := getMergeableDiffList_first h hv
      rw [hv] at hlen hmem hmerged
      have hM := merges_of_mergeFrom hmerged
      have hbegin : beginGid merged = beginGid d := congrArg MetaSnap.gidB hM.snapB
      have hne : v ≠ [] := by
        rintro rfl
        exact absurd hlen (Nat.lt_irrefl 1)
      refine ⟨⟨hmem, fun x => ?_, fun e he hm => ?_, d, List.mem_cons_self, hbegin.symm, ?_,
        hM.progress hne,
        fun e he heq => hfirst e he (heq.trans hbegin)⟩, hM.not_isCompDiff hne, fun e he heq => ?_⟩
      · refine (hM.covers x).trans ⟨?_, ?_⟩
        · rintro (hc | ⟨e, he, hc⟩)
          · exact ⟨d, List.mem_cons_self, hc⟩
          · exact ⟨e, List.mem_cons_of_mem d he, hc⟩
        · rintro ⟨e, he, hc⟩
          rcases List.mem_cons.1 he with rfl | he
          · exact .inl hc
          · exact .inr ⟨e, he, hc⟩
      · -- only the first diff can be marked
        rcases List.mem_cons.1 he with rfl | he
        · exact hbegin.symm
        · exact absurd (hm.symm.trans (hM.mergeable e he)) Bool.false_ne_true
      · rw [explicitBegin, explicitBegin, hM.isMergeable]
      · have hle := hfirst e he ((congrArg MetaSnap.gidB heq.1).symm.trans hbegin)
        have hlt := hM.progress hne
        rw [heq.2] at hlt
        exact absurd hlt hle.not_gt

def replaceDiffs (m : MetaDiffManager) (v : List MetaDiff) (merged : MetaDiff) :
    Except String MetaDiffManager :=
  match m.addNolock merged with
  | .error e => .error e
  | .ok m => .ok (m.eraseVec v false).1

theorem replaceDiffs_ok (h : Inv m) {v : List MetaDiff} {merged : MetaDiff} (hM : Merged m v merged)
    (hvalid : merged.Valid) :
    ∃ m', replaceDiffs m v merged = .ok m' ∧ Inv m' ∧ ∀ d, d ∈ family m' ↔ d = merged ∨
      (d ∈ family m ∧ d ∉ {d | d ∈ v}) := by
  have hadd : m.addNolock merged = .ok (m.emplace merged) := by
    rw [MetaDiffManager.addNolock, h.searchNolock_eq_none_iff.2 hM.not_mem]
  have h₁ := h.emplace hvalid hM.not_mem
  refine ⟨_, by rw [replaceDiffs, hadd], h₁.eraseVec v false, fun d => ?_⟩
  refine (h₁.mem_diffs_eraseVec v).trans ?_
  rw [mem_diffs_emplace]
  constructor
  · rintro ⟨rfl | hd, hv⟩
    · exact .inl rfl
    · exact .inr ⟨hd, fun hdv => hv d hdv (MetaDiff.opEq_refl d)⟩
  · rintro (rfl | ⟨hd, hdv⟩)
    · exact ⟨.inl rfl, fun e he heq => hM.not_mem e (hM.mem e he) heq.symm⟩
    · exact ⟨.inr hd, fun e he heq => hdv (eq_of_opEq h (hM.mem e he) hd heq ▸ he)⟩

def restorableSnaps (m : MetaDiffManager) (st : MetaState) : Except String (List MetaSnap) :=
  (getRestorableList m st false).map (List.map MetaState.snapB)

theorem restorableFrom_gids (isAll : Bool) (st : MetaState) (v : List MetaDiff) :
    ((restorableFrom isAll st v).map fun r => r.snapB.gidB).Sublist (v.map endGid) := by
  induction v generalizing st with
  | nil => exact List.Sublist.refl _
  | cons d v ih =>
      have hstep : restorableFrom isAll st (d :: v) =
          if (stateAfter st.snapB [] d v).snapB.isClean ∧
          (isAll = true ∨ (stateAfter st.snapB [] d v).isExplicit = true) then
            stateAfter st.snapB [] d v :: restorableFrom isAll (stateAfter st.snapB [] d v) v
          else restorableFrom isAll (stateAfter st.snapB [] d v) v := by
        cases v
        · rfl
        · rfl
      have hgid : (stateAfter st.snapB [] d v).snapB.gidB = endGid d := applied_gidB st.snapB d
      rw [hstep]
      split_ifs
      · rw [List.map_cons, List.map_cons, hgid]
        exact (ih _).cons_cons _
      · exact (ih _).cons _

theorem getRestorableList_pairwise (h : Inv m) {st : MetaState} (hst : st.isApplying = false)
    {isAll : Bool} {l : List MetaState}
    (hl : getRestorableList m st isAll = .ok l) :
    l.Pairwise fun r r' => r.snapB.gidB < r'.snapB.gidB := by
  have hmin : getMinimumApplicableDiffList m st = [] := by
    rw [getMinimumApplicableDiffList, if_neg (ne_true_of_eq_false hst)]
  rw [getRestorableList, getTargetDiffLists_eq h, hmin] at hl
  have hpath := (greedy_getApplicableDiffList h MetaDiffManager.always st.snapB).path
  have hrest := hpath.pairwise.sublist (restorableFrom_gids isAll st (full m st.snapB))
  obtain rfl := Except.ok.inj hl
  have hsorted := List.pairwise_map.1 hrest
  split_ifs with hc
  · refine List.pairwise_cons.2 ⟨fun r hr => ?_, hsorted⟩
    exact hpath.lt ((restorableFrom_gids isAll st _).subset (List.mem_map_of_mem hr))
  · exact hsorted

section Base

variable {st : MetaState} {p : Nat}

/-- The explicitly restorable snapshots, in terms of the history. -/
structure Restorable (H : History n) (m : MetaDiffManager) (p : Nat) (latest : Nat) (t : MetaSnap) :
    Prop where
  isClean : t.isClean
  place : t = H.ms p ∨ ∃ q, p < q ∧ q ≤ n ∧ t = H.ms q ∧
    (t.gidB = latest ∨ t.gidB < latest ∧ GreedyCover.Shown beginGid endGid (family m) explicitBegin
    t.gidB)

theorem visited_eq (hs : ∀ d, d ∈ m.diffs → Stored H d) (h : Inv m) (hp : p ≤ n)
    {u w : List MetaDiff} {d : MetaDiff}
    (hv : full m (H.ms p) = u ++ d :: w) : ∃ q, p < q ∧ q ≤ n ∧ appliedVec (H.ms p)
    (u ++ [d]) = H.ms q ∧ endGid d = (H.ms q).gidB := by
  have hg := greedy_getApplicableDiffList h MetaDiffManager.always (H.ms p)
  have hv' : full m (H.ms p) = (u ++ [d]) ++ w := by rw [hv, List.append_assoc, List.singleton_append]
  have hc : canApplyVec (H.ms p) (u ++ [d]) := by
    have hcan := hg.canApply
    rw [show m.getApplicableDiffList (H.ms p) MetaDiffManager.always = (u ++ [d]) ++ w from hv',
      canApplyVec_append] at hcan
    exact hcan.1
  obtain ⟨q, -, hq, hlt, happ⟩ := History.appliedVec_of_leads le_rfl (fun e he => by
    have hmem : e ∈ full m (H.ms p) := hv'.symm ▸ List.mem_append_left w he
    obtain ⟨k, l, hk⟩ := (hs e (hg.mem e hmem)).spans
    exact ⟨k, l, hk.leads, hk.leads.le⟩) hp hc
  refine ⟨q, hlt (List.concat_ne_nil d u), hq, happ, ?_⟩
  rw [← happ, appliedVec_append, appliedVec_cons, appliedVec_nil, applied_gidB]
  rfl

theorem next_covers (h : Inv m) {s : MetaSnap} {u w : List MetaDiff} {d e : MetaDiff}
    (hv : full m s = u ++ d :: e :: w) :
    e ∈ family m ∧ (beginGid e ≤ endGid d ∧ endGid d < endGid e) ∧ Next m (endGid d) (endGid e) := by
  have hg := greedy_getApplicableDiffList h MetaDiffManager.always s
  have hv' : full m s = (u ++ [d]) ++ e :: w := by rw [hv, List.append_assoc, List.singleton_append]
  have hcan := hg.canApply
  rw [show m.getApplicableDiffList s MetaDiffManager.always = (u ++ [d]) ++ e :: w from hv',
    canApplyVec_append] at hcan
  have hc := canApply_iff.1 hcan.2.1
  rw [appliedVec_append, appliedVec_cons, appliedVec_nil, applied_gidB] at hc
  have hmem : e ∈ full m s := hv'.symm ▸ List.mem_append_right _ List.mem_cons_self
  have hpath := hg.path
  rw [show m.getApplicableDiffList s MetaDiffManager.always = (u ++ [d]) ++ e :: w from hv',
    List.map_append, path_append,
    List.map_append, GreedyCover.getLastD_append] at hpath
  exact ⟨hg.mem e hmem, hc, hpath.2.1⟩

theorem latest_of_full {u w : List MetaDiff} {d : MetaDiff} (hv : full m st.snapB = u ++ d :: w)
    (hw : w = []) :
    (getLatestSnapshot m st).gidB = endGid d := by
  rw [getLatestSnapshot, show m.getApplicableDiffList st.snapB MetaDiffManager.always = u ++ d ::
    w from hv, hw, appliedVec_append,
    appliedVec_cons, appliedVec_nil, applied_gidB]
  rfl

theorem lt_latest_of_full (h : Inv m) {u w : List MetaDiff} {d : MetaDiff}
    (hv : full m st.snapB = u ++ d :: w) (hw : w ≠ []) :
    endGid d < (getLatestSnapshot m st).gidB := by
  have hpw := full_pairwise h st.snapB
  rw [hv] at hpw
  rw [getLatestSnapshot, appliedVec_gidB, show m.getApplicableDiffList st.snapB
    MetaDiffManager.always = u ++ d :: w from hv]
  obtain ⟨w, e, rfl⟩ := (List.eq_nil_or_concat' w).resolve_left hw
  rw [List.map_append, List.map_cons, List.map_append, List.pairwise_append] at hpw
  have hlt := (List.pairwise_cons.1 hpw.2.1).1 (endGid e) (List.mem_append_right _ List.mem_cons_self)
  rw [List.map_append, List.map_cons, List.map_append, GreedyCover.getLastD_append,
    List.getLastD_cons, GreedyCover.getLastD_append]
  exact hlt

theorem mem_restorable (h : Inv m) (hs : ∀ d, d ∈ m.diffs → Stored H d)
    (hu : GreedyCover.Unhidden beginGid endGid (family m) explicitBegin) (hp : p ≤ n)
    (hst : st.snapB = H.ms p)
    (hap : st.isApplying = false) {l : List MetaState} (hl : getRestorableList m st false = .ok l)
    (t : MetaSnap) :
    t ∈ l.map MetaState.snapB ↔ Restorable H m p (getLatestSnapshot m st).gidB t := by
  have hmin : getMinimumApplicableDiffList m st = [] := by
    rw [getMinimumApplicableDiffList, if_neg (ne_true_of_eq_false hap)]
  have hpath := (greedy_getApplicableDiffList h MetaDiffManager.always st.snapB).path
  have hlatest : (getLatestSnapshot m st).gidB = ((full m st.snapB).map endGid).getLastD
    st.snapB.gidB := appliedVec_gidB _ _
  obtain ⟨l', hl', hmem⟩ := getRestorableList_eq h st false
  obtain rfl : l' = l := Except.ok.inj (hl'.symm.trans hl)
  have hbase : (st.applyVec (getMinimumApplicableDiffList m st)).snapB = H.ms p := by
    rw [hmin, MetaState.applyVec, MetaState.endApplyingVec_snapB, ← hst]
    rfl
  rw [List.mem_map]
  constructor
  · rintro ⟨r, hr, rfl⟩
    rcases (hmem r).1 hr with ⟨rfl, hc⟩ | ⟨u, d, w, hv, -, rfl, hc, hexp⟩
    · exact ⟨hc, .inl hbase⟩
    · have hv' := hst ▸ hv
      obtain ⟨q, hpq, hq, happ, hgid⟩ := visited_eq hs h hp hv'
      have hsnap : (stateAfter st.snapB u d w).snapB = H.ms q := by rw [← happ, ← hst]; rfl
      refine ⟨hc, .inr ⟨q, hpq, hq, hsnap, ?_⟩⟩
      rw [hsnap, ← hgid]
      cases w with
      | nil => exact .inl (latest_of_full hv rfl).symm
      | cons e w =>
          obtain ⟨he, ⟨hle, hlt⟩, hnext⟩ := next_covers h hv
          have hme : explicitBegin e := by
            rcases hexp with hf | hf
            · exact absurd hf Bool.false_ne_true
            · exact (Bool.not_eq_true' _).mp hf
          have hvis : endGid d ∈ (full m st.snapB).map endGid :=
            List.mem_map_of_mem (hv.symm ▸ List.mem_append_right u List.mem_cons_self)
          have hbe := hu.lo_eq hpath he hme hvis hle hlt
          refine .inr ⟨lt_latest_of_full h hv (List.cons_ne_nil e w), e, he, hme, hbe,
            fun f hf hbf => ?_⟩
          rcases Nat.lt_or_ge (endGid d) (endGid f) with hlt' | hge
          · exact hnext.2 f hf hbf.le hlt'
          · exact hge.trans hlt.le
  · rintro ⟨hc, hplace⟩
    rcases hplace with rfl | ⟨q, hpq, hq, rfl, hplace⟩
    · exact ⟨_, (hmem _).2 (.inl ⟨rfl, hbase ▸ hc⟩), hbase⟩
    · -- a visited gid is the one of a state in the list
      have hvisited : ∀ u d w, full m st.snapB = u ++ d :: w → endGid d = (H.ms q).gidB →
          explicitBefore w = true →
            ∃ r, r ∈ l' ∧ r.snapB = H.ms q := by
        intro u d w hv hgid hexp
        obtain ⟨q', -, hq', happ, hgid'⟩ := visited_eq hs h hp (hst ▸ hv)
        have hqq : q' = q := by
          have hge := (H.gidB_le_iff hq' hq).1 (hgid'.symm.trans hgid).le
          have hle := (H.gidB_le_iff hq hq').1 (hgid'.symm.trans hgid).ge
          omega
        have hsnap : (stateAfter st.snapB u d w).snapB = H.ms q := by rw [← hqq, ← happ, ← hst]; rfl
        exact ⟨_, (hmem _).2 (.inr ⟨u, d, w, hv, hmin ▸ List.nil_prefix, rfl, hsnap ▸ hc,
          .inr hexp⟩), hsnap⟩
      have hlt : st.snapB.gidB < (H.ms q).gidB := hst ▸ H.gidB_lt_gidB hpq hq
      rcases hplace with hL | ⟨hL, e, he, hme, hbe, hmax⟩
      · rcases List.eq_nil_or_concat' (full m st.snapB) with hn | ⟨u, d, hv⟩
        · rw [hlatest, hn] at hL
          exact absurd hL hlt.ne'
        · exact hvisited u d [] hv ((latest_of_full hv rfl).symm.trans hL.symm) rfl
      · have hvis := hu.mem_path hpath he hme (hbe ▸ hlt) (hbe ▸ hlatest ▸ hL.le)
        obtain ⟨d, hd, hde⟩ := List.mem_map.1 hvis
        obtain ⟨u, w, hv⟩ := List.append_of_mem hd
        cases w with
        | nil => exact absurd ((latest_of_full hv rfl).trans (hde.trans hbe)) hL.ne'
        | cons f w =>
            obtain ⟨hf, ⟨hle, hlt'⟩, hnext⟩ := next_covers h hv
            rw [hde] at hle hlt' hnext
            have hbf : beginGid f = beginGid e := by
              by_contra hne
              exact hu e he hme f hf ⟨lt_of_le_of_ne hle hne, hlt'⟩
            -- the two end together, too, and from a clean snapshot only one such diff is stored
            have hend : endGid f = endGid e :=
              le_antisymm (hmax f hf (hbf.trans hbe)) (hnext.2 e he le_rfl (hs e he).begin_lt_end)
            have hmf : explicitBegin f := by
              cases hcf : f.isCompDiff with
              | false => exact explicitBegin_of_stored (hs f hf) (hs e he) hme hcf hbf
              | true =>
                  have heq := eq_of_opEq h hf he ((hs f hf).opEq_of_clean (hs e he) hcf hq hc
                    (hbf.trans hbe) hbf hend)
                  exact heq ▸ hme
            exact hvisited u d (f :: w) hv (hde.trans hbe) (congrArg not hmf)

theorem latest_of_leads (h : Inv m) (hs : ∀ d, d ∈ m.diffs → Stored H d) (hp : p ≤ n)
    (hst : st.snapB = H.ms p) :
    ∃ q, q ≤ n ∧ getLatestSnapshot m st = H.ms q := by
  have hg := greedy_getApplicableDiffList h MetaDiffManager.always st.snapB
  have hleads : ∀ d, d ∈ m.getApplicableDiffList st.snapB MetaDiffManager.always → ∃ k l,
      H.Leads k l d ∧ l ≤ n := by
    intro d hd
    obtain ⟨k, l, hk⟩ := (hs d (hg.mem d hd)).spans
    exact ⟨k, l, hk.leads, hk.leads.le⟩
  have hcan := hg.canApply
  rw [hst] at hleads hcan
  obtain ⟨q, -, hq, -, happ⟩ := History.appliedVec_of_leads le_rfl hleads hp hcan
  exact ⟨q, hq, by rw [getLatestSnapshot, hst, happ]⟩

/-- Managers of one history that cover the same gids have the same latest snapshot. -/
theorem latest_congr (h : Inv m) (h' : Inv m') (hs : ∀ d, d ∈ m.diffs → Stored H d)
    (hs' : ∀ d, d ∈ m'.diffs → Stored H d)
    (hp : p ≤ n) (hst : st.snapB = H.ms p) (hcov : ∀ x, Covered m' x ↔ Covered m x) :
    getLatestSnapshot m' st = getLatestSnapshot m st := by
  obtain ⟨ps, hpath, hlast, hend⟩ := getLatestSnapshot_spec h st
  obtain ⟨qs, hpath', hlast', hend'⟩ := getLatestSnapshot_spec h' st
  have hgid : (getLatestSnapshot m' st).gidB = (getLatestSnapshot m st).gidB := by
    rw [← hlast] at hend ⊢
    rw [← hlast'] at hend' ⊢
    exact hpath'.last_eq hend' hpath.le_last (fun z hz hzl => (hcov z).2 (hpath.covered hz hzl))
      (fun hc => hend ((hcov _).1 hc))
  obtain ⟨q, hq, hlq⟩ := latest_of_leads h hs hp hst
  obtain ⟨q', hq', hlq'⟩ := latest_of_leads h' hs' hp hst
  rw [hlq, hlq'] at hgid ⊢
  have hge := (H.gidB_le_iff hq' hq).1 hgid.le
  have hle := (H.gidB_le_iff hq hq').1 hgid.ge
  rw [le_antisymm hge hle]

end Base

theorem restorableSnaps_congr {st : MetaState} {p : Nat} (h : Inv m) (h' : Inv m')
    (hs : ∀ d, d ∈ m.diffs → Stored H d)
    (hs' : ∀ d, d ∈ m'.diffs → Stored H d)
    (hu : GreedyCover.Unhidden beginGid endGid (family m) explicitBegin)
    (hu' : GreedyCover.Unhidden beginGid endGid (family m') explicitBegin) (hp : p ≤ n)
    (hst : st.snapB = H.ms p)
    (hap : st.isApplying = false) (hlatest : getLatestSnapshot m' st = getLatestSnapshot m st)
    (hshown : ∀ x, GreedyCover.Shown beginGid endGid (family m') explicitBegin x ↔
      GreedyCover.Shown beginGid endGid (family m) explicitBegin x) :
    ∃ l, restorableSnaps m st = .ok l ∧ restorableSnaps m' st = .ok l := by
  obtain ⟨l, hl, -⟩ := getRestorableList_eq h st false
  obtain ⟨l', hl', -⟩ := getRestorableList_eq h' st false
  refine ⟨l.map MetaState.snapB, by rw [restorableSnaps, hl]; rfl, ?_⟩
  have hmem : ∀ t, t ∈ l'.map MetaState.snapB ↔ t ∈ l.map MetaState.snapB := by
    intro t
    rw [mem_restorable h hs hu hp hst hap hl, mem_restorable h' hs' hu' hp hst hap hl', hlatest]
    constructor
    · rintro ⟨hc, ht⟩
      exact ⟨hc, by rwa [hshown] at ht⟩
    · rintro ⟨hc, ht⟩
      exact ⟨hc, by rwa [hshown]⟩
  have : Std.Antisymm fun s t : MetaSnap => s.gidB < t.gidB := ⟨fun _ _ hlt hgt => absurd hlt hgt.asymm⟩
  have : Std.Irrefl fun s t : MetaSnap => s.gidB < t.gidB := ⟨fun s => lt_irrefl s.gidB⟩
  have hsorted : (l.map MetaState.snapB).Pairwise fun s t => s.gidB < t.gidB :=
    List.pairwise_map.2 (getRestorableList_pairwise h hap hl)
  have hsorted' : (l'.map MetaState.snapB).Pairwise fun s t => s.gidB < t.gidB :=
    List.pairwise_map.2 (getRestorableList_pairwise h' hap hl')
  rw [restorableSnaps, hl']
  exact congrArg Except.ok (hsorted'.eq_of_mem_iff hsorted hmem)

section Runs

theorem mem_addVec {v : List MetaDiff} {e : MetaDiff} (he : e ∈ (m.addVec v).1.diffs) :
    e ∈ m.diffs ∨ e ∈ v := by
  induction v generalizing m with
  | nil => exact .inl he
  | cons d v ih =>
      rw [MetaDiffManager.addVec, MetaDiffManager.addNolock] at he
      cases hs : m.searchNolock d with
      | some _ =>
          rw [hs] at he
          exact .inl he
      | none =>
          rw [hs] at he
          rcases ih he with he | he
          · rcases mem_diffs_emplace.1 he with rfl | he
            · exact .inr List.mem_cons_self
            · exact .inl he
          · exact .inr (List.mem_cons_of_mem d he)

/-- The operations on the diffs of a history. The flags of stored diffs stay. -/
def Keeps (H : History n) (op : Op) : Prop :=
  (∀ d, d ∈ op.stored → Stored H d) ∧ ∀ gid enable, op ≠ .changeSnapshot gid enable

theorem mem_eraseNolock {d : MetaDiff} {doesThrowError : Bool}
    (hm : m.eraseNolock d doesThrowError = .ok m') {e : MetaDiff}
    (he : e ∈ m'.diffs) : e ∈ m.diffs := by
  rw [MetaDiffManager.eraseNolock] at hm
  cases hs : m.searchNolock d with
  | some n =>
      rw [hs] at hm
      obtain rfl := Except.ok.inj hm
      obtain ⟨n', hn', rfl⟩ := mem_diffs.1 he
      exact mem_diffs.2 ⟨n', (mem_mmap_removeNode.1 hn').1, rfl⟩
  | none =>
      rw [hs] at hm
      dsimp only at hm
      split_ifs at hm
      obtain rfl := Except.ok.inj hm
      exact he

theorem mem_eraseVec {v : List MetaDiff} {doesThrowError : Bool} {e : MetaDiff}
    (he : e ∈ (m.eraseVec v doesThrowError).1.diffs) :
    e ∈ m.diffs := by
  induction v generalizing m with
  | nil => exact he
  | cons d v ih =>
      rw [MetaDiffManager.eraseVec] at he
      cases hd : m.eraseNolock d doesThrowError with
      | error _ =>
          rw [hd] at he
          exact he
      | ok m' =>
          rw [hd] at he
          exact mem_eraseNolock hd (ih he)

theorem mem_run (h : Inv m) {op : Op} (hop : ∀ gid enable, op ≠ .changeSnapshot gid enable)
    {e : MetaDiff}
    (he : e ∈ (op.run m).diffs) : e ∈ m.diffs ∨ e ∈ op.stored := by
  cases op with
  | add d =>
      rw [Op.run, MetaDiffManager.addNolock] at he
      cases hs : m.searchNolock d with
      | some _ =>
          rw [hs] at he
          exact .inl he
      | none =>
          rw [hs] at he
          rcases mem_diffs_emplace.1 he with rfl | he
          · exact .inr List.mem_cons_self
          · exact .inl he
  | erase d doesThrowError =>
      rw [Op.run] at he
      cases hd : m.eraseNolock d doesThrowError with
      | error _ =>
          rw [hd] at he
          exact .inl he
      | ok m' =>
          rw [hd] at he
          exact .inl (mem_eraseNolock hd he)
  | eraseVec v doesThrowError => exact .inl (mem_eraseVec he)
  | gc snap => exact .inl (h.mem_of_getApplicableDiffList ((mem_diffs_gc h snap e).1 he))
  | gcRange gidB gidE => exact .inl (h.mem_diffs_gcRange.1 he).1
  | eraseBeforeGid gid => exact .inl ((h.mem_diffs_eraseBeforeGid.1 e).1 he).1
  | reset v =>
      rcases mem_addVec he with he | he
      · exact absurd he List.not_mem_nil
      · exact .inr he
  | clear => exact absurd he List.not_mem_nil
  | changeSnapshot gid enable => exact absurd rfl (hop gid enable)

theorem stored_foldl (hfits : (H.ms n).gidE < u64) (h : Inv m) (hs : ∀ d, d ∈ m.diffs → Stored H d)
    {ops : List Op}
    (hops : ∀ op, op ∈ ops → Keeps H op) : ∀ d, d ∈ (ops.foldl Op.run m).diffs → Stored H d := by
  induction ops generalizing m with
  | nil => exact hs
  | cons op ops ih =>
      obtain ⟨hop, hops⟩ := List.forall_mem_cons.1 hops
      have hvalid : ∀ d, d ∈ op.stored → d.Valid := by
        intro d hd
        obtain ⟨k, l, hk⟩ := (hop.1 d hd).spans
        exact hk.leads.valid hfits
      refine ih (h.run hvalid) (fun d hd => ?_) hops
      rcases mem_run h hop.2 hd with hd | hd
      · exact hs d hd
      · exact hop.1 d hd

end Runs

theorem stored_mergeVec {v : List MetaDiff} (hv : ∀ d, d ∈ v → Stored H d) {merged : MetaDiff}
    (h : mergeVec v = .ok merged) :
    Stored H merged := by
  cases v with
  | nil => cases h
  | cons d v =>
      obtain ⟨hd, hv⟩ := List.forall_mem_cons.1 hv
      exact stored_mergeFrom hd hv h

theorem merged_size {v : List MetaDiff} {merged : MetaDiff} (h : Merged m v merged) (dataSize : Nat) :
    Merged m v { merged with dataSize := dataSize } :=
  ⟨⟨h.joins.subset, h.joins.covers, h.joins.mark_of_mem, h.joins.first⟩, h.not_isCompDiff, h.not_mem⟩

/-- A merge of stored diffs changes neither the latest snapshot nor the explicitly
restorable ones, when no comparison passes over an explicit snapshot. -/
theorem merge_keeps_restorable (H : History n) (hfits : (H.ms n).gidE < u64) (ops : List Op)
    (hops : ∀ op, op ∈ ops → Keeps H op)
    (hn : NoneHidden (ops.foldl Op.run .empty)) (st : MetaState) {p : Nat} (hp : p ≤ n)
    (hst : st.snapB = H.ms p)
    (hap : st.isApplying = false) (gid : Nat) (unixTimeToStr : Nat → String) (dataSize : Nat) :
    let m := ops.foldl Op.run .empty
    let v := getMergeableDiffList m gid fun _ => true
    2 ≤ v.length → ∃ merged, mergeVec v = .ok merged ∧ (∀ d, d ∈ m.diffs → ¬merged.opEq d) ∧
      (∀ d, d ∈ v → createDiffFileName unixTimeToStr merged ≠ createDiffFileName unixTimeToStr d) ∧
      ∃ m', replaceDiffs m v { merged with dataSize := dataSize } = .ok m' ∧
        getLatestSnapshot m' st = getLatestSnapshot m st ∧
        ∃ l, restorableSnaps m st = .ok l ∧ restorableSnaps m' st = .ok l := by
  intro m v hlen
  have hs : ∀ d, d ∈ m.diffs → Stored H d :=
    stored_foldl hfits inv_empty (fun d hd => absurd hd List.not_mem_nil) hops
  have h : Inv m := inv_foldl inv_empty fun op hop d hd => by
    obtain ⟨k, l, hk⟩ := ((hops op hop).1 d hd).spans
    exact hk.leads.valid hfits
  obtain ⟨merged, hmerged, hM⟩ := merged_of_mergeable h hlen
  refine ⟨merged, hmerged, hM.not_mem, fun d hd heq => hM.not_mem d (hM.mem d hd)
    (opEq_of_name_eq heq), ?_⟩
  have hM' := merged_size hM dataSize
  have hsm := (stored_mergeVec (fun d hd => hs d (hM.mem d hd)) hmerged).sized dataSize
  obtain ⟨k, l, hk⟩ := hsm.spans
  obtain ⟨m', hm', h', hmem⟩ := replaceDiffs_ok h hM' (hk.leads.valid hfits)
  have hs' : ∀ d, d ∈ m'.diffs → Stored H d := by
    intro d hd
    rcases (hmem d).1 hd with rfl | ⟨hd, -⟩
    · exact hsm
    · exact hs d hd
  have hu := unhidden_of_stored hs hn
  have hagree : GreedyCover.Agree beginGid (family m) explicitBegin {d | d ∈ v} := fun e he hm d hd hl =>
    explicitBegin_of_stored (hs d (hM.mem d hd)) (hs e he) hm (hM.not_isCompDiff d hd) hl
  have hlatest := latest_congr h h' hs hs' hp hst (hM'.joins.covered_iff hmem)
  exact ⟨m', hm', hlatest, restorableSnaps_congr h h' hs hs' hu (hM'.joins.unhidden hmem hagree hu)
    hp hst hap hlatest
    (hM'.joins.shown_iff hmem hagree)⟩

/-- Each diff is applicable to the latest snapshot when it arrives. -/
def Arrives (st : MetaState) : MetaDiffManager → List MetaDiff → Prop
  | _, [] => True
  | m, d :: v => canApply (getLatestSnapshot m st) d ∧ Arrives st ((Op.add d).run m) v

instance decidableArrives (st : MetaState) :
    (m : MetaDiffManager) → (v : List MetaDiff) → Decidable (Arrives st m v)
  | _, [] => isTrue trivial
  | m, d :: v =>
      have := decidableArrives st ((Op.add d).run m) v
      inferInstanceAs (Decidable (_ ∧ _))

def explicitHistory : History 4 where
  ms i := MetaSnap.clean i
  md i := .ofSnaps (.clean i) (.clean (i + 1)) (decide (i ≠ 1)) i
  generates i hi := by
    match i, hi with
    | 0, _ => exact .clean 1 (by decide) rfl rfl
    | 1, _ => exact .clean 2 (by decide) rfl rfl
    | 2, _ => exact .clean 3 (by decide) rfl rfl
    | 3, _ => exact .clean 4 (by decide) rfl rfl

/-- A comparison that passes over the explicit snapshot, and two merges that overlap it. -/
def hiddenDiffs : List MetaDiff :=
  [{ MetaDiff.ofSnaps (.clean 0) (.clean 2) true 1 with isCompDiff := true },
    merge (explicitHistory.md 1) (explicitHistory.md 2),
    merge (explicitHistory.md 2) (explicitHistory.md 3)]

theorem stored_md {H : History n} (hm : ∀ i, i < n → (H.md i).isCompDiff = false) {i : Nat}
    (hi : i < n) : Stored H (H.md i) :=
  .generated hi (MetaDiff.opEq_refl _) rfl (hm i hi)

theorem stored_hiddenDiffs : ∀ d, d ∈ hiddenDiffs → Stored explicitHistory d := by
  have hmd : ∀ i, i < 4 → Stored explicitHistory (explicitHistory.md i) :=
    fun i hi => stored_md (fun _ _ => rfl) hi
  intro d hd
  simp only [hiddenDiffs, List.mem_cons, List.not_mem_nil, or_false] at hd
  rcases hd with rfl | rfl | rfl
  · exact .compared (k := 0) (l := 2) (by decide) (by decide) rfl rfl rfl rfl rfl
  · exact .merged (hmd 1 (by decide)) (hmd 2 (by decide)) (by decide)
  · exact .merged (hmd 2 (by decide)) (hmd 3 (by decide)) (by decide)

def mergeStored (m : MetaDiffManager) (v : List MetaDiff) : Except String MetaDiffManager :=
  (mergeVec v).bind (replaceDiffs m v)

def mixedDiffs : List MetaDiff := [mixedHistory.md 0, mixedHistory.md 1, mixedHistory.md 2]

/-- A merge shows a snapshot that a comparison hid. From a base that is no
snapshot of the history it changes the latest snapshot. -/
theorem merge_changes_restorable :
    (let st := MetaState.ofSnap (.clean 0) 0
      let m := (hiddenDiffs.map Op.add).foldl Op.run .empty
      let v := getMergeableDiffList m 1 fun _ => true
      (∀ d, d ∈ hiddenDiffs → Stored explicitHistory d) ∧ Arrives st .empty hiddenDiffs ∧ v.length = 2 ∧
        (restorableSnaps m st).toOption = some [.clean 0, .clean 4] ∧
        ((mergeStored m v).bind fun m' => restorableSnaps m' st).toOption =
        some [.clean 0, .clean 2, .clean 4]) ∧
    (let st := MetaState.ofSnap ⟨0, 8, by decide⟩ 0
      let m := (mixedDiffs.map Op.add).foldl Op.run .empty
      let v := getMergeableDiffList m 0 fun _ => true
      (∀ d, d ∈ mixedDiffs → Stored mixedHistory d) ∧ Arrives st .empty mixedDiffs ∧ v.length = 3 ∧
        getLatestSnapshot m st = .clean 7 ∧
        ((mergeStored m v).map fun m' => getLatestSnapshot m' st).toOption =
        some ⟨7, 8, by decide⟩) := by
  refine ⟨⟨stored_hiddenDiffs, by decide +kernel, by decide +kernel, by decide +kernel,
    by decide +kernel⟩,
    fun d hd => ?_, by decide +kernel, by decide +kernel, by decide +kernel, by decide +kernel⟩
  have hmd : ∀ i, i < 3 → Stored mixedHistory (mixedHistory.md i) :=
    fun i hi => stored_md mixedHistory_mergeable.not_isCompDiff hi
  simp only [mixedDiffs, List.mem_cons, List.not_mem_nil, or_false] at hd
  rcases hd with rfl | rfl | rfl
  · exact hmd 0 (by decide)
  · exact hmd 1 (by decide)
  · exact hmd 2 (by decide)

def explicitOps : List Op := [0, 1, 2, 3].map fun i => Op.add (explicitHistory.md i)

theorem keeps_explicitOps : ∀ op, op ∈ explicitOps → Keeps explicitHistory op := by
  intro op hop
  obtain ⟨i, hi, rfl⟩ := List.mem_map.1 hop
  have hlt : i < 4 := by
    simp only [List.mem_cons, List.not_mem_nil, or_false] at hi
    omega
  refine ⟨fun d hd => ?_, fun gid enable heq => Op.noConfusion heq⟩
  obtain rfl := List.mem_singleton.1 hd
  exact stored_md (fun _ _ => rfl) hlt

theorem noneHidden_explicitOps : NoneHidden (explicitOps.foldl Op.run .empty) := by
  have hc : ∀ d, d ∈ (explicitOps.foldl Op.run MetaDiffManager.empty).diffs →
    d.isCompDiff = false := by decide +kernel
  intro d hd e _ hcomp
  exact absurd ((hc d hd).symm.trans hcomp) Bool.false_ne_true

theorem merge_keeps_restorable_explicit :
    let m := explicitOps.foldl Op.run .empty
    let v := getMergeableDiffList m 1 fun _ => true
    let st := MetaState.ofSnap (explicitHistory.ms 0) 0
    ∃ merged, mergeVec v = .ok merged ∧ (∀ d, d ∈ m.diffs → ¬merged.opEq d) ∧
      (∀ d, d ∈ v → createDiffFileName toString merged ≠ createDiffFileName toString d) ∧
      ∃ m', replaceDiffs m v { merged with dataSize := 5 } = .ok m' ∧
        getLatestSnapshot m' st = getLatestSnapshot m st ∧
        ∃ l, restorableSnaps m st = .ok l ∧ restorableSnaps m' st = .ok l :=
  merge_keeps_restorable explicitHistory (by decide) explicitOps keeps_explicitOps noneHidden_explicitOps
    (MetaState.ofSnap (explicitHistory.ms 0) 0) (Nat.zero_le 4) rfl rfl 1 toString 5 (by decide +kernel)

end WalbTools.MergeKeeps
