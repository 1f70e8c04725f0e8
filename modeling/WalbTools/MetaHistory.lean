import Mathlib
import WalbTools.Meta

namespace WalbTools.MetaHistory

open Meta

/-- The two generation rules. A clean diff comes from the log and starts at the
begin gid of the snapshot; a dirty diff comes from a backup and leads to a
dirty snapshot past the end gid of the current one. -/
inductive Generates (ms : MetaSnap) (md : MetaDiff) : MetaSnap → Prop
  | clean (B' : Nat) (hlt : ms.gidB < B') (hB : md.snapB = MetaSnap.clean ms.gidB)
      (hE : md.snapE = MetaSnap.clean B') : Generates ms md (applied ms md)
  | dirty (hB : md.snapB = ms) (hlt : ms.gidE < md.snapE.gidB)
      (hd : md.snapE.gidB < md.snapE.gidE) : Generates ms md md.snapE

theorem Generates.isClean_or {ms ms' : MetaSnap} {md : MetaDiff} (h : Generates ms md ms') :
    md.isClean ∨ ¬md.isClean ∧ md.snapB = ms ∧ md.snapE = ms' := by
  cases h with
  | clean B' hlt hB hE => exact .inl ⟨by rw [hB]; rfl, by rw [hE]; rfl⟩
  | dirty hB hlt hd => exact .inr ⟨fun hc => hd.ne hc.2, hB, rfl⟩

theorem Generates.snapB_gidB {ms ms' : MetaSnap} {md : MetaDiff} (h : Generates ms md ms') :
    md.snapB.gidB = ms.gidB := by
  cases h with
  | clean B' hlt hB hE => rw [hB]; rfl
  | dirty hB hlt hd => rw [hB]

theorem Generates.snapB_cases {ms ms' : MetaSnap} {md : MetaDiff} (h : Generates ms md ms') :
    md.snapB = MetaSnap.clean ms.gidB ∨ md.snapB = ms := by
  cases h with
  | clean B' hlt hB hE => exact .inl hB
  | dirty hB hlt hd => exact .inr hB

theorem Generates.snapE_gidB {ms ms' : MetaSnap} {md : MetaDiff} (h : Generates ms md ms') :
    md.snapE.gidB = ms'.gidB := by
  cases h with
  | clean B' hlt hB hE => rw [applied_gidB]
  | dirty hB hlt hd => rfl

theorem Generates.gidB_lt {ms ms' : MetaSnap} {md : MetaDiff} (h : Generates ms md ms') :
    ms.gidB < ms'.gidB := by
  cases h with
  | clean B' hlt hB hE => simpa [hE] using hlt
  | dirty hB hlt hd => exact ms.verify.trans_lt hlt

/-- Under the generation rules a diff leads from its snapshot to the next. -/
theorem Generates.applied_eq {ms ms' : MetaSnap} {md : MetaDiff} (h : Generates ms md ms') :
    applied ms md = ms' := by
  cases h with
  | clean B' hlt hB hE => rfl
  | dirty hB hlt hd => exact applied_of_not_isClean ms (fun hc => hd.ne hc.2)

theorem Generates.gidE_le {ms ms' : MetaSnap} {md : MetaDiff} (h : Generates ms md ms') :
    ms.gidE ≤ ms'.gidE := by
  cases h with
  | clean B' hlt hB hE =>
      have hc : md.isClean := ⟨by rw [hB]; rfl, by rw [hE]; rfl⟩
      rw [applied_gidE_of_isClean ms hc]
      exact le_max_right _ _
  | dirty hB hlt hd => exact hlt.le.trans hd.le

theorem Generates.gidE_of_isClean {ms ms' : MetaSnap} {md : MetaDiff} (h : Generates ms md ms')
    (hc : md.isClean) : ms'.gidE = max ms'.gidB ms.gidE := by
  rw [← h.applied_eq, applied_gidE_of_isClean ms hc, applied_gidB]

structure History (n : Nat) where
  ms : Nat → MetaSnap
  md : Nat → MetaDiff
  generates : ∀ i, i < n → Generates (ms i) (md i) (ms (i + 1))

namespace History

variable {n : Nat} (H : History n)

structure Mergeable : Prop where
  isMergeable : ∀ i, i < n → (H.md i).isMergeable = true
  not_isCompDiff : ∀ i, i < n → (H.md i).isCompDiff = false

theorem gidB_lt_gidB {i j : Nat} (hij : i < j) (hj : j ≤ n) : (H.ms i).gidB < (H.ms j).gidB := by
  induction j, hij using Nat.le_induction with
  | base => exact (H.generates i (by omega)).gidB_lt
  | succ j hij ih => exact (ih (by omega)).trans (H.generates j (by omega)).gidB_lt

theorem gidB_le_gidB {i j : Nat} (hij : i ≤ j) (hj : j ≤ n) : (H.ms i).gidB ≤ (H.ms j).gidB := by
  rcases hij.eq_or_lt with rfl | hlt
  · exact le_rfl
  · exact (H.gidB_lt_gidB hlt hj).le

theorem gidB_lt_iff {i j : Nat} (hi : i ≤ n) (hj : j ≤ n) :
    (H.ms i).gidB < (H.ms j).gidB ↔ i < j := by
  refine ⟨fun h => ?_, fun h => H.gidB_lt_gidB h hj⟩
  by_contra hji
  exact absurd (H.gidB_le_gidB (Nat.le_of_not_lt hji) hi) (by omega)

theorem gidB_le_iff {i j : Nat} (hi : i ≤ n) (hj : j ≤ n) :
    (H.ms i).gidB ≤ (H.ms j).gidB ↔ i ≤ j := by
  have h := H.gidB_lt_iff hj hi
  omega

theorem gidE_le_gidE {i j : Nat} (hij : i ≤ j) (hj : j ≤ n) : (H.ms i).gidE ≤ (H.ms j).gidE := by
  induction j, hij using Nat.le_induction with
  | base => exact le_rfl
  | succ j hij ih => exact (ih (by omega)).trans (H.generates j (by omega)).gidE_le

/-- Some diff of `md_i .. md_{j-1}` was made by the rule for dirty diffs. -/
def hasDirty (i j : Nat) : Prop := ∃ p, p < j ∧ i ≤ p ∧ (H.md p).isDirty

instance (i j : Nat) : Decidable (H.hasDirty i j) :=
  inferInstanceAs (Decidable (∃ p, p < j ∧ _))

theorem hasDirty_mono {i j k l : Nat} (hki : k ≤ i) (hjl : j ≤ l) (h : H.hasDirty i j) :
    H.hasDirty k l := by
  obtain ⟨p, hp, hi, hd⟩ := h
  exact ⟨p, hp.trans_le hjl, hki.trans hi, hd⟩

theorem isClean_of_not_hasDirty {i j p : Nat} (h : ¬H.hasDirty i j) (hi : i ≤ p) (hp : p < j) :
    (H.md p).isClean := by
  by_contra hc
  exact h ⟨p, hp, hi, (MetaDiff.isDirty_iff_not_isClean _).2 hc⟩

theorem gidE_of_not_hasDirty {i j : Nat} (hij : i < j) (hj : j ≤ n) (h : ¬H.hasDirty i j) :
    (H.ms j).gidE = max (H.ms j).gidB (H.ms i).gidE := by
  induction j, hij using Nat.le_induction with
  | base =>
      exact (H.generates i (by omega)).gidE_of_isClean
        (H.isClean_of_not_hasDirty h le_rfl (by omega))
  | succ j hij ih =>
      have hg := H.generates j (by omega)
      have hE := hg.gidE_of_isClean (H.isClean_of_not_hasDirty h (by omega) (by omega))
      have hj' := ih (by omega) (fun hd => h (H.hasDirty_mono le_rfl (by omega) hd))
      have hlt := hg.gidB_lt
      omega

def endSnap (i j : Nat) : MetaSnap :=
  if H.hasDirty i j then H.ms j else MetaSnap.clean (H.ms j).gidB

@[simp] theorem endSnap_gidB (i j : Nat) : (H.endSnap i j).gidB = (H.ms j).gidB := by
  unfold endSnap
  split_ifs <;> rfl

theorem snapB_isClean_of_not_hasDirty {i j : Nat} (hij : i < j) (h : ¬H.hasDirty i j) :
    (H.md i).snapB.isClean :=
  (H.isClean_of_not_hasDirty h le_rfl hij).1

inductive MergeOf : Nat → Nat → MetaDiff → Prop
  | single {i : Nat} (hi : i < n) : MergeOf i (i + 1) (H.md i)
  | join {i k j : Nat} {d e : MetaDiff} (hd : MergeOf i k d) (he : MergeOf k j e) :
      MergeOf i j (merge d e)

/-- What every bracketing of `md_i .. md_{j-1}` computes. The sizes are kept
only by a diff that was never merged. -/
structure Range (i j : Nat) (d : MetaDiff) : Prop where
  lt : i < j
  le : j ≤ n
  isMergeable : d.isMergeable = true
  not_isCompDiff : d.isCompDiff = false
  timestamp : d.timestamp = (H.md (j - 1)).timestamp
  snapB : d.snapB = (H.md i).snapB
  snapE : d.snapE = H.endSnap i j
  dataSize : d.dataSize = if j = i + 1 then (H.md i).dataSize else 0

variable {H}

theorem Range.unique {i j : Nat} {d e : MetaDiff} (hd : H.Range i j d) (he : H.Range i j e) :
    d = e := by
  obtain ⟨-, -, hm, hc, ht, hB, hE, hs⟩ := hd
  obtain ⟨-, -, hm', hc', ht', hB', hE', hs'⟩ := he
  cases d
  cases e
  simp_all

theorem Range.single (hm : H.Mergeable) {i : Nat} (hi : i < n) :
    H.Range i (i + 1) (H.md i) where
  lt := by omega
  le := by omega
  isMergeable := hm.isMergeable i hi
  not_isCompDiff := hm.not_isCompDiff i hi
  timestamp := rfl
  snapB := rfl
  snapE := by
    have hg := H.generates i hi
    rcases hg.isClean_or with hc | ⟨hc, -, hE⟩
    · have hn : ¬H.hasDirty i (i + 1) := by
        rintro ⟨p, hp, hip, hd⟩
        obtain rfl : p = i := by omega
        exact (MetaDiff.isDirty_iff_not_isClean _).1 hd hc
      rw [endSnap, if_neg hn]
      exact MetaSnap.eq_of_gids hg.snapE_gidB (hc.2.symm.trans hg.snapE_gidB)
    · have hd : H.hasDirty i (i + 1) :=
        ⟨i, by omega, le_rfl, (MetaDiff.isDirty_iff_not_isClean _).2 hc⟩
      rw [endSnap, if_pos hd, hE]
  dataSize := by simp

theorem Range.snapB_gidB {i j : Nat} {d : MetaDiff} (h : H.Range i j d) :
    d.snapB.gidB = (H.ms i).gidB := by
  rw [h.snapB]
  exact (H.generates i (h.lt.trans_le h.le)).snapB_gidB

theorem Range.snapE_gidB {i j : Nat} {d : MetaDiff} (h : H.Range i j d) :
    d.snapE.gidB = (H.ms j).gidB := by
  rw [h.snapE, endSnap_gidB]

theorem Range.isClean_of_not_hasDirty {i j : Nat} {d : MetaDiff} (h : H.Range i j d)
    (hn : ¬H.hasDirty i j) : d.isClean := by
  refine ⟨?_, ?_⟩
  · rw [h.snapB]
    exact H.snapB_isClean_of_not_hasDirty h.lt hn
  · rw [h.snapE, endSnap, if_neg hn]
    rfl

/-- A merged diff that looks clean although a dirty diff went into it ends at
a clean snapshot. -/
theorem Range.ms_isClean {i j : Nat} {d : MetaDiff} (h : H.Range i j d) (hd : H.hasDirty i j)
    (hc : d.isClean) : (H.ms j).gidE = (H.ms j).gidB := by
  have hE := hc.2
  rw [h.snapE, endSnap, if_pos hd] at hE
  exact hE.symm

theorem canMerge_iff_of_range {i j k l : Nat} {d e : MetaDiff} (hd : H.Range i j d)
    (he : H.Range k l e) : canMerge d e ↔ i ≤ k ∧ k ≤ j ∧ j < l := by
  have hi := hd.lt
  have hj := hd.le
  have hk := he.lt
  have hl := he.le
  rw [canMerge, hd.snapB_gidB, hd.snapE_gidB, he.snapB_gidB, he.snapE_gidB,
    H.gidB_le_iff (by omega) (by omega), H.gidB_le_iff (by omega) (by omega),
    H.gidB_lt_iff (by omega) (by omega)]
  simp [he.isMergeable, hd.not_isCompDiff, he.not_isCompDiff]

theorem canApply_iff_of_range {i k l : Nat} {e : MetaDiff} (hi : i ≤ n) (he : H.Range k l e) :
    canApply (H.ms i) e ↔ k ≤ i ∧ i < l := by
  have hk := he.lt
  have hl := he.le
  rw [canApply_iff, he.snapB_gidB, he.snapE_gidB, H.gidB_le_iff (by omega) hi,
    H.gidB_lt_iff hi (by omega)]

theorem applied_of_range {i k l : Nat} {e : MetaDiff} (he : H.Range k l e) (hki : k ≤ i)
    (hil : i < l) : applied (H.ms i) e = H.ms l := by
  have hl := he.le
  by_cases hc : e.isClean
  · refine MetaSnap.eq_of_gids (by rw [applied_gidB, he.snapE_gidB]) ?_
    rw [applied_gidE_of_isClean _ hc, he.snapE_gidB]
    by_cases hd : H.hasDirty k l
    · have hE := he.ms_isClean hd hc
      have hle := H.gidE_le_gidE hil.le hl
      omega
    · rw [H.gidE_of_not_hasDirty hil hl (fun h => hd (H.hasDirty_mono hki le_rfl h))]
  · have hd : H.hasDirty k l := by
      by_contra hn
      exact hc (he.isClean_of_not_hasDirty hn)
    rw [applied_of_not_isClean _ hc, he.snapE, endSnap, if_pos hd]

theorem applied_endSnap {i j k l : Nat} {e : MetaDiff} (he : H.Range k l e) (hik : i ≤ k)
    (hkj : k ≤ j) (hjl : j < l) : applied (H.endSnap i j) e = H.endSnap i l := by
  have hl := he.le
  by_cases hc : e.isClean
  · refine MetaSnap.eq_of_gids (by rw [applied_gidB, he.snapE_gidB, endSnap_gidB]) ?_
    rw [applied_gidE_of_isClean _ hc, he.snapE_gidB]
    by_cases hij' : H.hasDirty i j
    · have hil : H.hasDirty i l := H.hasDirty_mono le_rfl hjl.le hij'
      have h := congrArg MetaSnap.gidE (applied_of_range he hkj hjl)
      rw [applied_gidE_of_isClean _ hc, he.snapE_gidB] at h
      rw [endSnap, if_pos hij', endSnap, if_pos hil, h]
    · have hB := H.gidB_le_gidB hjl.le hl
      rw [endSnap, if_neg hij', MetaSnap.clean_gidE, max_eq_left hB]
      by_cases hil : H.hasDirty i l
      · have hkl : H.hasDirty k l := by
          obtain ⟨p, hp, hip, hdirty⟩ := hil
          refine ⟨p, hp, ?_, hdirty⟩
          by_contra hpk
          exact hij' ⟨p, by omega, hip, hdirty⟩
        rw [endSnap, if_pos hil, he.ms_isClean hkl hc]
      · rw [endSnap, if_neg hil, MetaSnap.clean_gidE]
  · have hd : H.hasDirty k l := by
      by_contra hn
      exact hc (he.isClean_of_not_hasDirty hn)
    rw [applied_of_not_isClean _ hc, he.snapE, endSnap, if_pos hd, endSnap,
      if_pos (H.hasDirty_mono hik le_rfl hd)]

theorem merge_range {i j k l : Nat} {d e : MetaDiff} (hd : H.Range i j d) (he : H.Range k l e)
    (hik : i ≤ k) (hkj : k ≤ j) (hjl : j < l) : H.Range i l (merge d e) where
  lt := hd.lt.trans hjl
  le := he.le
  isMergeable := hd.isMergeable
  not_isCompDiff := rfl
  timestamp := he.timestamp
  snapB := hd.snapB
  snapE := by
    rw [merge_snapE, hd.snapE]
    exact applied_endSnap he hik hkj hjl
  dataSize := by
    have hlt := hd.lt
    rw [if_neg (by omega)]
    rfl

theorem MergeOf.range (hm : H.Mergeable) {i j : Nat} {d : MetaDiff} (h : H.MergeOf i j d) :
    H.Range i j d := by
  induction h with
  | single hi => exact Range.single hm hi
  | join hd he ihd ihe => exact merge_range ihd ihe ihd.lt.le le_rfl ihe.lt

inductive Chain (H : History n) : Nat → Nat → List MetaDiff → Prop
  | nil {i : Nat} : Chain H i i []
  | cons {i k j : Nat} {d : MetaDiff} {v : List MetaDiff} (hd : H.MergeOf i k d)
      (hv : Chain H k j v) : Chain H i j (d :: v)

theorem Chain.applyVec (hm : H.Mergeable) {i j : Nat} {v : List MetaDiff} (h : Chain H i j v) :
    applyVec (H.ms i) v = .ok (H.ms j) := by
  induction h with
  | nil => rfl
  | cons hd hv ih =>
      have hr := hd.range hm
      have ha := apply_eq_ok_iff.2 ⟨(canApply_iff_of_range (hr.lt.le.trans hr.le) hr).2
        ⟨le_rfl, hr.lt⟩, applied_of_range hr le_rfl hr.lt⟩
      simpa [Meta.applyVec, ha, bind, Except.bind] using ih

/-- Apply and merge agree on every generated history, for every bracketing of
the merged diffs. -/
theorem apply_merge_agree {n : Nat} (H : History n) (hmergeable : H.Mergeable) :
    (∀ i j k l d e, H.MergeOf i j d → H.MergeOf k l e →
      (canMerge d e ↔ i ≤ k ∧ k ≤ j ∧ j < l) ∧
      (canMerge d e → ∀ f, H.MergeOf i l f → merge d e = f)) ∧
    (∀ i k l e, i ≤ n → H.MergeOf k l e →
      (canApply (H.ms i) e ↔ k ≤ i ∧ i < l) ∧
      (canApply (H.ms i) e → apply (H.ms i) e = .ok (H.ms l) ∧
        ∀ v, Chain H i l v → applyVec (H.ms i) v = apply (H.ms i) e)) := by
  refine ⟨fun i j k l d e hd he => ?_, fun i k l e hi he => ?_⟩
  · have hdr := hd.range hmergeable
    have her := he.range hmergeable
    have hiff := canMerge_iff_of_range hdr her
    refine ⟨hiff, fun hm f hf => ?_⟩
    obtain ⟨hik, hkj, hjl⟩ := hiff.1 hm
    exact (merge_range hdr her hik hkj hjl).unique (hf.range hmergeable)
  · have her := he.range hmergeable
    have hiff := canApply_iff_of_range hi her
    refine ⟨hiff, fun ha => ?_⟩
    obtain ⟨hki, hil⟩ := hiff.1 ha
    have happ := apply_eq_ok_iff.2 ⟨ha, applied_of_range her hki hil⟩
    exact ⟨happ, fun v hv => (hv.applyVec hmergeable).trans happ.symm⟩

/-- What a diff means in the history, whatever it was made of: it leads each
of the snapshots `ms_k .. ms_{l-1}` to `ms_l`. -/
structure Leads (H : History n) (k l : Nat) (d : MetaDiff) : Prop where
  lt : k < l
  le : l ≤ n
  snapB : d.snapB = MetaSnap.clean (H.ms k).gidB ∨ d.snapB = H.ms k
  applied_eq : ∀ p, k ≤ p → p < l → applied (H.ms p) d = H.ms l

theorem Leads.snapB_gidB {k l : Nat} {d : MetaDiff} (h : H.Leads k l d) :
    d.snapB.gidB = (H.ms k).gidB := by
  rcases h.snapB with hB | hB
  · rw [hB, MetaSnap.clean_gidB]
  · rw [hB]

theorem Leads.snapE_gidB {k l : Nat} {d : MetaDiff} (h : H.Leads k l d) :
    d.snapE.gidB = (H.ms l).gidB := by
  rw [← h.applied_eq k le_rfl h.lt, applied_gidB]

theorem Leads.canApply_iff {p k l : Nat} {d : MetaDiff} (h : H.Leads k l d) (hp : p ≤ n) :
    canApply (H.ms p) d ↔ k ≤ p ∧ p < l := by
  have hlt := h.lt
  have hle := h.le
  rw [Meta.canApply_iff, h.snapB_gidB, h.snapE_gidB, H.gidB_le_iff (by omega) hp,
    H.gidB_lt_iff hp (by omega)]

theorem leads_md {i : Nat} (hi : i < n) : H.Leads i (i + 1) (H.md i) where
  lt := by omega
  le := by omega
  snapB := (H.generates i hi).snapB_cases
  applied_eq p hip hp := by
    obtain rfl : p = i := by omega
    exact (H.generates p hi).applied_eq

/-- A diff from a snapshot to a later clean one, as a comparison of two images
makes it. -/
theorem leads_compared {k l : Nat} (hkl : k < l) (hl : l ≤ n) {d : MetaDiff}
    (hB : d.snapB = H.ms k) (hE : d.snapE = H.ms l) (hc : (H.ms l).isClean) : H.Leads k l d where
  lt := hkl
  le := hl
  snapB := .inr hB
  applied_eq p hkp hp := by
    by_cases hd : d.isClean
    · have hp' := H.gidE_le_gidE hp.le hl
      have hc' : (H.ms l).gidB = (H.ms l).gidE := hc
      refine MetaSnap.eq_of_gids (by rw [applied_gidB, hE]) ?_
      rw [applied_gidE_of_isClean _ hd, hE]
      omega
    · rw [applied_of_not_isClean _ hd, hE]

/-- The end of a diff that does not look clean is the snapshot it leads to. -/
theorem Leads.snapE_of_not_isClean {k l : Nat} {d : MetaDiff} (h : H.Leads k l d)
    (hc : ¬d.isClean) : d.snapE = H.ms l := by
  rw [← h.applied_eq k le_rfl h.lt, applied_of_not_isClean _ hc]

theorem Leads.gidE_of_isClean {p k l : Nat} {d : MetaDiff} (h : H.Leads k l d) (hc : d.isClean)
    (hkp : k ≤ p) (hp : p < l) : (H.ms l).gidE = max (H.ms l).gidB (H.ms p).gidE := by
  rw [← h.snapE_gidB, ← applied_gidE_of_isClean (H.ms p) hc, h.applied_eq p hkp hp]

/-- Merging keeps the meaning. Whether the merged diff looks clean decides only
which of the equal snapshots its application writes down. -/
theorem Leads.merge {k l k' l' : Nat} {d e : MetaDiff} (hd : H.Leads k l d) (he : H.Leads k' l' e)
    (hkl : k' ≤ l) (hll : l < l') : H.Leads k l' (merge d e) where
  lt := hd.lt.trans hll
  le := he.le
  snapB := hd.snapB
  applied_eq p hkp hp := by
    have hB : (applied (H.ms p) (Meta.merge d e)).gidB = (H.ms l').gidB := by
      rw [applied_gidB, merge_snapE_gidB, he.snapE_gidB]
    have hmono := H.gidE_le_gidE hp.le he.le
    have hmono' := H.gidE_le_gidE hll.le he.le
    have hverify := (H.ms l').verify
    have hlB := H.gidB_le_gidB hll.le he.le
    by_cases hm : (Meta.merge d e).isClean
    · have hEB : (Meta.merge d e).snapE.gidE = (Meta.merge d e).snapE.gidB := hm.2.symm
      refine MetaSnap.eq_of_gids hB ?_
      rw [applied_gidE_of_isClean _ hm, merge_snapE_gidB, he.snapE_gidB]
      by_cases hc : e.isClean
      · rw [merge_snapE, applied_gidE_of_isClean _ hc, applied_gidB, he.snapE_gidB] at hEB
        have hl := he.gidE_of_isClean hc hkl hll
        by_cases hlp : l ≤ p
        · have hp' := he.gidE_of_isClean hc (hkl.trans hlp) hp
          omega
        · by_cases hdc : d.isClean
          · have hl' := hd.gidE_of_isClean hdc hkp (by omega)
            omega
          · rw [hd.snapE_of_not_isClean hdc] at hEB
            omega
      · rw [merge_snapE, applied_of_not_isClean _ hc, he.snapE_of_not_isClean hc] at hEB
        omega
    · rw [applied_of_not_isClean _ hm, merge_snapE]
      by_cases hc : e.isClean
      · have hl := he.gidE_of_isClean hc hkl hll
        refine MetaSnap.eq_of_gids (by rw [applied_gidB, he.snapE_gidB]) ?_
        rw [applied_gidE_of_isClean _ hc, he.snapE_gidB]
        by_cases hdc : d.isClean
        · -- both parts look clean, then so does the merge
          refine absurd ⟨hdc.1, ?_⟩ hm
          have hE : d.snapE.gidB = d.snapE.gidE := hdc.2
          have hlt := hd.snapE_gidB
          change (applied d.snapE e).gidB = (applied d.snapE e).gidE
          rw [applied_gidE_of_isClean _ hc, applied_gidB, he.snapE_gidB]
          omega
        · rw [hd.snapE_of_not_isClean hdc]
          exact hl.symm
      · rw [applied_of_not_isClean _ hc, he.snapE_of_not_isClean hc]

theorem Leads.of_canMerge {k l k' l' : Nat} {d e : MetaDiff} (hd : H.Leads k l d)
    (he : H.Leads k' l' e) (hm : canMerge d e) : H.Leads k l' (Meta.merge d e) := by
  obtain ⟨-, -, -, hkl, hll⟩ := hm
  have h₁ := hd.lt
  have h₂ := hd.le
  have h₃ := he.lt
  have h₄ := he.le
  rw [he.snapB_gidB, hd.snapE_gidB, H.gidB_le_iff (by omega) (by omega)] at hkl
  rw [hd.snapE_gidB, he.snapE_gidB, H.gidB_lt_iff (by omega) (by omega)] at hll
  exact hd.merge he hkl hll

theorem Leads.valid {k l : Nat} {d : MetaDiff} (h : H.Leads k l d) (hfits : (H.ms n).gidE < u64) :
    d.Valid where
  progressB := by
    rw [h.snapB_gidB, h.snapE_gidB]
    exact H.gidB_lt_gidB h.lt h.le
  progressE := by
    have hlt := H.gidB_lt_gidB h.lt h.le
    have hE := d.snapE.verify
    rw [h.snapE_gidB] at hE
    rcases h.snapB with hB | hB
    · rw [hB, MetaSnap.clean_gidE]
      omega
    · by_cases hc : d.isClean
      · have hBE : d.snapB.gidB = d.snapB.gidE := hc.1
        rw [h.snapB_gidB] at hBE
        omega
      · rw [hB, h.snapE_of_not_isClean hc]
        exact H.gidE_le_gidE h.lt.le h.le
  fits := by
    have hle := gidE_le_applied_gidE (H.ms k) d
    rw [h.applied_eq k le_rfl h.lt] at hle
    exact hle.trans_lt ((H.gidE_le_gidE h.le le_rfl).trans_lt hfits)

/-- A list applicable to a snapshot of the history leads along the history. -/
theorem appliedVec_of_leads {a p : Nat} (ha : a ≤ n) {v : List MetaDiff}
    (hv : ∀ d, d ∈ v → ∃ k l, H.Leads k l d ∧ l ≤ a) (hp : p ≤ a)
    (hc : canApplyVec (H.ms p) v) :
    ∃ q, p ≤ q ∧ q ≤ a ∧ (v ≠ [] → p < q) ∧ appliedVec (H.ms p) v = H.ms q := by
  induction v generalizing p with
  | nil => exact ⟨p, le_rfl, hp, fun h => absurd rfl h, rfl⟩
  | cons d v ih =>
      obtain ⟨k, l, hd, hl⟩ := hv d List.mem_cons_self
      obtain ⟨hkp, hpl⟩ := (hd.canApply_iff (hp.trans ha)).1 hc.1
      have happ := hd.applied_eq p hkp hpl
      have hrest := hc.2
      rw [happ] at hrest
      obtain ⟨q, hlq, hq, -, hqe⟩ := ih (fun e he => hv e (List.mem_cons_of_mem _ he)) hl hrest
      exact ⟨q, by omega, hq, fun _ => by omega, by rw [appliedVec_cons, happ, hqe]⟩

/-- The diffs that the daemons make of a history: generated ones, comparisons of
two of its images, merges, and copies with another label. -/
inductive Made (H : History n) : MetaDiff → Prop
  | generated {i : Nat} (hi : i < n) : Made H (H.md i)
  | compared {k l : Nat} {d : MetaDiff} (hkl : k < l) (hl : l ≤ n) (hB : d.snapB = H.ms k)
      (hE : d.snapE = H.ms l) (hc : (H.ms l).isClean) : Made H d
  | merged {d e : MetaDiff} (hd : Made H d) (he : Made H e) (hm : canMerge d e) :
      Made H (Meta.merge d e)
  | labelled {d e : MetaDiff} (hd : Made H d) (he : d.opEq e) : Made H e

theorem Leads.of_opEq {k l : Nat} {d e : MetaDiff} (h : H.Leads k l d) (he : d.opEq e) :
    H.Leads k l e where
  lt := h.lt
  le := h.le
  snapB := he.1 ▸ h.snapB
  applied_eq p hkp hp := by
    rw [← h.applied_eq p hkp hp]
    exact (applied_congr (H.ms p) he).symm

theorem Made.leads {d : MetaDiff} (h : H.Made d) : ∃ k l, H.Leads k l d := by
  induction h with
  | generated hi => exact ⟨_, _, leads_md hi⟩
  | compared hkl hl hB hE hc => exact ⟨_, _, leads_compared hkl hl hB hE hc⟩
  | merged _ _ hm ihd ihe =>
      obtain ⟨k, l, hd⟩ := ihd
      obtain ⟨k', l', he⟩ := ihe
      exact ⟨_, _, hd.of_canMerge he hm⟩
  | labelled _ he ih =>
      obtain ⟨k, l, hd⟩ := ih
      exact ⟨_, _, hd.of_opEq he⟩

end History

/-- From the dirty image `|0,2|`: a log diff, a backup to `|3,6|`, a log diff. -/
def mixedHistory : History 3 where
  ms i := match i with
    | 0 => ⟨0, 2, by decide⟩
    | 1 => ⟨1, 2, by decide⟩
    | 2 => ⟨3, 6, by decide⟩
    | _ => MetaSnap.clean 7
  md i := match i with
    | 0 => .ofSnaps (.clean 0) (.clean 1) true 10
    | 1 => .ofSnaps ⟨1, 2, by decide⟩ ⟨3, 6, by decide⟩ true 11
    | _ => .ofSnaps (.clean 3) (.clean 7) true 12
  generates i hi := by
    match i, hi with
    | 0, _ => exact .clean 1 (by decide) rfl rfl
    | 1, _ => exact .dirty rfl (by decide) (by decide)
    | 2, _ => exact .clean 7 (by decide) rfl rfl

theorem mixedHistory_mergeable : mixedHistory.Mergeable where
  isMergeable i hi := by
    match i, hi with
    | 0, _ => rfl
    | 1, _ => rfl
    | 2, _ => rfl
  not_isCompDiff i hi := by
    match i, hi with
    | 0, _ => rfl
    | 1, _ => rfl
    | 2, _ => rfl

theorem apply_merge_agree_mixed :
    canMerge (mixedHistory.md 0) (merge (mixedHistory.md 1) (mixedHistory.md 2)) ∧
      merge (mixedHistory.md 0) (merge (mixedHistory.md 1) (mixedHistory.md 2)) =
        merge (merge (mixedHistory.md 0) (mixedHistory.md 1)) (mixedHistory.md 2) ∧
      apply (mixedHistory.ms 1) (merge (merge (mixedHistory.md 0) (mixedHistory.md 1))
        (mixedHistory.md 2)) = .ok (MetaSnap.clean 7) := by
  have h := History.apply_merge_agree mixedHistory mixedHistory_mergeable
  have h₀ : mixedHistory.MergeOf 0 1 (mixedHistory.md 0) := .single (by decide)
  have h₁ : mixedHistory.MergeOf 1 2 (mixedHistory.md 1) := .single (by decide)
  have h₂ : mixedHistory.MergeOf 2 3 (mixedHistory.md 2) := .single (by decide)
  have hm := h.1 0 1 1 3 _ _ h₀ (.join h₁ h₂)
  have hc := hm.1.2 (by decide)
  have ha := h.2 1 0 3 _ (by decide) (.join (.join h₀ h₁) h₂)
  exact ⟨hc, hm.2 hc _ (.join (.join h₀ h₁) h₂), (ha.2 (ha.1.2 (by decide))).1⟩

end WalbTools.MetaHistory
