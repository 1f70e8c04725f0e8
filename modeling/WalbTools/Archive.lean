import Mathlib
import WalbTools.DiffLists
import WalbTools.MetaHistory

namespace WalbTools.Archive

open Meta DiffManager DiffLists MetaHistory

/-- The volume of an archive: the saved base state, the diff manager, the cached
latest state, and the list of an apply between its two saves. -/
structure ArchiveVol where
  metaSt : MetaState
  diffMgr : MetaDiffManager
  latestMetaSt : MetaState
  running : Option (List MetaDiff)

def mebi : Nat := 2 ^ 20

def truncateFrom (size : Nat) : Nat → List MetaDiff → List MetaDiff
  | _, [] => []
  | total, d :: v =>
      if size < total + d.dataSize then [] else d :: truncateFrom size (total + d.dataSize) v

def truncateDiffVecBySize (v : List MetaDiff) (size : Nat) : List MetaDiff :=
  match v with
  | [] => []
  | d :: v => d :: truncateFrom size d.dataSize v

def getDiffListToMerge (m : MetaDiffManager) (gid size : Nat) : List MetaDiff :=
  truncateDiffVecBySize (getMergeableDiffList m gid (fun _ => true)) size

def getDiffListToMergeGid (m : MetaDiffManager) (gidB gidE : Nat) : List MetaDiff :=
  (getMergeableDiffList m gidB (fun _ => true)).takeWhile (fun d => decide (d.snapB.gidB < gidE))

/-- The end of each receiver: `diffMgr.add(diff)` and the update of the cache. -/
def addDiff (A : ArchiveVol) (diff : MetaDiff) : Except String ArchiveVol :=
  match A.diffMgr.addNolock diff with
  | .ok m => .ok { A with diffMgr := m, latestMetaSt := A.latestMetaSt.apply diff }
  | .error e => .error e

def p2aWdiffTransferServer (A : ArchiveVol) (diff : MetaDiff) (dataSize : Nat) :
    Except String ArchiveVol :=
  match getRelation A.latestMetaSt.snapB diff with
  | .applicableDiff => addDiff A { diff with dataSize := dataSize }
  | .tooOldDiff => .error "too-old-diff"
  | .tooNewDiff => .error "too-new-diff"
  | .notApplicableDiff => .error "bad meta diff relation"

/-- `backupServer` for a hash backup; `snapTo` is what `backupClient` sends. -/
def backupServer (A : ArchiveVol) (snapTo : MetaSnap) (curTime dataSize : Nat) :
    Except String ArchiveVol :=
  let snapFrom := A.latestMetaSt.snapB
  let diff : MetaDiff := .ofSnaps snapFrom snapTo (decide (¬snapFrom.isClean)) curTime
  match diff.verify with
  | .error e => .error e
  | .ok () =>
      match A.diffMgr.addNolock { diff with dataSize := dataSize } with
      | .ok m => .ok { A with diffMgr := m, latestMetaSt := .ofSnap snapTo curTime }
      | .error e => .error e

def runHashReplServer (A : ArchiveVol) (diff : MetaDiff) (dataSize : Nat) :
    Except String ArchiveVol :=
  if A.latestMetaSt.canApply diff then addDiff A { diff with dataSize := dataSize }
  else .error "diff is not applicable"

def runDiffReplServer (A : ArchiveVol) (diff : MetaDiff) (dataSize : Nat) :
    Except String ArchiveVol :=
  if A.latestMetaSt.canApply diff then
    match addDiff A { diff with dataSize := dataSize } with
    | .ok A => .ok { A with diffMgr := (A.diffMgr.gcRange diff.snapB.gidB diff.snapE.gidB).1 }
    | .error e => .error e
  else .error "can not apply"

def mergeDiffs (A : ArchiveVol) (gidB : Nat) (isSize : Bool) (param3 dataSize : Nat) :
    Except String ArchiveVol :=
  let diffV := if isSize then getDiffListToMerge A.diffMgr gidB (param3 * mebi)
    else getDiffListToMergeGid A.diffMgr gidB param3
  if diffV.length < 2 then .error "There is no mergeable diff."
  else
    match mergeVec diffV with
    | .error e => .error e
    | .ok mergedDiff =>
        match A.diffMgr.addNolock { mergedDiff with dataSize := dataSize } with
        | .error e => .error e
        | .ok m => .ok { A with diffMgr := (m.eraseVec diffV false).1 }

/-- `applyDiffsToVolumeOnce` up to the save of the applying state. -/
def beginApply (A : ArchiveVol) (gid maxOpenDiffs : Nat) : ArchiveVol :=
  let diffV := getDiffListToApply A.diffMgr A.metaSt gid maxOpenDiffs
  if diffV = [] then A
  else { A with metaSt := A.metaSt.beginApplyingVec diffV, running := some diffV }

/-- The save of the final state; the diffs it covers are removed afterwards. -/
def endApply (A : ArchiveVol) : ArchiveVol :=
  match A.running with
  | none => A
  | some diffV => { A with metaSt := A.metaSt.endApplyingVec diffV, running := none }

def removeBeforeGid (A : ArchiveVol) : ArchiveVol :=
  { A with diffMgr := (A.diffMgr.eraseBeforeGid A.metaSt.snapB.gidB).1 }

def gcDiffs (A : ArchiveVol) : ArchiveVol :=
  { A with diffMgr := (A.diffMgr.gc A.metaSt.snapB).1 }

inductive Op where
  | wdiffTransfer (diff : MetaDiff) (dataSize : Nat)
  | hashBackup (snapTo : MetaSnap) (curTime dataSize : Nat)
  | hashRepl (diff : MetaDiff) (dataSize : Nat)
  | diffRepl (diff : MetaDiff) (dataSize : Nat)
  | merge (gidB : Nat) (isSize : Bool) (param3 dataSize : Nat)
  | beginApply (gid maxOpenDiffs : Nat)
  | endApply
  | interruptApply
  | removeBeforeGid
  | gcDiffs

def orKeep (A : ArchiveVol) : Except String ArchiveVol → ArchiveVol
  | .ok A' => A'
  | .error _ => A

/-- The volume after an operation, also when it is refused. A second apply does
not start beside a running one. -/
def Op.run (A : ArchiveVol) : Op → ArchiveVol
  | .wdiffTransfer diff dataSize => orKeep A (p2aWdiffTransferServer A diff dataSize)
  | .hashBackup snapTo curTime dataSize => orKeep A (backupServer A snapTo curTime dataSize)
  | .hashRepl diff dataSize => orKeep A (runHashReplServer A diff dataSize)
  | .diffRepl diff dataSize => orKeep A (runDiffReplServer A diff dataSize)
  | .merge gidB isSize param3 dataSize => orKeep A (mergeDiffs A gidB isSize param3 dataSize)
  | .beginApply gid maxOpenDiffs => if A.running.isSome then A else Archive.beginApply A gid maxOpenDiffs
  | .endApply => Archive.endApply A
  | .interruptApply => { A with running := none }
  | .removeBeforeGid => Archive.removeBeforeGid A
  | .gcDiffs => Archive.gcDiffs A

/-- An operation follows the generation rules: received diffs are made of the
history, a backup goes on from the latest snapshot with the next gid, and a hash
replication leads from it to a clean snapshot of the history. -/
def Op.Follows {n : Nat} (H : History n) (A : ArchiveVol) : Op → Prop
  | .wdiffTransfer diff _ => H.Made diff
  | .hashBackup snapTo _ _ => snapTo.gidB = A.latestMetaSt.snapB.gidE + 1 ∧ snapTo.isDirty ∧
      ∃ i, i < n ∧ H.ms i = A.latestMetaSt.snapB ∧ H.ms (i + 1) = snapTo
  | .hashRepl diff _ => diff.snapB = A.latestMetaSt.snapB ∧ diff.snapE.isClean ∧
      ∃ j, j ≤ n ∧ diff.snapE = H.ms j
  | .diffRepl diff _ => H.Made diff
  | _ => True

/-- Runs of operations that follow the rules. -/
inductive Run {n : Nat} (H : History n) : ArchiveVol → ArchiveVol → Prop
  | refl {A : ArchiveVol} : Run H A A
  | step {A A' : ArchiveVol} {op : Op} (h : Run H A A') (hop : op.Follows H A') : Run H A (op.run A')

variable {n : Nat} {H : History n} {A : ArchiveVol}

/-- The volume stands between two snapshots of the history: the base is `ms_b`,
the cache is `ms_a`, every stored diff stays below `ms_a`, and together they
cover the gids in between. -/
structure Synced (H : History n) (a b : Nat) (A : ArchiveVol) : Prop where
  inv : Inv A.diffMgr
  base_le : b ≤ a
  latest_le : a ≤ n
  latest : A.latestMetaSt.isApplying = false ∧ A.latestMetaSt.snapB = H.ms a
  base : A.metaSt.snapB = H.ms b
  applying : A.metaSt.isApplying = true → b < a
  stored : ∀ d, d ∈ A.diffMgr.diffs → ∃ k l, H.Leads k l d ∧ l ≤ a
  covered : ∀ x, (H.ms b).gidB ≤ x → x < (H.ms a).gidB → Covered A.diffMgr x
  running : ∀ v, A.running = some v → v ≠ [] ∧ canApplyVec (H.ms b) v ∧
    ∀ d, d ∈ v → ∃ k l, H.Leads k l d ∧ l ≤ a

theorem covered_iff {m : MetaDiffManager} {x : Nat} :
    Covered m x ↔ ∃ d, d ∈ m.diffs ∧ d.snapB.gidB ≤ x ∧ x < d.snapE.gidB := Iff.rfl

theorem Synced.latestState {a b : Nat} (h : Synced H a b A) :
    (getLatestState A.diffMgr A.metaSt).opEq A.latestMetaSt := by
  have hg := greedy_getApplicableDiffList h.inv MetaDiffManager.always A.metaSt.snapB
  have hstored : ∀ d, d ∈ A.diffMgr.getApplicableDiffList A.metaSt.snapB MetaDiffManager.always →
      ∃ k l, H.Leads k l d ∧ l ≤ a := fun d hd => h.stored d (hg.mem d hd)
  obtain ⟨ps, hp, hlast, hend⟩ := getLatestSnapshot_spec h.inv A.metaSt
  have hnot : ¬Covered A.diffMgr (H.ms a).gidB := by
    rintro ⟨d, hd, hl, hlt⟩
    obtain ⟨k, l, hdl, hla⟩ := h.stored d hd
    have hle := H.gidB_le_gidB hla h.latest_le
    rw [endGid, hdl.snapE_gidB] at hlt
    omega
  have hcov : ∀ x, A.metaSt.snapB.gidB ≤ x → x < (H.ms a).gidB → Covered A.diffMgr x :=
    fun x hx => h.covered x (h.base ▸ hx)
  have hbase : A.metaSt.snapB.gidB ≤ (H.ms a).gidB := by
    rw [h.base]
    exact H.gidB_le_gidB h.base_le h.latest_le
  have hgid := hp.last_eq (hlast ▸ hend) hbase hcov hnot
  rw [hlast] at hgid
  have hcan := hg.canApply
  rw [h.base] at hcan hstored
  obtain ⟨q, hbq, hqa, hne, hq⟩ := History.appliedVec_of_leads h.latest_le hstored h.base_le hcan
  have hqa' : q = a := by
    rw [getLatestSnapshot, h.base, hq] at hgid
    have hlt := H.gidB_lt_iff (hqa.trans h.latest_le) h.latest_le
    omega
  have hsnap : (getLatestState A.diffMgr A.metaSt).snapB = H.ms a := by
    rw [getLatestState, MetaState.applyVec, MetaState.endApplyingVec_snapB, h.base, hq, hqa']
  have happ : (getLatestState A.diffMgr A.metaSt).isApplying = false := by
    by_cases hnil : A.diffMgr.getApplicableDiffList A.metaSt.snapB MetaDiffManager.always = []
    · rw [getLatestState, hnil]
      rw [h.base] at hnil
      rw [hnil] at hq
      have hB : (H.ms b).gidB = (H.ms q).gidB := congrArg MetaSnap.gidB hq
      have hlt := H.gidB_lt_iff (h.base_le.trans h.latest_le) h.latest_le
      have hba : ¬A.metaSt.isApplying = true := fun ht => by
        have hba := h.applying ht
        rw [hqa'] at hB
        omega
      simpa [MetaState.applyVec, MetaState.endApplyingVec] using hba
    · exact MetaState.endApplyingVec_isApplying _ hnil
  exact ⟨happ.trans h.latest.1.symm, hsnap.trans h.latest.2.symm, fun ht => by simp [happ] at ht⟩

/-- Removing diffs keeps the volume in step as long as the gids stay covered. -/
theorem Synced.of_mgr {a b : Nat} (h : Synced H a b A) {m : MetaDiffManager} (hm : Inv m)
    (hsub : ∀ d, d ∈ m.diffs → ∃ k l, H.Leads k l d ∧ l ≤ a)
    (hcov : ∀ x, (H.ms b).gidB ≤ x → x < (H.ms a).gidB → Covered A.diffMgr x → Covered m x) :
    Synced H a b { A with diffMgr := m } where
  inv := hm
  base_le := h.base_le
  latest_le := h.latest_le
  latest := h.latest
  base := h.base
  applying := h.applying
  stored := hsub
  covered x hb ha := hcov x hb ha (h.covered x hb ha)
  running := h.running

/-- A diff of the history that is applicable to the latest snapshot moves the
cache to the snapshot the diff leads to. -/
theorem Synced.addDiff {a b k l : Nat} (h : Synced H a b A) (hfits : (H.ms n).gidE < u64)
    {d : MetaDiff} (hd : H.Leads k l d) (ha : canApply (H.ms a) d) {A' : ArchiveVol}
    {latest : MetaState} (hlatest : latest.isApplying = false ∧ latest.snapB = H.ms l)
    {m : MetaDiffManager} (hadd : A.diffMgr.addNolock d = .ok m)
    (hA' : A' = { A with diffMgr := m, latestMetaSt := latest }) :
    Synced H l b A' ∧ d ∈ A'.diffMgr.diffs := by
  obtain ⟨hinv, rfl, -⟩ := h.inv.addNolock (hd.valid hfits) hadd
  obtain ⟨hka, hal⟩ := (hd.canApply_iff h.latest_le).1 ha
  subst hA'
  refine ⟨⟨hinv, h.base_le.trans hal.le, hd.le, hlatest, h.base, fun ht => (h.applying ht).trans hal,
    fun e he => ?_, fun x hb hx => ?_, fun v hv => ?_⟩, mem_diffs_emplace.2 (.inl rfl)⟩
  · rcases mem_diffs_emplace.1 he with rfl | he
    · exact ⟨k, l, hd, le_rfl⟩
    · obtain ⟨k', l', he, hle⟩ := h.stored e he
      exact ⟨k', l', he, hle.trans hal.le⟩
  · by_cases hxa : x < (H.ms a).gidB
    · obtain ⟨e, he, hc⟩ := covered_iff.1 (h.covered x hb hxa)
      exact covered_iff.2 ⟨e, mem_diffs_emplace.2 (.inr he), hc⟩
    · have hk := H.gidB_le_gidB hka h.latest_le
      refine covered_iff.2 ⟨d, mem_diffs_emplace.2 (.inl rfl), ?_, ?_⟩
      · rw [hd.snapB_gidB]
        omega
      · rw [hd.snapE_gidB]
        exact hx
  · obtain ⟨hne, hcan, hall⟩ := h.running v hv
    refine ⟨hne, hcan, fun e he => ?_⟩
    obtain ⟨k', l', he, hle⟩ := hall e he
    exact ⟨k', l', he, hle.trans hal.le⟩

theorem apply_latest {a k l : Nat} (hA : A.latestMetaSt.snapB = H.ms a) {d : MetaDiff}
    (hd : H.Leads k l d) (ha : canApply (H.ms a) d) (hn : a ≤ n) :
    (A.latestMetaSt.apply d).isApplying = false ∧ (A.latestMetaSt.apply d).snapB = H.ms l := by
  obtain ⟨hka, hal⟩ := (hd.canApply_iff hn).1 ha
  refine ⟨rfl, ?_⟩
  change applied A.latestMetaSt.snapB d = H.ms l
  rw [hA, hd.applied_eq a hka hal]

theorem leads_dataSize {k l : Nat} {d : MetaDiff} (hd : H.Leads k l d) (dataSize : Nat) :
    H.Leads k l { d with dataSize := dataSize } := hd.of_opEq ⟨rfl, rfl⟩

theorem Synced.receive {a b k l : Nat} (h : Synced H a b A) (hfits : (H.ms n).gidE < u64)
    {d : MetaDiff} (hd : H.Leads k l d) (ha : canApply (H.ms a) d) (dataSize : Nat)
    {A' : ArchiveVol} (hadd : Archive.addDiff A { d with dataSize := dataSize } = .ok A') :
    Synced H l b A' ∧ { d with dataSize := dataSize } ∈ A'.diffMgr.diffs := by
  have hd' := leads_dataSize hd dataSize
  unfold Archive.addDiff at hadd
  cases hm : A.diffMgr.addNolock { d with dataSize := dataSize } with
  | error e => simp [hm] at hadd
  | ok m =>
      rw [hm] at hadd
      exact h.addDiff hfits hd' ha (apply_latest h.latest.2 hd' ha h.latest_le) hm
        (Except.ok.inj hadd).symm

theorem Synced.p2aWdiffTransferServer {a b : Nat} (h : Synced H a b A)
    (hfits : (H.ms n).gidE < u64) {d : MetaDiff} (hd : H.Made d) (dataSize : Nat) :
    ∃ a' b', Synced H a' b' (orKeep A (Archive.p2aWdiffTransferServer A d dataSize)) := by
  cases hr : Archive.p2aWdiffTransferServer A d dataSize with
  | error e => exact ⟨a, b, h⟩
  | ok A' =>
      obtain ⟨k, l, hd⟩ := hd.leads
      unfold Archive.p2aWdiffTransferServer at hr
      cases hrel : getRelation A.latestMetaSt.snapB d with
      | tooOldDiff => simp [hrel] at hr
      | tooNewDiff => simp [hrel] at hr
      | notApplicableDiff => simp [hrel] at hr
      | applicableDiff =>
          rw [hrel] at hr
          rw [h.latest.2] at hrel
          exact ⟨l, b, (h.receive hfits hd hrel dataSize hr).1⟩

theorem Synced.runHashReplServer {a b : Nat} (h : Synced H a b A) (hfits : (H.ms n).gidE < u64)
    {d : MetaDiff} (hop : (Op.hashRepl d 0).Follows H A) (dataSize : Nat) :
    ∃ a' b', Synced H a' b' (orKeep A (Archive.runHashReplServer A d dataSize)) := by
  cases hr : Archive.runHashReplServer A d dataSize with
  | error e => exact ⟨a, b, h⟩
  | ok A' =>
      unfold Archive.runHashReplServer at hr
      split_ifs at hr with hc
      obtain ⟨hB, hclean, j, hj, hE⟩ := hop
      rw [h.latest.2] at hB
      have ha : canApply (H.ms a) d := h.latest.2 ▸ hc.1
      have haj : a < j := by
        have hlt := (canApply_iff.1 ha).2
        rw [hE] at hlt
        exact (H.gidB_lt_iff h.latest_le hj).1 hlt
      exact ⟨j, b, (h.receive hfits (History.leads_compared haj hj hB hE (hE ▸ hclean)) ha dataSize
        hr).1⟩

/-- What `gcRange` removes after a diff replication lies inside the received
diff, which stays. -/
theorem Synced.runDiffReplServer_ok {a b k l : Nat} (h : Synced H a b A)
    (hfits : (H.ms n).gidE < u64) {d : MetaDiff} (hd : H.Leads k l d) {dataSize : Nat}
    {A' : ArchiveVol} (hr : Archive.runDiffReplServer A d dataSize = .ok A') : Synced H l b A' := by
  unfold Archive.runDiffReplServer at hr
  split_ifs at hr with hc
  have ha : canApply (H.ms a) d := h.latest.2 ▸ hc.1
  cases hadd : Archive.addDiff A { d with dataSize := dataSize } with
  | error e => simp [hadd] at hr
  | ok A₁ =>
      rw [hadd] at hr
      obtain rfl := Except.ok.inj hr
      obtain ⟨h₁, hmem⟩ := h.receive hfits hd ha dataSize hadd
      refine h₁.of_mgr (h₁.inv.eraseLoop _ _ (List.dropWhile_sublist _)) ?_ ?_
      · intro e he
        exact h₁.stored e (h₁.inv.mem_diffs_gcRange.1 he).1
      · intro x _ _ hx
        obtain ⟨e, he, hel, heh⟩ := covered_iff.1 hx
        by_cases hin : d.snapB.gidB ≤ e.snapB.gidB ∧ e.snapE.gidB ≤ d.snapE.gidB
        · refine covered_iff.2 ⟨_, h₁.inv.mem_diffs_gcRange.2 ⟨hmem, by simp⟩, ?_, ?_⟩
          · exact hin.1.trans hel
          · exact heh.trans_le hin.2
        · exact covered_iff.2 ⟨e, h₁.inv.mem_diffs_gcRange.2
            ⟨he, fun hc => hin ⟨hc.1, hc.2.1⟩⟩, hel, heh⟩

/-- A diff that goes beyond the latest snapshot is new to the manager. -/
theorem Synced.addNolock_ok {a b : Nat} (h : Synced H a b A) {d : MetaDiff}
    (hd : (H.ms a).gidB < d.snapE.gidB) : A.diffMgr.addNolock d = .ok (A.diffMgr.emplace d) := by
  have hnew : A.diffMgr.searchNolock d = none := by
    apply h.inv.searchNolock_eq_none_iff.2
    intro e he hde
    obtain ⟨k, l, hel, hla⟩ := h.stored e he
    have hle := H.gidB_le_gidB hla h.latest_le
    rw [hde.2, hel.snapE_gidB] at hd
    omega
  rw [MetaDiffManager.addNolock, hnew]

theorem Synced.runDiffReplServer {a b : Nat} (h : Synced H a b A) (hfits : (H.ms n).gidE < u64)
    {d : MetaDiff} (hd : H.Made d) (dataSize : Nat) :
    ∃ a' b', Synced H a' b' (orKeep A (Archive.runDiffReplServer A d dataSize)) := by
  cases hr : Archive.runDiffReplServer A d dataSize with
  | error e => exact ⟨a, b, h⟩
  | ok A' =>
      obtain ⟨k, l, hd⟩ := hd.leads
      exact ⟨l, b, h.runDiffReplServer_ok hfits hd hr⟩

theorem Synced.backupServer {a b : Nat} (h : Synced H a b A) (hfits : (H.ms n).gidE < u64)
    {snapTo : MetaSnap} {curTime : Nat} (hop : (Op.hashBackup snapTo curTime 0).Follows H A)
    (dataSize : Nat) :
    ∃ a' b', Synced H a' b' (orKeep A (Archive.backupServer A snapTo curTime dataSize)) := by
  cases hr : Archive.backupServer A snapTo curTime dataSize with
  | error e => exact ⟨a, b, h⟩
  | ok A' =>
      obtain ⟨-, hdirty, i, hi, hfrom, hto⟩ := hop
      rw [h.latest.2] at hfrom
      have hia : i = a := by
        have h₁ := H.gidB_lt_iff hi.le h.latest_le
        have h₂ := H.gidB_lt_iff h.latest_le hi.le
        rw [hfrom] at h₁ h₂
        omega
      subst hia
      set diff : MetaDiff := .ofSnaps A.latestMetaSt.snapB snapTo
        (decide (¬A.latestMetaSt.snapB.isClean)) curTime with hdiff
      have hE : diff.snapE = H.ms (i + 1) := hto.symm
      have hnot : ¬diff.isClean := fun hc => hdirty hc.2
      have hleads : H.Leads i (i + 1) diff := by
        refine ⟨by omega, by omega, .inr h.latest.2, fun p hip hp => ?_⟩
        rw [applied_of_not_isClean _ hnot, hE]
      have hleads' := leads_dataSize hleads dataSize
      have ha : canApply (H.ms i) { diff with dataSize := dataSize } :=
        (hleads'.canApply_iff h.latest_le).2 ⟨le_rfl, by omega⟩
      unfold Archive.backupServer at hr
      cases hv : diff.verify with
      | error e =>
          simp only [← hdiff, hv] at hr
          cases hr
      | ok u =>
          cases hm : A.diffMgr.addNolock { diff with dataSize := dataSize } with
          | error e =>
              simp only [← hdiff, hv, hm] at hr
              cases hr
          | ok m =>
              simp only [← hdiff, hv, hm] at hr
              exact ⟨i + 1, b, (h.addDiff hfits hleads' ha ⟨rfl, hto.symm⟩ hm
                (Except.ok.inj hr).symm).1⟩

theorem leads_mergeFrom {a : Nat} {v : List MetaDiff}
    (hv : ∀ d, d ∈ v → ∃ k l, H.Leads k l d ∧ l ≤ a) {d e : MetaDiff} {k l : Nat}
    (hd : H.Leads k l d) (hla : l ≤ a) (hm : mergeFrom d v = .ok e) :
    ∃ l', H.Leads k l' e ∧ l' ≤ a ∧ l ≤ l' ∧ e.snapB.gidB = d.snapB.gidB ∧
      ∀ f, f ∈ v → d.snapB.gidB ≤ f.snapB.gidB ∧ f.snapE.gidB ≤ e.snapE.gidB := by
  induction v generalizing d l with
  | nil =>
      obtain rfl : d = e := Except.ok.inj hm
      exact ⟨l, hd, hla, le_rfl, rfl, by simp⟩
  | cons f v ih =>
      rw [mergeFrom] at hm
      split_ifs at hm with hc
      obtain ⟨k', l', hf, hla'⟩ := hv f List.mem_cons_self
      have hmerge := hd.of_canMerge hf hc
      obtain ⟨l'', he, hla'', hll, hB, hall⟩ :=
        ih (fun g hg => hv g (List.mem_cons_of_mem _ hg)) hmerge hla' hm
      rw [merge_snapB] at hB hall
      have hlt : l < l' := by
        have hlt := hc.2.2.2.2
        rw [hd.snapE_gidB, hf.snapE_gidB] at hlt
        exact (H.gidB_lt_iff hd.le hf.le).1 hlt
      refine ⟨l'', he, hla'', by omega, hB, fun g hg => ?_⟩
      rcases List.mem_cons.1 hg with rfl | hg
      · refine ⟨hc.2.2.1, ?_⟩
        rw [hf.snapE_gidB, he.snapE_gidB]
        exact H.gidB_le_gidB hll he.le
      · exact hall g hg

theorem mem_of_truncateFrom {size total : Nat} {v : List MetaDiff} {d : MetaDiff}
    (hd : d ∈ truncateFrom size total v) : d ∈ v := by
  induction v generalizing total with
  | nil => exact absurd hd List.not_mem_nil
  | cons e v ih =>
      rw [truncateFrom] at hd
      split_ifs at hd
      · exact absurd hd List.not_mem_nil
      · rcases List.mem_cons.1 hd with rfl | hd
        · exact List.mem_cons_self
        · exact List.mem_cons_of_mem _ (ih hd)

theorem mem_of_getDiffListToMerge {m : MetaDiffManager} {gid size : Nat} {d : MetaDiff}
    (hd : d ∈ getDiffListToMerge m gid size) : d ∈ m.diffs := by
  suffices hm : d ∈ getMergeableDiffList m gid (fun _ => true) from mem_of_getMergeableDiffList hm
  unfold getDiffListToMerge truncateDiffVecBySize at hd
  cases hv : getMergeableDiffList m gid (fun _ => true) with
  | nil => simp [hv] at hd
  | cons e v =>
      simp only [hv] at hd
      rcases List.mem_cons.1 hd with rfl | hd
      · exact List.mem_cons_self
      · exact List.mem_cons_of_mem _ (mem_of_truncateFrom hd)

theorem Synced.mergeDiffs {a b : Nat} (h : Synced H a b A) (hfits : (H.ms n).gidE < u64)
    (gidB : Nat) (isSize : Bool) (param3 dataSize : Nat) :
    Synced H a b (orKeep A (Archive.mergeDiffs A gidB isSize param3 dataSize)) := by
  cases hr : Archive.mergeDiffs A gidB isSize param3 dataSize with
  | error e => exact h
  | ok A' =>
      unfold Archive.mergeDiffs at hr
      set diffV := if isSize then getDiffListToMerge A.diffMgr gidB (param3 * mebi)
        else getDiffListToMergeGid A.diffMgr gidB param3 with hdiffV
      have hmem : ∀ d, d ∈ diffV → d ∈ A.diffMgr.diffs := by
        intro d hd
        rw [hdiffV] at hd
        split_ifs at hd
        · exact mem_of_getDiffListToMerge hd
        · exact mem_of_getMergeableDiffList ((List.takeWhile_sublist _).subset hd)
      dsimp only at hr
      split_ifs at hr with hlen
      cases hm : mergeVec diffV with
      | error e => simp [hm] at hr
      | ok mergedDiff =>
          rw [hm] at hr
          cases hadd : A.diffMgr.addNolock { mergedDiff with dataSize := dataSize } with
          | error e => simp [hadd] at hr
          | ok m =>
              simp only [hadd] at hr
              obtain rfl := Except.ok.inj hr
              cases hv : diffV with
              | nil => simp [hv] at hlen
              | cons d v =>
                  rw [hv] at hm hmem
                  obtain ⟨k, l, hd, hla⟩ := h.stored d (hmem d List.mem_cons_self)
                  obtain ⟨l', he, hla', hll, hB, hall⟩ := leads_mergeFrom
                    (fun e he => h.stored e (hmem e (List.mem_cons_of_mem _ he))) hd hla hm
                  have he' := leads_dataSize he dataSize
                  obtain ⟨hinv, rfl, hnew⟩ := h.inv.addNolock (he'.valid hfits) hadd
                  refine h.of_mgr (hinv.eraseVec _ _) (fun f hf => ?_) (fun x _ _ hx => ?_)
                  · rcases mem_diffs_emplace.1 ((hinv.mem_diffs_eraseVec _).1 hf).1 with rfl | hf
                    · exact ⟨k, l', he', hla'⟩
                    · exact h.stored f hf
                  · obtain ⟨f, hf, hfl, hfh⟩ := covered_iff.1 hx
                    have hinside : ∀ g, g ∈ d :: v → mergedDiff.snapB.gidB ≤ g.snapB.gidB ∧
                        g.snapE.gidB ≤ mergedDiff.snapE.gidB := by
                      intro g hg
                      rcases List.mem_cons.1 hg with rfl | hg
                      · refine ⟨hB.le, ?_⟩
                        rw [hd.snapE_gidB, he.snapE_gidB]
                        exact H.gidB_le_gidB hll he.le
                      · rw [hB]
                        exact hall g hg
                    by_cases hgone : ∀ g, g ∈ d :: v → ¬g.opEq f
                    · exact covered_iff.2 ⟨f, (hinv.mem_diffs_eraseVec _).2
                        ⟨mem_diffs_emplace.2 (.inr hf), hgone⟩, hfl, hfh⟩
                    · obtain ⟨g, hg, hgf⟩ : ∃ g, g ∈ d :: v ∧ g.opEq f := by
                        by_contra hc
                        exact hgone fun g hg hgf => hc ⟨g, hg, hgf⟩
                      have hin := hinside g hg
                      rw [hgf.1, hgf.2] at hin
                      refine covered_iff.2 ⟨_, (hinv.mem_diffs_eraseVec _).2
                        ⟨mem_diffs_emplace.2 (.inl rfl), fun g' hg' hge => ?_⟩,
                        hin.1.trans hfl, hfh.trans_le hin.2⟩
                      exact hnew g' (hmem g' hg') hge.symm

theorem beginApplyingVec_snapB (st : MetaState) (v : List MetaDiff) :
    (st.beginApplyingVec v).snapB = st.snapB := by
  unfold MetaState.beginApplyingVec
  cases v.getLast? <;> rfl

theorem Synced.beginApply {a b : Nat} (h : Synced H a b A) (gid maxOpenDiffs : Nat) :
    Synced H a b (Archive.beginApply A gid maxOpenDiffs) := by
  unfold Archive.beginApply
  dsimp only
  split_ifs with hnil
  · exact h
  · have hlist : canApplyVec A.metaSt.snapB (getDiffListToApply A.diffMgr A.metaSt gid maxOpenDiffs) ∧
        ∀ d, d ∈ getDiffListToApply A.diffMgr A.metaSt gid maxOpenDiffs → d ∈ A.diffMgr.diffs :=
      getDiffListToApply_spec h.inv A.metaSt gid maxOpenDiffs
    rw [h.base] at hlist
    have hleads : ∀ d, d ∈ getDiffListToApply A.diffMgr A.metaSt gid maxOpenDiffs →
        ∃ k l, H.Leads k l d ∧ l ≤ a := fun d hd => h.stored d (hlist.2 d hd)
    obtain ⟨q, -, hqa, hbq, -⟩ := History.appliedVec_of_leads h.latest_le hleads h.base_le hlist.1
    have hlt := hbq hnil
    exact ⟨h.inv, h.base_le, h.latest_le, h.latest, (beginApplyingVec_snapB _ _).trans h.base,
      fun _ => hlt.trans_le hqa, h.stored, h.covered,
      fun v hv => Option.some.inj hv ▸ ⟨hnil, hlist.1, hleads⟩⟩

theorem Synced.endApply {a b : Nat} (h : Synced H a b A) :
    ∃ b', Synced H a b' (Archive.endApply A) := by
  unfold Archive.endApply
  cases hrun : A.running with
  | none => exact ⟨b, h⟩
  | some diffV =>
      obtain ⟨hne, hcan, hleads⟩ := h.running diffV hrun
      obtain ⟨q, hbq, hqa, -, hq⟩ := History.appliedVec_of_leads h.latest_le hleads h.base_le hcan
      have hB : (A.metaSt.endApplyingVec diffV).snapB = H.ms q := by
        rw [MetaState.endApplyingVec_snapB, h.base, hq]
      have happ := MetaState.endApplyingVec_isApplying A.metaSt hne
      have hle := H.gidB_le_gidB hbq (hqa.trans h.latest_le)
      exact ⟨q, h.inv, hqa, h.latest_le, h.latest, hB, fun ht => by simp [happ] at ht, h.stored,
        fun x hx => h.covered x (hle.trans hx), fun v hv => by simp at hv⟩

theorem Synced.removeBeforeGid {a b : Nat} (h : Synced H a b A) :
    Synced H a b (Archive.removeBeforeGid A) := by
  have hmem (d : MetaDiff) : d ∈ (A.diffMgr.eraseBeforeGid A.metaSt.snapB.gidB).1.diffs ↔
      d ∈ A.diffMgr.diffs ∧ A.metaSt.snapB.gidB < d.snapE.gidB := h.inv.mem_diffs_eraseBeforeGid.1 d
  refine h.of_mgr (h.inv.eraseLoop _ _ (List.Sublist.refl _)) (fun d hd => h.stored d ((hmem d).1 hd).1)
    (fun x hb _ hx => ?_)
  obtain ⟨d, hd, hl, hlt⟩ := covered_iff.1 hx
  rw [← h.base] at hb
  exact covered_iff.2 ⟨d, (hmem d).2 ⟨hd, hb.trans_lt hlt⟩, hl, hlt⟩

/-- The greedy list covers every gid up to the latest snapshot, so what the
garbage collection drops is not needed. -/
theorem Synced.gcDiffs {a b : Nat} (h : Synced H a b A) : Synced H a b (Archive.gcDiffs A) := by
  have hg := greedy_getApplicableDiffList h.inv MetaDiffManager.always A.metaSt.snapB
  obtain ⟨ps, hp, hlast, hend⟩ := getLatestSnapshot_spec h.inv A.metaSt
  have hmem := mem_diffs_gc h.inv A.metaSt.snapB
  refine h.of_mgr (h.inv.gc _) (fun d hd => h.stored d (hg.mem d ((hmem d).1 hd))) (fun x hb hx _ => ?_)
  rw [← h.base] at hb
  have hlatest : x < ((A.diffMgr.getApplicableDiffList A.metaSt.snapB MetaDiffManager.always).map
      endGid).getLastD A.metaSt.snapB.gidB := by
    by_contra hge
    have hcov := h.covered
    rw [← h.base] at hcov
    have hle := hg.path.le_last
    have hlt := (not_lt.1 hge).trans_lt hx
    rw [← appliedVec_gidB] at hlt hle
    exact hend (hcov _ hle hlt)
  obtain ⟨d, hd, hl, hlt⟩ := covered_of_canApplyVec hg.canApply hb hlatest
  exact covered_iff.2 ⟨d, (hmem d).2 hd, hl, hlt⟩

theorem Synced.run {a b : Nat} (h : Synced H a b A) (hfits : (H.ms n).gidE < u64) {op : Op}
    (hop : op.Follows H A) : ∃ a' b', Synced H a' b' (op.run A) := by
  cases op with
  | wdiffTransfer diff dataSize => exact h.p2aWdiffTransferServer hfits hop dataSize
  | hashBackup snapTo curTime dataSize => exact h.backupServer hfits hop dataSize
  | hashRepl diff dataSize => exact h.runHashReplServer hfits hop dataSize
  | diffRepl diff dataSize => exact h.runDiffReplServer hfits hop dataSize
  | merge gidB isSize param3 dataSize => exact ⟨a, b, h.mergeDiffs hfits gidB isSize param3 dataSize⟩
  | beginApply gid maxOpenDiffs =>
      rw [Op.run]
      split_ifs
      · exact ⟨a, b, h⟩
      · exact ⟨a, b, h.beginApply gid maxOpenDiffs⟩
  | endApply => exact ⟨a, h.endApply⟩
  | interruptApply =>
      exact ⟨a, b, h.inv, h.base_le, h.latest_le, h.latest, h.base, h.applying, h.stored, h.covered,
        fun v (hv : none = some v) => absurd hv (by simp)⟩
  | removeBeforeGid => exact ⟨a, b, h.removeBeforeGid⟩
  | gcDiffs => exact ⟨a, b, h.gcDiffs⟩

def synced (H : History n) (A : ArchiveVol) : Prop := ∃ a b, Synced H a b A

theorem Run.synced {A₀ : ArchiveVol} (hfits : (H.ms n).gidE < u64) (h₀ : synced H A₀)
    (hr : Run H A₀ A) : synced H A := by
  induction hr with
  | refl => exact h₀
  | step _ hop ih =>
      obtain ⟨a, b, h⟩ := ih
      exact h.run hfits hop

def initial (snap : MetaSnap) (ts : Nat) : ArchiveVol :=
  ⟨.ofSnap snap ts, .empty, .ofSnap snap ts, none⟩

theorem synced_initial {b : Nat} (hb : b ≤ n) (ts : Nat) : Synced H b b (initial (H.ms b) ts) where
  inv := inv_empty
  base_le := le_rfl
  latest_le := hb
  latest := ⟨rfl, rfl⟩
  base := rfl
  applying ht := absurd ht (by simp [initial, MetaState.ofSnap])
  stored d hd := absurd hd (by simp [initial, MetaDiffManager.diffs, MetaDiffManager.empty])
  covered x hx hlt := absurd hlt (not_lt.2 hx)
  running v hv := absurd hv (by simp [initial])

/-- The cached latest state never drifts from the recomputed one. -/
theorem latest_state_cached (H : History n) (hfits : (H.ms n).gidE < u64) {b : Nat} (hb : b ≤ n)
    (ts : Nat) (hr : Run H (initial (H.ms b) ts) A) :
    (getLatestState A.diffMgr A.metaSt).opEq A.latestMetaSt := by
  obtain ⟨a, b, h⟩ := hr.synced hfits ⟨b, b, synced_initial hb ts⟩
  exact h.latestState

/-- A log diff, a hash backup and another log diff arrive; the base is applied
up to the backup. -/
def mixedVolume : ArchiveVol :=
  let A₁ := (Op.wdiffTransfer (mixedHistory.md 0) 100).run (initial (mixedHistory.ms 0) 0)
  let A₂ := (Op.hashBackup (mixedHistory.ms 2) 11 200).run A₁
  let A₃ := (Op.wdiffTransfer (mixedHistory.md 2) 300).run A₂
  (Op.beginApply 3 0).run A₃

theorem latest_state_cached_mixed :
    mixedVolume.metaSt.isApplying = true ∧ mixedVolume.latestMetaSt.snapB = MetaSnap.clean 7 ∧
      (getLatestState mixedVolume.diffMgr mixedVolume.metaSt).opEq mixedVolume.latestMetaSt := by
  refine ⟨by decide +kernel, by decide +kernel, ?_⟩
  have h₁ : (Op.wdiffTransfer (mixedHistory.md 0) 100).Follows mixedHistory
      (initial (mixedHistory.ms 0) 0) := History.Made.generated (by decide)
  have h₂ : (Op.hashBackup (mixedHistory.ms 2) 11 200).Follows mixedHistory
      ((Op.wdiffTransfer (mixedHistory.md 0) 100).run (initial (mixedHistory.ms 0) 0)) :=
    ⟨by decide +kernel, by decide, 1, by decide, by decide +kernel, rfl⟩
  have h₃ (A : ArchiveVol) : (Op.wdiffTransfer (mixedHistory.md 2) 300).Follows mixedHistory A :=
    History.Made.generated (by decide)
  have h₄ (A : ArchiveVol) : (Op.beginApply 3 0).Follows mixedHistory A := trivial
  exact latest_state_cached mixedHistory (by decide) (Nat.zero_le 3) 0
    ((((Run.refl.step h₁).step h₂).step (h₃ _)).step (h₄ _))

end WalbTools.Archive
