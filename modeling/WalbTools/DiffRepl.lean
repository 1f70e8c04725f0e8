import Mathlib
import WalbTools.Archive

namespace WalbTools.DiffRepl

open Meta DiffManager DiffLists MetaHistory Archive

/-- The loop of `getApplicableAndMergeableDiffList`; its state is the merged diff. -/
def mergeableFrom : MetaDiff → List MetaDiff → List MetaDiff
  | _, [] => []
  | diff, d :: v => if canMerge diff d then d :: mergeableFrom (merge diff d) v else []

def getApplicableAndMergeableDiffList (m : MetaDiffManager) (snap : MetaSnap) : List MetaDiff :=
  match m.getApplicableDiffList snap MetaDiffManager.always with
  | [] => []
  | d :: v => d :: mergeableFrom d v

def getDiffListToSend (m : MetaDiffManager) (snap : MetaSnap) (size nr : Nat) : List MetaDiff :=
  (truncateDiffVecBySize (getApplicableAndMergeableDiffList m snap) size).take nr

/-- The loop of `getOldestCleanState`; no walk is longer than the diff set. -/
def oldestCleanFrom (m : MetaDiffManager) : Nat → MetaState → Except String MetaState
  | 0, st => .ok st
  | fuel + 1, st =>
      if st.snapB.isClean then .ok st
      else
        match m.getApplicableDiffNolock st.snapB with
        | none => .error "MetaDiffManager::getOldestCleanState:there is no clean snapshot."
        | some d => oldestCleanFrom m fuel (st.apply d)

def getOldestCleanState (m : MetaDiffManager) (st : MetaState) : Except String MetaState :=
  oldestCleanFrom m (m.mmap.length + 1) (st.applyVec (getMinimumApplicableDiffList m st))

inductive Repl where
  | dontRepl | doHashRepl | doDiffRepl
  deriving DecidableEq

/-- Whether the sizes add up to more than `minSizeB`, from `totalB` on. -/
def exceeds (minSizeB : Nat) : Nat → List MetaDiff → Bool
  | _, [] => false
  | totalB, d :: v =>
      if minSizeB < totalB + d.dataSize then true else exceeds minSizeB (totalB + d.dataSize) v

def shouldDoRepl (m : MetaDiffManager) (srvSnap cliSnap : MetaSnap) (isSize : Bool) (param : Nat) :
    Repl :=
  if srvSnap.gidB ≥ cliSnap.gidB then .dontRepl
  else
    match getDiffListToSync m (.ofSnap srvSnap 0) cliSnap with
    | [] => .doHashRepl
    | d :: v =>
        if isSize then
          if param * mebi = 0 then .doDiffRepl
          else if exceeds (param * mebi) 0 (d :: v) then .doDiffRepl else .dontRepl
        else if param ≤ d.snapB.gidB then .dontRepl else .doDiffRepl

structure HostInfoForRepl where
  dontMerge : Bool
  maxWdiffMergeSize : Nat

def hashReplDiff (C : ArchiveVol) (srvLatestSnap : MetaSnap) : Except String MetaDiff :=
  match getOldestCleanState C.diffMgr C.metaSt with
  | .error e => .error e
  | .ok oldestMetaSt =>
      if srvLatestSnap.gidB ≥ oldestMetaSt.snapB.gidB then .error "could not execute hash-repl"
      else
        let diff : MetaDiff := .ofSnaps srvLatestSnap oldestMetaSt.snapB true oldestMetaSt.timestamp
        match diff.verify with
        | .error e => .error e
        | .ok () => .ok { diff with isCompDiff := true }

/-- The diffs that the client of a diff replication opens; without merging it is
the next applicable one. -/
def diffsToSend (hostInfo : HostInfoForRepl) (maxWdiffSendNr : Nat) (C : ArchiveVol)
    (srvLatestSnap : MetaSnap) : List MetaDiff :=
  if hostInfo.dontMerge then (C.diffMgr.getApplicableDiffNolock srvLatestSnap).toList
  else getDiffListToSend C.diffMgr srvLatestSnap hostInfo.maxWdiffMergeSize maxWdiffSendNr

/-- `runDiffReplClient`, and `runNoMergeDiffReplClient` when the list is a single diff. -/
def runDiffReplClient (hostInfo : HostInfoForRepl) (maxWdiffSendNr : Nat) (C : ArchiveVol)
    (srvLatestSnap : MetaSnap) : Except String MetaDiff :=
  match diffsToSend hostInfo maxWdiffSendNr C srvLatestSnap with
  | [] => .error "diffV empty"
  | d :: v => mergeVec (d :: v)

section Loop

variable (hostInfo : HostInfoForRepl) (maxWdiffSendNr : Nat) (isSize : Bool) (param : Nat)
  (C : ArchiveVol)

/-- One turn of the loops of `runReplSyncClient` and `runReplSyncServer` together:
the server after the turn, or nothing when the client answers not to replicate. -/
def replTurn (S : ArchiveVol) (dataSize : Nat) : Except String (Option ArchiveVol) :=
  match shouldDoRepl C.diffMgr S.latestMetaSt.snapB C.latestMetaSt.snapB isSize param with
  | .dontRepl => .ok none
  | .doHashRepl =>
      match hashReplDiff C S.latestMetaSt.snapB with
      | .error e => .error e
      | .ok diff => (runHashReplServer S diff dataSize).map some
  | .doDiffRepl =>
      match runDiffReplClient hostInfo maxWdiffSendNr C S.latestMetaSt.snapB with
      | .error e => .error e
      | .ok diff => (runDiffReplServer S diff dataSize).map some

/-- The loop, given the sizes of the files that the server will write. The flag
tells whether the client has ended it. -/
def runReplSync : List Nat → ArchiveVol → Except String (Bool × ArchiveVol)
  | [], S => .ok (false, S)
  | dataSize :: sizes, S =>
      match replTurn hostInfo maxWdiffSendNr isSize param C S dataSize with
      | .error e => .error e
      | .ok none => .ok (true, S)
      | .ok (some S') => runReplSync sizes S'

inductive Turns (S : ArchiveVol) : ArchiveVol → Prop
  | refl : Turns S S
  | step {S' S'' : ArchiveVol} {dataSize : Nat} (h : Turns S S')
      (ht : replTurn hostInfo maxWdiffSendNr isSize param C S' dataSize = .ok (some S'')) : Turns S S''

end Loop

/-- The snapshot is one of those that the greedy walk from the base visits. -/
def OnChain (C : ArchiveVol) (snap : MetaSnap) : Prop :=
  ∃ v, v <+: C.diffMgr.getApplicableDiffList C.metaSt.snapB MetaDiffManager.always ∧
    appliedVec C.metaSt.snapB v = snap

theorem truncateFrom_isPrefix (size total : Nat) (v : List MetaDiff) :
    truncateFrom size total v <+: v := by
  induction v generalizing total with
  | nil => exact List.nil_prefix
  | cons d v ih =>
      rw [truncateFrom]
      split_ifs
      · exact List.nil_prefix
      · exact List.cons_prefix_cons.2 ⟨rfl, ih _⟩

theorem mergeableFrom_isPrefix (d : MetaDiff) (v : List MetaDiff) : mergeableFrom d v <+: v := by
  induction v generalizing d with
  | nil => exact List.nil_prefix
  | cons e v ih =>
      rw [mergeableFrom]
      split_ifs
      · exact List.cons_prefix_cons.2 ⟨rfl, ih _⟩
      · exact List.nil_prefix

/-- Every prefix of the list merges, by the checks that made the list. -/
theorem mergeFrom_ok {d : MetaDiff} {v p : List MetaDiff} (hp : p <+: mergeableFrom d v) :
    ∃ e, mergeFrom d p = .ok e := by
  induction p generalizing d v with
  | nil => exact ⟨d, rfl⟩
  | cons f p ih =>
      cases v with
      | nil => exact absurd hp (by simp [mergeableFrom])
      | cons g v =>
          rw [mergeableFrom] at hp
          split_ifs at hp with hc
          · obtain ⟨rfl, hp⟩ := List.cons_prefix_cons.1 hp
            rw [mergeFrom, if_pos hc]
            exact ih hp
          · exact absurd hp (by simp)

theorem mergeFrom_snapE_gidB {d e : MetaDiff} {v : List MetaDiff} (hm : mergeFrom d v = .ok e) :
    e.snapE.gidB = (v.map endGid).getLastD d.snapE.gidB := by
  induction v generalizing d with
  | nil =>
      obtain rfl : d = e := Except.ok.inj hm
      rfl
  | cons f v ih =>
      rw [mergeFrom] at hm
      split_ifs at hm
      rw [ih hm, merge_snapE_gidB, List.map_cons, List.getLastD_cons]
      rfl

variable {n : Nat} {H : History n} {C S : ArchiveVol} {hostInfo : HostInfoForRepl}
  {maxWdiffSendNr : Nat}

theorem getDiffListToSend_spec {m : MetaDiffManager} {snap : MetaSnap} {size nr : Nat}
    (hnr : 0 < nr) {d : MetaDiff} {v : List MetaDiff}
    (hl : m.getApplicableDiffList snap MetaDiffManager.always = d :: v) :
    ∃ p, p <+: v ∧ getDiffListToSend m snap size nr = d :: p ∧ ∃ e, mergeFrom d p = .ok e := by
  obtain ⟨nr, rfl⟩ : ∃ k, nr = k + 1 := ⟨nr - 1, by omega⟩
  have hp : (truncateFrom size d.dataSize (mergeableFrom d v)).take nr <+: mergeableFrom d v :=
    (List.take_prefix _ _).trans (truncateFrom_isPrefix _ _ _)
  refine ⟨_, hp.trans (mergeableFrom_isPrefix d v), ?_, mergeFrom_ok hp⟩
  simp only [getDiffListToSend, getApplicableAndMergeableDiffList, hl, truncateDiffVecBySize,
    List.take_succ_cons]

/-- Both kinds of client send a merge of the first diffs of the greedy list. -/
theorem diffsToSend_spec (hostInfo : HostInfoForRepl) (hnr : 0 < maxWdiffSendNr)
    (hI : Inv C.diffMgr) {snap : MetaSnap}
    {d : MetaDiff} {v : List MetaDiff}
    (hl : C.diffMgr.getApplicableDiffList snap MetaDiffManager.always = d :: v) :
    ∃ p, p <+: v ∧ diffsToSend hostInfo maxWdiffSendNr C snap = d :: p ∧
      ∃ e, mergeFrom d p = .ok e := by
  rw [diffsToSend]
  split_ifs
  · rw [hI.getApplicableDiffList_eq] at hl
    cases hd : C.diffMgr.getApplicableDiffNolock snap with
    | none => simp [hd] at hl
    | some e =>
        simp only [hd, MetaDiffManager.always, if_true] at hl
        obtain ⟨rfl, -⟩ := List.cons.inj hl
        exact ⟨[], List.nil_prefix, rfl, e, rfl⟩
  · exact getDiffListToSend_spec hnr hl

/-- Where the two archives stand before a turn: the rest `w` of the client's
greedy list leads from the server's latest snapshot to the client's. -/
structure Standing (H : History n) (C S : ArchiveVol) (a b k b' : Nat) (w : List MetaDiff) : Prop where
  client : Synced H a b C
  server : Synced H k b' S
  list : C.diffMgr.getApplicableDiffList S.latestMetaSt.snapB MetaDiffManager.always = w
  leads : appliedVec S.latestMetaSt.snapB w = C.latestMetaSt.snapB

theorem standing_of_onChain {a b k b' : Nat} (hC : Synced H a b C) (hS : Synced H k b' S)
    (hchain : OnChain C S.latestMetaSt.snapB) : ∃ w, Standing H C S a b k b' w := by
  obtain ⟨v, ⟨w, hw⟩, hsnap⟩ := hchain
  have hlatest : appliedVec C.metaSt.snapB (v ++ w) = C.latestMetaSt.snapB := by
    rw [hw, ← hC.latestState.2.1, getLatestState, MetaState.applyVec, MetaState.endApplyingVec_snapB]
  rw [appliedVec_append, hsnap] at hlatest
  have hlist := getApplicableDiffList_suffix hC.inv hw.symm
  rw [hsnap] at hlist
  exact ⟨w, hC, hS, hlist, hlatest⟩

namespace Standing

variable {a b k b' : Nat} {w : List MetaDiff}

theorem canApply (h : Standing H C S a b k b' w) : canApplyVec (H.ms k) w := by
  have hg := (greedy_getApplicableDiffList h.client.inv MetaDiffManager.always
    S.latestMetaSt.snapB).canApply
  rw [h.list, h.server.latest.2] at hg
  exact hg

theorem leads_of_mem (h : Standing H C S a b k b' w) {d : MetaDiff} (hd : d ∈ w) :
    ∃ i j, H.Leads i j d ∧ j ≤ a := by
  apply h.client.stored
  apply h.client.inv.mem_of_getApplicableDiffList
  rw [h.list]
  exact hd

theorem le (h : Standing H C S a b k b' w) : k ≤ a := by
  have hle := gidB_le_appliedVec_gidB h.canApply
  rw [← h.server.latest.2, h.leads, h.client.latest.2, h.server.latest.2] at hle
  exact (H.gidB_le_iff h.server.latest_le h.client.latest_le).1 hle

theorem shouldDoRepl_nil (h : Standing H C S a b k b' []) (isSize : Bool) (param : Nat) :
    shouldDoRepl C.diffMgr S.latestMetaSt.snapB C.latestMetaSt.snapB isSize param = .dontRepl := by
  have hle : C.latestMetaSt.snapB.gidB ≤ S.latestMetaSt.snapB.gidB := by
    rw [← h.leads, appliedVec_nil]
  rw [shouldDoRepl, if_pos hle]

theorem gidB_lt {d : MetaDiff} (h : Standing H C S a b k b' (d :: w)) :
    S.latestMetaSt.snapB.gidB < C.latestMetaSt.snapB.gidB := by
  have hc := h.canApply
  have hle := gidB_le_appliedVec_gidB hc.2
  rw [← h.server.latest.2] at hc hle
  have hd := (canApply_iff.1 hc.1).2
  rw [← h.leads, appliedVec_cons]
  rw [applied_gidB] at hle
  exact hd.trans_le hle

theorem shouldDoRepl_cons {d : MetaDiff} (h : Standing H C S a b k b' (d :: w)) :
    shouldDoRepl C.diffMgr S.latestMetaSt.snapB C.latestMetaSt.snapB true 0 = .doDiffRepl := by
  have hbound : ∀ e, e ∈ d :: w → e.snapE.gidB ≤ C.latestMetaSt.snapB.gidB := by
    intro e he
    obtain ⟨i, j, hij, hj⟩ := h.leads_of_mem he
    rw [hij.snapE_gidB, h.client.latest.2]
    exact H.gidB_le_gidB hj h.client.latest_le
  have hlist : getApplicableDiffListByGid C.diffMgr (MetaState.ofSnap S.latestMetaSt.snapB 0).snapB
      C.latestMetaSt.snapB.gidB = d :: w := getApplicableDiffListByGid_eq h.client.inv h.list hbound
  have hsync : getDiffListToSync C.diffMgr (.ofSnap S.latestMetaSt.snapB 0) C.latestMetaSt.snapB =
      d :: w := by
    have hsnap : ((MetaState.ofSnap S.latestMetaSt.snapB 0).applyVec (d :: w)).snapB =
        C.latestMetaSt.snapB := by
      rw [MetaState.applyVec, MetaState.endApplyingVec_snapB]
      exact h.leads
    have htarget : getTargetDiffListsByGid C.diffMgr (.ofSnap S.latestMetaSt.snapB 0)
        C.latestMetaSt.snapB.gidB = (d :: w, []) := by
      rw [getTargetDiffListsByGid, hlist]
      rfl
    rw [getDiffListToSync, htarget]
    simp [hsnap]
  rw [shouldDoRepl, if_neg (not_le.2 h.gidB_lt), hsync]
  simp

/-- The merged diff and its parts one by one lead the server to the same snapshot. -/
theorem merged {d : MetaDiff} (h : Standing H C S a b k b' (d :: w)) {p w' : List MetaDiff}
    (hpw : p ++ w' = w) {diff : MetaDiff} (hmerge : mergeFrom d p = .ok diff) :
    ∃ i l, H.Leads i l diff ∧ i ≤ k ∧ k < l ∧ appliedVec (H.ms k) (d :: p) = H.ms l := by
  have hcan := h.canApply
  rw [← hpw, ← List.cons_append, canApplyVec_append] at hcan
  have hmem : ∀ e, e ∈ d :: p → ∃ i j, H.Leads i j e ∧ j ≤ a := by
    intro e he
    apply h.leads_of_mem
    rw [← hpw, ← List.cons_append]
    exact List.mem_append_left w' he
  obtain ⟨i, j, hd, hj⟩ := hmem d List.mem_cons_self
  obtain ⟨l, hdiff, -, -, -, -⟩ := leads_mergeFrom
    (fun e he => hmem e (List.mem_cons_of_mem _ he)) hd hj hmerge
  obtain ⟨q, -, hqa, hne, hq⟩ :=
    History.appliedVec_of_leads h.client.latest_le hmem h.le hcan.1
  have hgid : (H.ms q).gidB = (H.ms l).gidB := by
    rw [← hq, appliedVec_gidB, ← hdiff.snapE_gidB, mergeFrom_snapE_gidB hmerge, List.map_cons,
      List.getLastD_cons]
    rfl
  have hql : q = l := by
    have h₁ := H.gidB_lt_iff (hqa.trans h.client.latest_le) hdiff.le
    have h₂ := H.gidB_lt_iff hdiff.le (hqa.trans h.client.latest_le)
    omega
  have hik := ((hd.canApply_iff h.server.latest_le).1 hcan.1.1).1
  exact ⟨i, l, hdiff, hik, hql ▸ hne (List.cons_ne_nil _ _), hq.trans (congrArg H.ms hql)⟩

theorem accept (h : Standing H C S a b k b' w) (hfits : (H.ms n).gidE < u64) {i l : Nat}
    {v w' : List MetaDiff} (hv : v ++ w' = w) {diff : MetaDiff} (hdiff : H.Leads i l diff)
    (hik : i ≤ k) (hkl : k < l) (hvl : appliedVec (H.ms k) v = H.ms l) :
    S.latestMetaSt.canApply diff ∧ ∀ dataSize, ∃ S',
      runDiffReplServer S diff dataSize = .ok S' ∧ Standing H C S' a b l b' w' := by
  have happly : Meta.canApply (H.ms k) diff := (hdiff.canApply_iff h.server.latest_le).2 ⟨hik, hkl⟩
  have hserver : S.latestMetaSt.canApply diff :=
    ⟨h.server.latest.2 ▸ happly, fun ht => by simp [h.server.latest.1] at ht⟩
  refine ⟨hserver, fun dataSize => ?_⟩
  have hadd := h.server.addNolock_ok (d := { diff with dataSize := dataSize })
    ((canApply_iff.1 happly).2)
  obtain ⟨S', hS'⟩ : ∃ S', runDiffReplServer S diff dataSize = .ok S' := by
    rw [runDiffReplServer, if_pos hserver, addDiff, hadd]
    exact ⟨_, rfl⟩
  have hsync := h.server.runDiffReplServer_ok hfits hdiff hS'
  have hlist := h.list
  have hleads := h.leads
  rw [← hv] at hlist hleads
  have hsuffix := getApplicableDiffList_suffix h.client.inv hlist
  rw [h.server.latest.2, hvl, ← hsync.latest.2] at hsuffix
  rw [appliedVec_append, h.server.latest.2, hvl, ← hsync.latest.2] at hleads
  exact ⟨S', hS', h.client, hsync, hsuffix, hleads⟩

/-- One turn: the merged diff is applicable to the server, whose latest snapshot
moves on along the client's list. -/
theorem turn {d : MetaDiff} (h : Standing H C S a b k b' (d :: w)) (hfits : (H.ms n).gidE < u64)
    (hostInfo : HostInfoForRepl) (hnr : 0 < maxWdiffSendNr) :
    ∃ v diff, v ≠ [] ∧ diffsToSend hostInfo maxWdiffSendNr C S.latestMetaSt.snapB = v ∧
      mergeVec v = .ok diff ∧ S.latestMetaSt.canApply diff ∧ ∀ dataSize, ∃ S' l w',
        runDiffReplServer S diff dataSize = .ok S' ∧
        replTurn hostInfo maxWdiffSendNr true 0 C S dataSize = .ok (some S') ∧
        Standing H C S' a b l b' w' ∧ k < l := by
  obtain ⟨p, ⟨w', hpw⟩, hsend, diff, hmerge⟩ :=
    diffsToSend_spec hostInfo hnr h.client.inv h.list
  obtain ⟨i, l, hdiff, hik, hkl, hpl⟩ := h.merged hpw hmerge
  have hv : (d :: p) ++ w' = d :: w := congrArg (d :: ·) hpw
  obtain ⟨hcan, haccept⟩ := h.accept hfits hv hdiff hik hkl hpl
  refine ⟨d :: p, diff, List.cons_ne_nil _ _, hsend, hmerge, hcan, fun dataSize => ?_⟩
  obtain ⟨S', hS', h'⟩ := haccept dataSize
  have hclient : runDiffReplClient hostInfo maxWdiffSendNr C S.latestMetaSt.snapB = .ok diff := by
    rw [runDiffReplClient, hsend]
    exact hmerge
  refine ⟨S', l, w', hS', ?_, h', hkl⟩
  rw [replTurn, h.shouldDoRepl_cons]
  simp only [hclient, hS']
  rfl

theorem gidB_lt_of_lt {l : Nat} {S' : ArchiveVol} {w' : List MetaDiff}
    (h : Standing H C S a b k b' w) (h' : Standing H C S' a b l b' w') (hkl : k < l) :
    S.latestMetaSt.snapB.gidB < S'.latestMetaSt.snapB.gidB := by
  rw [h.server.latest.2, h'.server.latest.2]
  exact H.gidB_lt_gidB hkl h'.server.latest_le

theorem replTurn_nil (h : Standing H C S a b k b' []) (isSize : Bool) (param dataSize : Nat) :
    replTurn hostInfo maxWdiffSendNr isSize param C S dataSize = .ok none := by
  rw [replTurn, h.shouldDoRepl_nil]

theorem turns (h : Standing H C S a b k b' w) (hfits : (H.ms n).gidE < u64)
    (hnr : 0 < maxWdiffSendNr) {S' : ArchiveVol} (ht : Turns hostInfo maxWdiffSendNr true 0 C S S') :
    ∃ l w', Standing H C S' a b l b' w' := by
  induction ht with
  | refl => exact ⟨k, w, h⟩
  | step _ ht ih =>
      obtain ⟨l, w', h'⟩ := ih
      cases w' with
      | nil =>
          rw [h'.replTurn_nil] at ht
          simp at ht
      | cons d w' =>
          obtain ⟨_, _, -, -, -, -, hturn⟩ := h'.turn hfits hostInfo hnr
          obtain ⟨S'', l', w'', -, hS'', h'', -⟩ := hturn _
          obtain rfl : S'' = _ := Option.some.inj (Except.ok.inj (hS''.symm.trans ht))
          exact ⟨l', w'', h''⟩

/-- Every turn brings the server nearer, so the loop ends. -/
theorem runReplSync (h : Standing H C S a b k b' w) (hfits : (H.ms n).gidE < u64)
    (hnr : 0 < maxWdiffSendNr) {sizes : List Nat}
    (hlen : C.latestMetaSt.snapB.gidB - S.latestMetaSt.snapB.gidB < sizes.length) :
    ∃ S', DiffRepl.runReplSync hostInfo maxWdiffSendNr true 0 C sizes S = .ok (true, S') ∧
      S'.latestMetaSt.snapB = C.latestMetaSt.snapB := by
  induction sizes generalizing S k w with
  | nil => exact absurd hlen (Nat.not_lt_zero _)
  | cons dataSize sizes ih =>
      rw [DiffRepl.runReplSync]
      cases w with
      | nil =>
          rw [h.replTurn_nil]
          exact ⟨S, rfl, h.leads⟩
      | cons d w =>
          obtain ⟨_, _, -, -, -, -, hturn⟩ := h.turn hfits hostInfo hnr
          obtain ⟨S', l, w', -, hS', h', hkl⟩ := hturn dataSize
          have hlt := h.gidB_lt_of_lt h' hkl
          have hgap := h.gidB_lt
          rw [List.length_cons] at hlen
          rw [hS']
          exact ih h' (by omega)

end Standing

/-- What a turn does to a server: it ends the loop at the client's latest
snapshot, or the server accepts a diff that brings it further and still finds its
new latest snapshot from its base. -/
def Converges (hostInfo : HostInfoForRepl) (maxWdiffSendNr : Nat) (C S : ArchiveVol) : Prop :=
  (S.latestMetaSt.snapB = C.latestMetaSt.snapB ∧
    ∀ dataSize, replTurn hostInfo maxWdiffSendNr true 0 C S dataSize = .ok none) ∨
  ∃ v diff, v ≠ [] ∧ diffsToSend hostInfo maxWdiffSendNr C S.latestMetaSt.snapB = v ∧
    mergeVec v = .ok diff ∧ S.latestMetaSt.canApply diff ∧
    ∀ dataSize, ∃ S', runDiffReplServer S diff dataSize = .ok S' ∧
      replTurn hostInfo maxWdiffSendNr true 0 C S dataSize = .ok (some S') ∧
      S.latestMetaSt.snapB.gidB < S'.latestMetaSt.snapB.gidB ∧
      (getLatestState S'.diffMgr S'.metaSt).opEq S'.latestMetaSt

/-- Diff replication between two archives of one history. -/
theorem diff_repl_converges (H : History n) (hfits : (H.ms n).gidE < u64) (hC : synced H C)
    (hS : synced H S) (hchain : OnChain C S.latestMetaSt.snapB) (hostInfo : HostInfoForRepl)
    (hnr : 0 < maxWdiffSendNr) :
    (∀ S', Turns hostInfo maxWdiffSendNr true 0 C S S' → Converges hostInfo maxWdiffSendNr C S') ∧
    ∀ sizes : List Nat, C.latestMetaSt.snapB.gidB - S.latestMetaSt.snapB.gidB < sizes.length →
      ∃ S', runReplSync hostInfo maxWdiffSendNr true 0 C sizes S = .ok (true, S') ∧
        S'.latestMetaSt.snapB = C.latestMetaSt.snapB := by
  obtain ⟨a, b, hC⟩ := hC
  obtain ⟨k, b', hS⟩ := hS
  obtain ⟨w, h⟩ := standing_of_onChain hC hS hchain
  refine ⟨fun S' ht => ?_, fun sizes hlen => h.runReplSync hfits hnr hlen⟩
  obtain ⟨l, w', h'⟩ := h.turns hfits hnr ht
  cases w' with
  | nil => exact .inl ⟨h'.leads, fun dataSize => h'.replTurn_nil true 0 dataSize⟩
  | cons d w' =>
      obtain ⟨v, diff, hv, hsend, hmerge, hcan, hturn⟩ := h'.turn hfits hostInfo hnr
      refine .inr ⟨v, diff, hv, hsend, hmerge, hcan, fun dataSize => ?_⟩
      obtain ⟨S'', l', w'', haccept, hS'', h'', hkl⟩ := hturn dataSize
      exact ⟨S'', haccept, hS'', h'.gidB_lt_of_lt h'' hkl, h''.server.latestState⟩

/-- A log diff, a backup and another log diff wait at the client. -/
def mixedClient : ArchiveVol :=
  let C₁ := (Op.wdiffTransfer (mixedHistory.md 0) 100).run (initial (mixedHistory.ms 0) 0)
  let C₂ := (Op.hashBackup (mixedHistory.ms 2) 11 200).run C₁
  (Op.wdiffTransfer (mixedHistory.md 2) 300).run C₂

theorem diff_repl_converges_mixed :
    mixedClient.latestMetaSt.snapB = MetaSnap.clean 7 ∧
      ∃ S', runReplSync ⟨false, 300⟩ 2 true 0 mixedClient [50, 50, 50, 50, 50, 50, 50, 50]
          (initial (mixedHistory.ms 0) 0) = .ok (true, S') ∧
        S'.latestMetaSt.snapB = mixedClient.latestMetaSt.snapB := by
  refine ⟨by decide +kernel, ?_⟩
  have h₁ : (Op.wdiffTransfer (mixedHistory.md 0) 100).Follows mixedHistory
      (initial (mixedHistory.ms 0) 0) := History.Made.generated (by decide)
  have h₂ : (Op.hashBackup (mixedHistory.ms 2) 11 200).Follows mixedHistory
      ((Op.wdiffTransfer (mixedHistory.md 0) 100).run (initial (mixedHistory.ms 0) 0)) :=
    ⟨by decide +kernel, by decide, 1, by decide, by decide +kernel, rfl⟩
  have h₃ (A : ArchiveVol) : (Op.wdiffTransfer (mixedHistory.md 2) 300).Follows mixedHistory A :=
    History.Made.generated (by decide)
  have h₀ : synced mixedHistory (initial (mixedHistory.ms 0) 0) :=
    ⟨0, 0, synced_initial (Nat.zero_le 3) 0⟩
  have hC : synced mixedHistory mixedClient :=
    (((Run.refl.step h₁).step h₂).step (h₃ _)).synced (by decide) h₀
  have hchain : OnChain mixedClient (initial (mixedHistory.ms 0) 0).latestMetaSt.snapB :=
    ⟨[], List.nil_prefix, by decide +kernel⟩
  exact (diff_repl_converges mixedHistory (by decide) hC h₀ hchain ⟨false, 300⟩
    (by decide)).2 _ (by decide +kernel)

end WalbTools.DiffRepl
