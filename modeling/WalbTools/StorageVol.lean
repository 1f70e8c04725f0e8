import Mathlib
import WalbTools.Meta

namespace WalbTools.StorageVol

open Meta

structure MetaLsidGid where
  lsid : Nat
  gid : Nat
  isMergeable : Bool
  timestamp : Nat
  deriving DecidableEq

/-- An exception is caught by the caller; an assertion ends the process. -/
inductive Failure where
  | exception (msg : String)
  | assertion (msg : String)
  deriving DecidableEq

/-- The files of a volume: the done record and the queue of snapshots, the
front (the latest one) first. -/
structure StorageVolInfo where
  done : MetaLsidGid
  queue : List MetaLsidGid

structure LsidSet where
  latest : Nat
  permanent : Nat

def StorageVolInfo.records (vol : StorageVolInfo) : List MetaLsidGid := vol.queue ++ [vol.done]

def isOld (recB rec : MetaLsidGid) : Bool :=
  decide (rec.lsid < recB.lsid) || (decide (rec.lsid = recB.lsid) && decide (rec.gid ≤ recB.gid))

def removeOldRecordsFromQueueFile (qf : List MetaLsidGid) (recB : MetaLsidGid) : List MetaLsidGid :=
  (qf.reverse.dropWhile (isOld recB)).reverse

def resetWlog (gid now : Nat) : StorageVolInfo := ⟨⟨0, gid, false, now⟩, []⟩

def takeSnapshotDetail (vol : StorageVolInfo) (maxWlogSendPb : Nat) (isMergeable isOverflow : Bool)
    (lsid now : Nat) : Except Failure (StorageVolInfo × Nat) :=
  let pre := vol.queue.headD vol.done
  if isOverflow then .error (.exception "wlog overflow")
  else if pre.lsid > lsid then .error (.exception "invalid lsid")
  else
    let gid := pre.gid + 1 + (lsid - pre.lsid) / maxWlogSendPb
    .ok ({ vol with queue := ⟨lsid, gid, isMergeable, now⟩ :: vol.queue }, gid)

def takeSnapshot (vol : StorageVolInfo) (maxWlogSendPb : Nat) (isOverflow : Bool)
    (latest now : Nat) : Except Failure (StorageVolInfo × Nat) :=
  if maxWlogSendPb = 0 then .error (.exception "maxWlogSendPb must be positive")
  else takeSnapshotDetail vol maxWlogSendPb false isOverflow latest now

/-- The walk from the oldest record towards the front; `nr` counts records. -/
def endLoop (recB : MetaLsidGid) (maxWlogSendPb permanentLsid : Nat) :
    MetaLsidGid → Nat → List MetaLsidGid → MetaLsidGid × Nat
  | recE, nr, [] => (recE, nr)
  | recE, nr, rec :: qf =>
      if recE.isMergeable = false then (recE, nr)
      else if rec.lsid > recB.lsid + maxWlogSendPb then (recE, nr)
      else if rec.lsid > permanentLsid then (recE, nr)
      else endLoop recB maxWlogSendPb permanentLsid rec (nr + 1) qf

def getEndSnapshot (qf : List MetaLsidGid) (recB : MetaLsidGid) (maxWlogSendPb permanentLsid : Nat) :
    Except Failure (MetaLsidGid × Nat) :=
  match qf.reverse with
  | [] => .error (.assertion "!qf.empty()")
  | back :: rest =>
      let (recE, nr) := endLoop recB maxWlogSendPb permanentLsid back 1 rest
      if recE.lsid < recB.lsid then .error (.exception "invalid MetaLsidGid record")
      else if recE.gid ≤ recB.gid then .error (.assertion "recB.gid < recE.gid")
      else if nr = 1 ∧ recE.gid = recB.gid + 1 then .ok (recE, recE.lsid)
      else .ok (recE, min (recB.lsid + maxWlogSendPb) recE.lsid)

structure Prepared where
  recB : MetaLsidGid
  recE : MetaLsidGid
  lsidLimit : Nat
  doLater : Bool

/-- The queue after the implicit snapshot of `prepareWlogTransfer`, if any. -/
def takeImplicitSnapshot (vol : StorageVolInfo) (maxWlogSendPb intervalSec : Nat) (isOverflow : Bool)
    (latest now : Nat) : Except Failure StorageVolInfo :=
  let isRequired := match vol.queue with
    | [] => true
    | front :: _ => decide (front.lsid < latest) && decide (front.timestamp + intervalSec ≤ now)
  if isRequired then
    match takeSnapshotDetail vol maxWlogSendPb true isOverflow latest now with
    | .ok (vol, _) => .ok vol
    | .error e => .error e
  else .ok vol

/-- The queue file keeps what was done to it before an exception. -/
def prepareWlogTransfer (vol : StorageVolInfo) (maxWlogSendPb intervalSec : Nat) (isOverflow : Bool)
    (lsids : LsidSet) (now : Nat) : StorageVolInfo × Except Failure Prepared :=
  let recB := vol.done
  let vol := { vol with queue := removeOldRecordsFromQueueFile vol.queue recB }
  if maxWlogSendPb = 0 then (vol, .error (.exception "maxWlogSendPb must be positive"))
  else
    match takeImplicitSnapshot vol maxWlogSendPb intervalSec isOverflow lsids.latest now with
    | .error e => (vol, .error e)
    | .ok vol =>
        match getEndSnapshot vol.queue recB maxWlogSendPb lsids.permanent with
        | .error e => (vol, .error e)
        | .ok (recE, lsidLimit) =>
            (vol, .ok ⟨recB, recE, lsidLimit, decide (lsids.permanent < lsidLimit)⟩)

def getTransferDiff (recB recE : MetaLsidGid) (lsidE : Nat) : Except Failure MetaDiff :=
  if lsidE = recE.lsid then
    .ok (.ofSnaps (.clean recB.gid) (.clean recE.gid) recB.isMergeable recE.timestamp)
  else if recE.gid ≤ recB.gid + 1 then .error (.assertion "recB.gid + 1 < recE.gid")
  else .ok (.ofSnaps (.clean recB.gid) (.clean (recB.gid + 1)) recB.isMergeable recE.timestamp)

def endRecord (recB recE : MetaLsidGid) (lsidE : Nat) : MetaLsidGid :=
  if lsidE = recE.lsid then ⟨lsidE, recE.gid, recE.isMergeable, recE.timestamp⟩
  else ⟨lsidE, recB.gid + 1, true, recB.timestamp⟩

/-- The exceptions of `verifyMetaLsidGidEquality` are built but not thrown, so
the two comparisons with the stored records have no effect. -/
def finishWlogTransfer (vol : StorageVolInfo) (recB recE : MetaLsidGid) (lsidE : Nat) :
    Except Failure (StorageVolInfo × Bool) :=
  if vol.queue = [] then .error (.exception "Maybe BUG: queue must have at lease one record.")
  else if ¬(recB.lsid ≤ lsidE ∧ lsidE ≤ recE.lsid) then
    .error (.assertion "recB.lsid <= lsidE && lsidE <= recE.lsid")
  else if lsidE ≠ recE.lsid ∧ recE.gid ≤ recB.gid + 1 then
    .error (.assertion "recB.gid + 1 < recE.gid")
  else
    let recS := endRecord recB recE lsidE
    let queue := removeOldRecordsFromQueueFile vol.queue recS
    .ok (⟨recS, queue⟩, !queue.isEmpty)

/-- The log of the device: the header at `lsid` names the lsid of the next pack. -/
structure Wlog where
  nextLogpackLsid : Nat → Nat
  progress : ∀ lsid, lsid < nextLogpackLsid lsid

/-- The send loop of `extractAndSendAndDeleteWlog`. -/
def sendLoop (log : Wlog) (maxWlogSendPb lsidLimit lsid : Nat) : Except Failure Nat :=
  if lsid = lsidLimit then .ok lsid
  else if maxWlogSendPb < log.nextLogpackLsid lsid - lsid then
    .error (.exception "maxWlogSendPb is too small")
  else if lsidLimit < log.nextLogpackLsid lsid then .ok lsid
  else sendLoop log maxWlogSendPb lsidLimit (log.nextLogpackLsid lsid)
termination_by lsidLimit - lsid
decreasing_by
  have hlt := log.progress lsid
  omega

def Wlog.Boundary (log : Wlog) (lsid : Nat) : Prop := ∃ n, log.nextLogpackLsid^[n] 0 = lsid

variable {log : Wlog} {vol : StorageVolInfo} {qf : List MetaLsidGid} {recB recE : MetaLsidGid}
variable {maxWlogSendPb permanentLsid : Nat}

theorem Wlog.strictMono (log : Wlog) : StrictMono fun n => log.nextLogpackLsid^[n] 0 := by
  refine strictMono_nat_of_lt_succ fun n => ?_
  rw [Function.iterate_succ_apply']
  exact log.progress _

theorem Wlog.boundary_zero (log : Wlog) : log.Boundary 0 := ⟨0, rfl⟩

theorem Wlog.Boundary.next {lsid : Nat} (h : log.Boundary lsid) :
    log.Boundary (log.nextLogpackLsid lsid) := by
  obtain ⟨n, rfl⟩ := h
  exact ⟨n + 1, Function.iterate_succ_apply' _ _ _⟩

theorem Wlog.Boundary.le_or_next_le {a b : Nat} (ha : log.Boundary a) (hb : log.Boundary b) :
    b ≤ a ∨ log.nextLogpackLsid a ≤ b := by
  obtain ⟨n, rfl⟩ := ha
  obtain ⟨k, rfl⟩ := hb
  rcases le_or_gt k n with hk | hk
  · exact .inl (log.strictMono.monotone hk)
  · right
    rw [← Function.iterate_succ_apply' log.nextLogpackLsid n 0]
    exact log.strictMono.monotone hk

theorem sendLoop_spec {lsidLimit lsid lsidE : Nat} (hb : log.Boundary lsid) (hle : lsid ≤ lsidLimit)
    (h : sendLoop log maxWlogSendPb lsidLimit lsid = .ok lsidE) :
    log.Boundary lsidE ∧ lsid ≤ lsidE ∧ lsidE ≤ lsidLimit ∧
      ∀ b, log.Boundary b → b ≤ lsidLimit → b ≤ lsidE := by
  fun_induction sendLoop log maxWlogSendPb lsidLimit lsid with
  | case1 =>
      cases h
      exact ⟨hb, le_rfl, hle, fun b _ hbl => hbl⟩
  | case2 => cases h
  | case3 lsid _ _ hlt =>
      cases h
      refine ⟨hb, le_rfl, hle, fun b hbb hbl => ?_⟩
      rcases hb.le_or_next_le hbb with hba | hba
      · exact hba
      · omega
  | case4 lsid _ _ hlt ih =>
      obtain ⟨hE, hl, hr⟩ := ih hb.next (not_lt.1 hlt) h
      exact ⟨hE, (log.progress lsid).le.trans hl, hr⟩

theorem sendLoop_ok (hmax : ∀ lsid, log.nextLogpackLsid lsid - lsid ≤ maxWlogSendPb)
    (lsidLimit lsid : Nat) : ∃ lsidE, sendLoop log maxWlogSendPb lsidLimit lsid = .ok lsidE := by
  fun_induction sendLoop log maxWlogSendPb lsidLimit lsid with
  | case1 => exact ⟨_, rfl⟩
  | case2 lsid _ hlt => exact absurd (hmax lsid) (not_le.2 hlt)
  | case3 lsid => exact ⟨lsid, rfl⟩
  | case4 _ _ _ _ ih => exact ih

def Newer (r r' : MetaLsidGid) : Prop := r'.gid < r.gid ∧ r'.lsid ≤ r.lsid

theorem Newer.trans {r r' r'' : MetaLsidGid} (h : Newer r r') (h' : Newer r' r'') : Newer r r'' :=
  ⟨h'.1.trans h.1, h'.2.trans h.2⟩

theorem isOld_iff (r : MetaLsidGid) :
    isOld recB r = true ↔ r.lsid < recB.lsid ∨ r.lsid = recB.lsid ∧ r.gid ≤ recB.gid := by
  simp [isOld]

theorem Newer.not_isOld {r : MetaLsidGid} (h : Newer r recB) : isOld recB r = false := by
  rw [Bool.eq_false_iff, Ne, isOld_iff]
  obtain ⟨hg, hl⟩ := h
  omega

theorem isOld_of_newer {r r' : MetaLsidGid} (h : Newer r r') (hr : isOld recB r = true) :
    isOld recB r' = true := by
  rw [isOld_iff] at hr ⊢
  obtain ⟨hg, hl⟩ := h
  omega

theorem dropWhile_eq_filter {p : MetaLsidGid → Bool} {l : List MetaLsidGid}
    (h : l.Pairwise fun a b => p b = true → p a = true) : l.dropWhile p = l.filter fun a => !p a := by
  induction l with
  | nil => rfl
  | cons a l ih =>
      obtain ⟨ha, hl⟩ := List.pairwise_cons.1 h
      cases hp : p a with
      | true => simp [hp, ih hl]
      | false =>
          have hall : ∀ b, b ∈ l → (!p b) = true := by
            intro b hb
            cases hpb : p b with
            | true => simp [ha b hb hpb] at hp
            | false => rfl
          simp [hp, List.filter_eq_self.2 hall]

theorem removeOldRecordsFromQueueFile_eq (h : qf.Pairwise Newer) :
    removeOldRecordsFromQueueFile qf recB = qf.filter fun r => !isOld recB r := by
  have hrev : qf.reverse.Pairwise fun a b => isOld recB b = true → isOld recB a = true :=
    List.pairwise_reverse.2 (h.imp fun hn => isOld_of_newer hn)
  rw [removeOldRecordsFromQueueFile, dropWhile_eq_filter hrev, List.filter_reverse, List.reverse_reverse]

theorem removeOldRecordsFromQueueFile_self (h : ∀ r, r ∈ qf → Newer r recB) :
    removeOldRecordsFromQueueFile qf recB = qf := by
  have hd : qf.reverse.dropWhile (isOld recB) = qf.reverse := by
    cases hq : qf.reverse with
    | nil => rfl
    | cons a l =>
        have ha : a ∈ qf := List.mem_reverse.1 (hq ▸ List.mem_cons_self)
        exact List.dropWhile_cons_of_neg (by simp [(h a ha).not_isOld])
  rw [removeOldRecordsFromQueueFile, hd, List.reverse_reverse]

def StorageVolInfo.Ordered (vol : StorageVolInfo) : Prop := vol.records.Pairwise Newer

theorem ordered_iff :
    vol.Ordered ↔ vol.queue.Pairwise Newer ∧ ∀ r, r ∈ vol.queue → Newer r vol.done := by
  simp [StorageVolInfo.Ordered, StorageVolInfo.records, List.pairwise_append]

theorem StorageVolInfo.Ordered.newer (h : vol.Ordered) {r : MetaLsidGid} (hr : r ∈ vol.queue) :
    Newer r vol.done :=
  (ordered_iff.1 h).2 r hr

theorem StorageVolInfo.Ordered.removeOld (h : vol.Ordered) :
    removeOldRecordsFromQueueFile vol.queue vol.done = vol.queue :=
  removeOldRecordsFromQueueFile_self fun _ hr => h.newer hr

theorem eq_of_gid (h : qf.Pairwise Newer) {r r' : MetaLsidGid} (hr : r ∈ qf) (hr' : r' ∈ qf)
    (hg : r.gid = r'.gid) : r = r' := by
  have hnodup : (qf.map MetaLsidGid.gid).Nodup :=
    List.pairwise_map.2 (h.imp fun hn => (Nat.ne_of_lt hn.1).symm)
  exact List.inj_on_of_nodup_map hnodup hr hr' hg

theorem newer_of_gid_lt (h : qf.Pairwise Newer) {r r' : MetaLsidGid} (hr : r ∈ qf) (hr' : r' ∈ qf)
    (hg : r.gid < r'.gid) : Newer r' r := by
  induction h with
  | nil => exact absurd hr List.not_mem_nil
  | cons hfront _ ih =>
      rcases List.mem_cons.1 hr with rfl | hr
      · rcases List.mem_cons.1 hr' with rfl | hr'
        · exact absurd hg (lt_irrefl _)
        · exact absurd hg (hfront r' hr').1.not_gt
      · rcases List.mem_cons.1 hr' with he | hr'
        · exact he ▸ hfront r hr
        · exact ih hr hr'

theorem StorageVolInfo.Ordered.front (h : vol.Ordered) {r : MetaLsidGid} (hr : r ∈ vol.records) :
    r = vol.queue.headD vol.done ∨ Newer (vol.queue.headD vol.done) r := by
  unfold StorageVolInfo.Ordered StorageVolInfo.records at h
  unfold StorageVolInfo.records at hr
  cases hq : vol.queue with
  | nil =>
      rw [hq] at hr
      exact .inl (by simpa using hr)
  | cons front qf =>
      rw [hq, List.cons_append] at h hr
      rcases List.mem_cons.1 hr with rfl | hr
      · exact .inl rfl
      · exact .inr ((List.pairwise_cons.1 h).1 r hr)

theorem takeSnapshotDetail_eq_ok {isMergeable isOverflow : Bool} {lsid now gid : Nat}
    {vol' : StorageVolInfo} (h : vol.Ordered)
    (ht : takeSnapshotDetail vol maxWlogSendPb isMergeable isOverflow lsid now = .ok (vol', gid)) :
    vol'.done = vol.done ∧ vol'.queue = ⟨lsid, gid, isMergeable, now⟩ :: vol.queue ∧ vol'.Ordered := by
  unfold takeSnapshotDetail at ht
  dsimp only at ht
  split_ifs at ht with ho hl
  obtain ⟨rfl, rfl⟩ := Prod.mk.inj (Except.ok.inj ht)
  refine ⟨rfl, rfl, List.pairwise_cons.2 ⟨fun r hr => ?_, h⟩⟩
  have hpre := h.front hr
  generalize vol.queue.headD vol.done = pre at hl hpre ⊢
  generalize (lsid - pre.lsid) / maxWlogSendPb = k
  rcases hpre with rfl | ⟨hg, hle⟩
  · exact ⟨by dsimp only; omega, not_lt.1 hl⟩
  · exact ⟨by dsimp only; omega, hle.trans (not_lt.1 hl)⟩

theorem takeSnapshotDetail_ne_assertion {isMergeable isOverflow : Bool} {lsid now : Nat}
    {msg : String} :
    takeSnapshotDetail vol maxWlogSendPb isMergeable isOverflow lsid now ≠ .error (.assertion msg) := by
  unfold takeSnapshotDetail
  dsimp only
  split_ifs <;> simp

/-- The walk ends at a record of the queue; all records it passed are
mergeable, and it leaves the oldest record only within the size limit. -/
theorem endLoop_spec (recB : MetaLsidGid) (maxWlogSendPb permanentLsid : Nat) {back : MetaLsidGid}
    (nr : Nat) {rest : List MetaLsidGid} (h : (back :: rest).Pairwise fun r r' => Newer r' r) :
    (endLoop recB maxWlogSendPb permanentLsid back nr rest).1 ∈ back :: rest ∧
      nr ≤ (endLoop recB maxWlogSendPb permanentLsid back nr rest).2 ∧
      ((endLoop recB maxWlogSendPb permanentLsid back nr rest).2 = nr →
        (endLoop recB maxWlogSendPb permanentLsid back nr rest).1 = back) ∧
      (nr < (endLoop recB maxWlogSendPb permanentLsid back nr rest).2 →
        (endLoop recB maxWlogSendPb permanentLsid back nr rest).1 ∈ rest ∧
        (endLoop recB maxWlogSendPb permanentLsid back nr rest).1.lsid ≤ recB.lsid + maxWlogSendPb) ∧
      ∀ r, r ∈ back :: rest →
        r.gid < (endLoop recB maxWlogSendPb permanentLsid back nr rest).1.gid →
        r.isMergeable = true := by
  induction rest generalizing back nr with
  | nil => simp [endLoop]
  | cons rec rest ih =>
      obtain ⟨hback, hrest⟩ := List.pairwise_cons.1 h
      have hstop : ∀ r, r ∈ back :: rec :: rest → ¬r.gid < back.gid := by
        intro r hr
        rcases List.mem_cons.1 hr with rfl | hr
        · exact lt_irrefl _
        · exact (hback r hr).1.not_gt
      unfold endLoop
      split_ifs with hm hl hp
      · exact ⟨List.mem_cons_self, le_rfl, fun _ => rfl, fun hlt => absurd hlt (lt_irrefl _),
          fun r hr hlt => absurd hlt (hstop r hr)⟩
      · exact ⟨List.mem_cons_self, le_rfl, fun _ => rfl, fun hlt => absurd hlt (lt_irrefl _),
          fun r hr hlt => absurd hlt (hstop r hr)⟩
      · exact ⟨List.mem_cons_self, le_rfl, fun _ => rfl, fun hlt => absurd hlt (lt_irrefl _),
          fun r hr hlt => absurd hlt (hstop r hr)⟩
      · obtain ⟨hmem, hnr, hsame, hfar, hmerge⟩ := ih (nr + 1) hrest
        refine ⟨List.mem_cons_of_mem _ hmem, by omega, fun he => absurd he (by omega),
          fun _ => ⟨hmem, ?_⟩, fun r hr hlt => ?_⟩
        · rcases hnr.eq_or_lt with he | hlt
          · rw [hsame he.symm]
            exact not_lt.1 hl
          · exact (hfar hlt).2
        · rcases List.mem_cons.1 hr with rfl | hr
          · exact Bool.eq_true_of_not_eq_false hm
          · exact hmerge r hr hlt

/-- `lsidLimit` falls short of the end record only when that is the oldest one,
two gids or more ahead, and farther than the size limit. -/
structure EndSnapshot (vol : StorageVolInfo) (maxWlogSendPb : Nat) (recE : MetaLsidGid)
    (lsidLimit : Nat) : Prop where
  mem : recE ∈ vol.queue
  done_le : vol.done.lsid ≤ lsidLimit
  le : lsidLimit ≤ recE.lsid
  isMergeable : ∀ r, r ∈ vol.queue → r.gid < recE.gid → r.isMergeable = true
  partial_of_lt : lsidLimit < recE.lsid → lsidLimit = vol.done.lsid + maxWlogSendPb ∧
    vol.done.gid + 1 < recE.gid ∧ ∀ r, r ∈ vol.queue → recE.gid ≤ r.gid
  limit_of_cut : vol.done.lsid + maxWlogSendPb < recE.lsid → vol.done.gid + 1 < recE.gid →
    lsidLimit = vol.done.lsid + maxWlogSendPb

theorem getEndSnapshot_spec (maxWlogSendPb permanentLsid : Nat) (h : vol.Ordered)
    (hne : vol.queue ≠ []) :
    ∃ recE lsidLimit, getEndSnapshot vol.queue vol.done maxWlogSendPb permanentLsid =
      .ok (recE, lsidLimit) ∧ EndSnapshot vol maxWlogSendPb recE lsidLimit := by
  obtain ⟨hq, hdone⟩ := ordered_iff.1 h
  unfold getEndSnapshot
  cases hrev : vol.queue.reverse with
  | nil => exact absurd (List.reverse_eq_nil_iff.1 hrev) hne
  | cons back rest =>
      have hback := List.pairwise_reverse.2 hq
      rw [hrev] at hback
      have hmem : ∀ r, r ∈ vol.queue ↔ r ∈ back :: rest := fun r => by
        rw [← hrev, List.mem_reverse]
      have holdest : ∀ r, r ∈ vol.queue → back.gid ≤ r.gid := by
        intro r hr
        rcases List.mem_cons.1 ((hmem r).1 hr) with rfl | hr
        · exact le_rfl
        · exact ((List.pairwise_cons.1 hback).1 r hr).1.le
      obtain ⟨hin, hnr, hsame, hfar, hmerge⟩ := endLoop_spec vol.done maxWlogSendPb permanentLsid 1 hback
      dsimp only
      generalize endLoop vol.done maxWlogSendPb permanentLsid back 1 rest = res
        at hin hnr hsame hfar hmerge ⊢
      obtain ⟨recE, nr⟩ := res
      dsimp only at hin hnr hsame hfar hmerge ⊢
      obtain ⟨hg, hl⟩ := hdone recE ((hmem recE).2 hin)
      rw [if_neg (not_lt.2 hl), if_neg (not_le.2 hg)]
      have hmerge' : ∀ r, r ∈ vol.queue → r.gid < recE.gid → r.isMergeable = true :=
        fun r hr => hmerge r ((hmem r).1 hr)
      split_ifs with hone
      · exact ⟨recE, recE.lsid, rfl, (hmem recE).2 hin, hl, le_rfl, hmerge',
          fun hlt => absurd hlt (lt_irrefl _), fun _ hgid => absurd hone.2 hgid.ne'⟩
      · refine ⟨recE, _, rfl, (hmem recE).2 hin, by omega, min_le_right _ _, hmerge', fun hlt => ?_,
          fun hlt _ => min_eq_left hlt.le⟩
        have hmin : vol.done.lsid + maxWlogSendPb < recE.lsid := by omega
        have hnr1 : nr = 1 := by
          by_contra hnr1
          have hle := (hfar (by omega)).2
          omega
        refine ⟨by omega, ?_, ?_⟩
        · have hgne : recE.gid ≠ vol.done.gid + 1 := fun he => hone ⟨hnr1, he⟩
          omega
        · rw [hsame hnr1]
          exact holdest

theorem takeImplicitSnapshot_eq_ok {intervalSec latest now : Nat} {isOverflow : Bool}
    {vol' : StorageVolInfo} (h : vol.Ordered)
    (ht : takeImplicitSnapshot vol maxWlogSendPb intervalSec isOverflow latest now = .ok vol') :
    vol'.Ordered ∧ vol'.done = vol.done ∧ vol'.queue ≠ [] ∧
      (vol'.queue = vol.queue ∨ ∃ gid, vol'.queue = ⟨latest, gid, true, now⟩ :: vol.queue) := by
  unfold takeImplicitSnapshot at ht
  dsimp only at ht
  split_ifs at ht with hreq
  · cases hd : takeSnapshotDetail vol maxWlogSendPb true isOverflow latest now with
    | error e => simp [hd] at ht
    | ok r =>
        obtain ⟨vol₁, gid⟩ := r
        obtain rfl : vol₁ = vol' := by simpa [hd] using ht
        obtain ⟨hdone, hq, ho⟩ := takeSnapshotDetail_eq_ok h hd
        exact ⟨ho, hdone, by simp [hq], .inr ⟨gid, hq⟩⟩
  · obtain rfl := Except.ok.inj ht
    refine ⟨h, rfl, fun hnil => ?_, .inl rfl⟩
    simp [hnil] at hreq

theorem takeImplicitSnapshot_ne_assertion {intervalSec latest now : Nat} {isOverflow : Bool}
    {msg : String} : takeImplicitSnapshot vol maxWlogSendPb intervalSec isOverflow latest now ≠
      .error (.assertion msg) := by
  unfold takeImplicitSnapshot
  dsimp only
  split_ifs with hreq
  · cases hd : takeSnapshotDetail vol maxWlogSendPb true isOverflow latest now with
    | ok r => simp
    | error e =>
        simp only [ne_eq, Except.error.injEq]
        rintro rfl
        exact takeSnapshotDetail_ne_assertion hd
  · simp

/-- Preparation may add one mergeable record at the front; it does not fail in
an assertion. -/
theorem prepareWlogTransfer_spec (h : vol.Ordered) (intervalSec now : Nat) (isOverflow : Bool)
    (lsids : LsidSet) {vol' : StorageVolInfo} {res : Except Failure Prepared}
    (hp : prepareWlogTransfer vol maxWlogSendPb intervalSec isOverflow lsids now = (vol', res)) :
    vol'.Ordered ∧ vol'.done = vol.done ∧
      (vol'.queue = vol.queue ∨ ∃ gid, vol'.queue = ⟨lsids.latest, gid, true, now⟩ :: vol.queue) ∧
      (∀ msg, res ≠ .error (.assertion msg)) ∧
      ∀ p, res = .ok p → p.recB = vol.done ∧ EndSnapshot vol' maxWlogSendPb p.recE p.lsidLimit := by
  unfold prepareWlogTransfer at hp
  dsimp only at hp
  rw [h.removeOld] at hp
  split_ifs at hp with hz
  · obtain ⟨rfl, rfl⟩ := Prod.mk.inj hp
    exact ⟨h, rfl, .inl rfl, by simp, by simp⟩
  · cases ht : takeImplicitSnapshot vol maxWlogSendPb intervalSec isOverflow lsids.latest now with
    | error e =>
        rw [ht] at hp
        obtain ⟨rfl, rfl⟩ := Prod.mk.inj hp
        refine ⟨h, rfl, .inl rfl, fun msg he => ?_, by simp⟩
        exact takeImplicitSnapshot_ne_assertion (ht.trans (by rw [Except.error.inj he]))
    | ok vol₁ =>
        obtain ⟨ho, hdone, hne, hq⟩ := takeImplicitSnapshot_eq_ok h ht
        obtain ⟨recE, lsidLimit, hE, hspec⟩ := getEndSnapshot_spec maxWlogSendPb lsids.permanent ho hne
        rw [hdone] at hE
        rw [ht] at hp
        dsimp only at hp
        rw [hE] at hp
        obtain ⟨rfl, rfl⟩ := Prod.mk.inj hp
        refine ⟨ho, hdone, hq, by simp, fun p hp => ?_⟩
        obtain rfl := Except.ok.inj hp
        exact ⟨rfl, hspec⟩

/-- An end lsid that the transfer of a prepared range can stop at. -/
structure Stop (vol : StorageVolInfo) (recE : MetaLsidGid) (lsidLimit lsidE : Nat) : Prop where
  done_le : vol.done.lsid ≤ lsidE
  le_limit : lsidE ≤ lsidLimit
  complete : lsidLimit = recE.lsid → lsidE = lsidLimit

namespace EndSnapshot

variable {lsidLimit lsidE : Nat}

theorem push (h : EndSnapshot vol maxWlogSendPb recE lsidLimit) {vol' : StorageVolInfo}
    (ho' : vol'.Ordered) (hdone : vol'.done = vol.done) {r : MetaLsidGid}
    (hq : vol'.queue = vol.queue ∨ vol'.queue = r :: vol.queue) :
    EndSnapshot vol' maxWlogSendPb recE lsidLimit := by
  obtain ⟨hmem, hdle, hle, hmerge, hpart, hcut⟩ := h
  rcases hq with hq | hq
  · exact ⟨hq ▸ hmem, hdone ▸ hdle, hle, by rwa [hq], by rwa [hq, hdone], by rwa [hdone]⟩
  · have hr : Newer r recE := by
      obtain ⟨hp, -⟩ := ordered_iff.1 ho'
      rw [hq] at hp
      exact (List.pairwise_cons.1 hp).1 recE hmem
    refine ⟨hq ▸ List.mem_cons_of_mem _ hmem, hdone ▸ hdle, hle, fun r' hr' hlt => ?_, fun hlt => ?_,
      by rwa [hdone]⟩
    · rw [hq] at hr'
      rcases List.mem_cons.1 hr' with rfl | hr'
      · exact absurd hlt hr.1.not_gt
      · exact hmerge r' hr' hlt
    · obtain ⟨hlim, hgid, hold⟩ := hpart hlt
      refine ⟨hdone ▸ hlim, hdone ▸ hgid, fun r' hr' => ?_⟩
      rw [hq] at hr'
      rcases List.mem_cons.1 hr' with rfl | hr'
      · exact hr.1.le
      · exact hold r' hr'

theorem gid_lt_of_stop (h : EndSnapshot vol maxWlogSendPb recE lsidLimit)
    (hs : Stop vol recE lsidLimit lsidE) (hne : lsidE ≠ recE.lsid) :
    lsidE < recE.lsid ∧ vol.done.gid + 1 < recE.gid ∧ ∀ r, r ∈ vol.queue → recE.gid ≤ r.gid := by
  have hlt : lsidLimit < recE.lsid := by
    refine lt_of_le_of_ne h.le fun he => hne ?_
    rw [hs.complete he, he]
  exact ⟨hs.le_limit.trans_lt hlt, (h.partial_of_lt hlt).2⟩

/-- The end record is past the done record and jumps over no record of the
queue that is not mergeable. -/
theorem endRecord_spec (h : EndSnapshot vol maxWlogSendPb recE lsidLimit) (ho : vol.Ordered)
    (hs : Stop vol recE lsidLimit lsidE) :
    Newer (endRecord vol.done recE lsidE) vol.done ∧ (endRecord vol.done recE lsidE).lsid = lsidE ∧
      ∀ r, r ∈ vol.queue → r.isMergeable = false →
        (endRecord vol.done recE lsidE).gid < r.gid ∨
          (endRecord vol.done recE lsidE).gid = r.gid ∧
            (endRecord vol.done recE lsidE).isMergeable = false := by
  have hnewer := ho.newer h.mem
  unfold endRecord
  split_ifs with he
  · refine ⟨⟨hnewer.1, hs.done_le⟩, rfl, fun r hr hm => ?_⟩
    rcases lt_trichotomy recE.gid r.gid with hlt | heq | hgt
    · exact .inl hlt
    · rw [eq_of_gid (ordered_iff.1 ho).1 h.mem hr heq]
      exact .inr ⟨rfl, hm⟩
    · simp [h.isMergeable r hr hgt] at hm
  · obtain ⟨-, hgid, hold⟩ := h.gid_lt_of_stop hs he
    exact ⟨⟨Nat.lt_succ_self _, hs.done_le⟩, rfl, fun r hr _ => .inl (hgid.trans_le (hold r hr))⟩

theorem getTransferDiff_eq (h : EndSnapshot vol maxWlogSendPb recE lsidLimit)
    (hs : Stop vol recE lsidLimit lsidE) :
    getTransferDiff vol.done recE lsidE = .ok (.ofSnaps (.clean vol.done.gid)
      (.clean (endRecord vol.done recE lsidE).gid) vol.done.isMergeable recE.timestamp) := by
  unfold getTransferDiff endRecord
  split_ifs with he hg
  · rfl
  · exact absurd (h.gid_lt_of_stop hs he).2.1 (not_lt.2 hg)
  · rfl

theorem isOld_endRecord_iff (h : EndSnapshot vol maxWlogSendPb recE lsidLimit) (ho : vol.Ordered)
    (hs : Stop vol recE lsidLimit lsidE) {r : MetaLsidGid} (hr : r ∈ vol.queue) :
    isOld (endRecord vol.done recE lsidE) r = false ↔
      (endRecord vol.done recE lsidE).gid < r.gid := by
  obtain ⟨hq, -⟩ := ordered_iff.1 ho
  rw [Bool.eq_false_iff, Ne, isOld_iff]
  by_cases he : lsidE = recE.lsid
  · rw [endRecord, if_pos he]
    rcases lt_trichotomy recE.gid r.gid with hlt | heq | hgt
    · have hl := (newer_of_gid_lt hq h.mem hr hlt).2
      dsimp only
      omega
    · obtain rfl := eq_of_gid hq h.mem hr heq
      simp [he]
    · have hl := (newer_of_gid_lt hq hr h.mem hgt).2
      dsimp only
      omega
  · obtain ⟨hlt, hgid, hback⟩ := h.gid_lt_of_stop hs he
    have hg := hback r hr
    have hl : recE.lsid ≤ r.lsid := by
      rcases hg.eq_or_lt with heq | hlt
      · rw [eq_of_gid hq h.mem hr heq]
      · exact (newer_of_gid_lt hq h.mem hr hlt).2
    rw [endRecord, if_neg he]
    dsimp only
    omega

theorem finishWlogTransfer_eq (h : EndSnapshot vol maxWlogSendPb recE lsidLimit) (ho : vol.Ordered)
    (hs : Stop vol recE lsidLimit lsidE) :
    ∃ vol' isRemaining, finishWlogTransfer vol vol.done recE lsidE = .ok (vol', isRemaining) ∧
      vol'.Ordered ∧ vol'.done = endRecord vol.done recE lsidE ∧
      ∀ r, r ∈ vol'.queue ↔ r ∈ vol.queue ∧ (endRecord vol.done recE lsidE).gid < r.gid := by
  obtain ⟨hq, -⟩ := ordered_iff.1 ho
  have hpart : ¬(lsidE ≠ recE.lsid ∧ recE.gid ≤ vol.done.gid + 1) := fun hc =>
    absurd (h.gid_lt_of_stop hs hc.1).2.1 (not_lt.2 hc.2)
  have hmem : ∀ r, r ∈ vol.queue.filter (fun r => !isOld (endRecord vol.done recE lsidE) r) ↔
      r ∈ vol.queue ∧ (endRecord vol.done recE lsidE).gid < r.gid := by
    intro r
    rw [List.mem_filter, Bool.not_eq_true']
    exact and_congr_right fun hr => h.isOld_endRecord_iff ho hs hr
  let queue := vol.queue.filter fun r => !isOld (endRecord vol.done recE lsidE) r
  refine ⟨⟨endRecord vol.done recE lsidE, queue⟩, !queue.isEmpty, ?_,
    ordered_iff.2 ⟨hq.filter _, ?_⟩, rfl, hmem⟩
  · unfold finishWlogTransfer
    rw [if_neg (List.ne_nil_of_mem h.mem), if_neg (not_not.2 ⟨hs.done_le, hs.le_limit.trans h.le⟩),
      if_neg hpart]
    dsimp only
    rw [removeOldRecordsFromQueueFile_eq hq]
  · intro r hr
    obtain ⟨hr', hg⟩ := (hmem r).1 hr
    refine ⟨hg, ?_⟩
    have hold := (h.isOld_endRecord_iff ho hs hr').2 hg
    rw [Bool.eq_false_iff, Ne, isOld_iff] at hold
    dsimp only
    omega

end EndSnapshot

end WalbTools.StorageVol
