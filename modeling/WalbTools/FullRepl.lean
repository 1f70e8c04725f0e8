import WalbTools.DirtyFullSync
import WalbTools.Meta

namespace WalbTools.FullRepl

open Meta Overlay WriteBack DirtyFullSync

structure FullReplState where
  progressLb : Nat
  metaSt : MetaState

structure Config where
  isThinpool : Bool
  doAutoResize : Bool
  fsyncIntervalSize : Nat

/-- What the client sends first. Its `bulkLb` comes from `parseBulkLb`. -/
structure Request (υ : Type) where
  sizeLb : Nat
  bulkLb : Nat
  archiveUuid : υ
  metaSt : MetaState
  bulkLb_lt : bulkLb < 2 ^ 23

structure Lv (β : Type) where
  sizeLb : Nat
  blocks : Store Nat β

structure Volume (υ β : Type) where
  archiveUuid : υ
  fullReplSt : Option FullReplState
  lv : Option (Lv β)

/-- The images of the source archives, each named by its uuid and meta state. -/
structure Source (υ β : Type) where
  image : υ → MetaState → Nat → β
  image_eq : ∀ u st st', st.opEq st' → image u st = image u st'

variable {υ β ω : Type} (cfg : Config) (zero : β)

/-- The new area is not cleared. -/
def growLv (lv : Lv β) (newSizeLb : Nat) (fresh : Nat → β) : Lv β :=
  ⟨newSizeLb, lv.blocks.write fun a => if lv.sizeLb ≤ a then some (fresh a) else none⟩

def doAutoResizeIfNecessary (v : Volume υ β) (sizeLb : Nat) (fresh : Nat → β) : Volume υ β :=
  match v.lv with
  | none => v
  | some lv =>
      if cfg.doAutoResize ∧ lv.sizeLb < sizeLb then { v with lv := some (growLv lv sizeLb fresh) }
        else v

def verifyVolumeSize (lv : Option (Lv β)) (sizeLb : Nat) : Except String Unit :=
  match lv with
  | none => .ok ()
  | some lv =>
      if sizeLb > lv.sizeLb then .error "verifyVolumeSize:volume size is smaller than the received size"
      else .ok ()

def accept (v : Volume υ β) (r : Request υ) (fresh : Nat → β) : Except String (Volume υ β) :=
  if r.sizeLb = 0 then .error "runFullReplServer:sizeLb must not be 0"
  else if r.bulkLb = 0 then .error "runFullReplServer:bulkLb must not be 0"
  else
    match verifyVolumeSize (doAutoResizeIfNecessary cfg v r.sizeLb fresh).lv r.sizeLb with
    | .error e => .error e
    | .ok _ => .ok (doAutoResizeIfNecessary cfg v r.sizeLb fresh)

def discard (blocks : Store Nat β) (sizeLb : Nat) : Store Nat β :=
  (blocks.write fun a => if a < sizeLb then some zero else none).flush

/-- An existing volume is kept; a thin one is deallocated. -/
def createLv (sizeLb : Nat) (fresh : Nat → β) : Option (Lv β) → Except String (Lv β)
  | none => .ok ⟨sizeLb, .settled (if cfg.isThinpool then fun _ => zero else fresh)⟩
  | some lv =>
      if lv.sizeLb ≠ sizeLb then .error "ArchiveVolInfo::createLv:sizeLb is different"
      else .ok (if cfg.isThinpool then ⟨lv.sizeLb, discard zero lv.blocks lv.sizeLb⟩ else lv)

section

variable {cfg zero} {v w : Volume υ β} {r : Request υ} {fresh : Nat → β} {lv : Lv β} {st : FullReplState}

theorem accept_eq (h : accept cfg v r fresh = .ok w) :
    w = doAutoResizeIfNecessary cfg v r.sizeLb fresh := by
  unfold accept at h
  split_ifs at h
  split at h
  · cases h
  · cases h
    rfl

theorem accept_archiveUuid (h : accept cfg v r fresh = .ok w) : w.archiveUuid = v.archiveUuid := by
  rw [accept_eq h, doAutoResizeIfNecessary]
  split
  · rfl
  · split_ifs <;> rfl

theorem accept_fullReplSt (h : accept cfg v r fresh = .ok w) : w.fullReplSt = v.fullReplSt := by
  rw [accept_eq h, doAutoResizeIfNecessary]
  split
  · rfl
  · split_ifs <;> rfl

theorem accept_lv (h : accept cfg v r fresh = .ok w) (hlv : v.lv = some lv) :
    ∃ lv', w.lv = some lv' ∧ lv.sizeLb ≤ lv'.sizeLb ∧
      ∀ a b, a < lv.sizeLb → lv.blocks.Holds a b → lv'.blocks.Holds a b := by
  rw [accept_eq h, doAutoResizeIfNecessary, hlv]
  change ∃ lv', (if cfg.doAutoResize = true ∧ lv.sizeLb < r.sizeLb then _ else v).lv = _ ∧ _
  split_ifs with hg
  · exact ⟨_, rfl, hg.2.le, fun a b ha hb => hb.write (.inl (if_neg (not_le.2 ha)))⟩
  · exact ⟨lv, hlv, le_rfl, fun _ _ _ hb => hb⟩

theorem createLv_sizeLb {lv' : Lv β} {o : Option (Lv β)} {sizeLb : Nat}
    (h : createLv cfg zero sizeLb fresh o = .ok lv') : lv'.sizeLb = sizeLb := by
  cases o with
  | none =>
      cases h
      rfl
  | some lv =>
      rw [createLv] at h
      split_ifs at h with hs ht
      · cases h
        exact not_not.1 hs
      · cases h
        exact not_not.1 hs

theorem createLv_thin {lv' : Lv β} {o : Option (Lv β)} {sizeLb : Nat} (hthin : cfg.isThinpool = true)
    (h : createLv cfg zero sizeLb fresh o = .ok lv') {a : Nat} (ha : a < sizeLb) :
    lv'.blocks.now a = zero := by
  cases o with
  | none =>
      cases h
      simp [hthin]
  | some lv =>
      rw [createLv] at h
      split_ifs at h with hs
      cases h
      rw [not_not.1 hs, discard, Store.flush_now, Store.write_now, Overlay.write, if_pos ha]
      rfl

theorem createLv_some {lv lv' : Lv β} {sizeLb : Nat} (hthin : cfg.isThinpool = false)
    (h : createLv cfg zero sizeLb fresh (some lv) = .ok lv') : lv' = lv := by
  rw [createLv, hthin] at h
  split_ifs at h with hs ht
  · cases ht
  · cases h
    rfl

end

inductive Outcome where
  | rejected
  /-- With the progress that the attempt has saved, if any. -/
  | interrupted (saved : Option Nat)
  | completed

variable (src : Source υ β)

def Saved (v : Volume υ β) : Prop :=
  ∀ st, v.fullReplSt = some st → ∃ lv, v.lv = some lv ∧ st.progressLb ≤ lv.sizeLb ∧
    ∀ a, a < st.progressLb → lv.blocks.Holds a (src.image v.archiveUuid st.metaSt a)

section

variable {cfg zero src} {v w : Volume υ β} {r : Request υ} {fresh : Nat → β} {lv : Lv β}

theorem Saved.accept (hs : Saved src v) (h : accept cfg v r fresh = .ok w) : Saved src w := by
  intro st hst
  obtain ⟨lv, hlv, hle, hh⟩ := hs st (accept_fullReplSt h ▸ hst)
  obtain ⟨lv', hlv', hsize, hkeep⟩ := accept_lv h hlv
  exact ⟨lv', hlv', hle.trans hsize, fun a ha =>
    hkeep a _ (ha.trans_le hle) (accept_archiveUuid h ▸ hh a ha)⟩

theorem Saved.crash {blocks : Store Nat β} (hs : Saved src v) (hlv : v.lv = some lv)
    (hb : blocks.Within lv.blocks) :
    Saved src { v with lv := some ⟨lv.sizeLb, blocks⟩ } := by
  intro st hst
  obtain ⟨lv', hlv', hle, hh⟩ := hs st hst
  obtain rfl := Option.some.inj (hlv.symm.trans hlv')
  exact ⟨_, rfl, hle, fun a ha => (hh a ha).within hb⟩

end

def Resumes (v : Volume υ β) (r : Request υ) : Prop :=
  ∃ st, v.fullReplSt = some st ∧ r.archiveUuid = v.archiveUuid ∧ r.metaSt.opEq st.metaSt ∧
    st.progressLb ≤ r.sizeLb

variable {cfg} in
theorem accept_resumes {v w : Volume υ β} {r : Request υ} {fresh : Nat → β}
    (h : accept cfg v r fresh = .ok w) :
    Resumes w r ↔ Resumes v r := by
  rw [Resumes, Resumes, accept_archiveUuid h, accept_fullReplSt h]

section Resume

variable [DecidableEq υ]

/-- The state to continue from; its `progressLb` is the `startLb` of the sync. -/
def initFullReplResume (v : Volume υ β) (r : Request υ) : FullReplState :=
  match v.fullReplSt with
  | some st =>
      if r.archiveUuid = v.archiveUuid ∧ r.metaSt.opEq st.metaSt ∧ st.progressLb ≤ r.sizeLb then st
      else ⟨0, r.metaSt⟩
  | none => ⟨0, r.metaSt⟩

theorem initFullReplResume_le (v : Volume υ β) (r : Request υ) :
    (initFullReplResume v r).progressLb ≤ r.sizeLb := by
  unfold initFullReplResume
  split
  · split_ifs with h
    · exact h.2.2
    · exact Nat.zero_le _
  · exact Nat.zero_le _

section

variable {cfg} {v w : Volume υ β} {r : Request υ} {fresh : Nat → β} {st : FullReplState}

theorem initFullReplResume_of_resumes (hst : v.fullReplSt = some st) (h : Resumes v r) :
    initFullReplResume v r = st := by
  obtain ⟨st', hst', h⟩ := h
  rw [hst] at hst'
  cases hst'
  rw [initFullReplResume, hst]
  exact if_pos h

theorem initFullReplResume_of_not_resumes (h : ¬Resumes v r) :
    initFullReplResume v r = ⟨0, r.metaSt⟩ := by
  unfold initFullReplResume
  split
  · rename_i st hst
    exact if_neg fun hr => h ⟨st, hst, hr⟩
  · rfl

theorem opEq_initFullReplResume (v : Volume υ β) (r : Request υ) :
    r.metaSt.opEq (initFullReplResume v r).metaSt := by
  by_cases hr : Resumes v r
  · have hr' := hr
    obtain ⟨st, hst, -, hmeta, -⟩ := hr
    rwa [initFullReplResume_of_resumes hst hr']
  · rw [initFullReplResume_of_not_resumes hr]
    exact ⟨rfl, rfl, fun _ => rfl⟩

theorem accept_initFullReplResume (h : accept cfg v r fresh = .ok w) :
    initFullReplResume w r = initFullReplResume v r := by
  rw [initFullReplResume, initFullReplResume, accept_archiveUuid h, accept_fullReplSt h]

end

def args (v : Volume υ β) (r : Request υ) (h : 0 < r.bulkLb) : Args :=
  ⟨(initFullReplResume v r).progressLb, r.sizeLb, r.bulkLb, initFullReplResume_le v r, h, r.bulkLb_lt⟩

def serverArgs : ServerArgs := ⟨cfg.isThinpool, cfg.fsyncIntervalSize, true⟩

def stateFile (v : Volume υ β) (r : Request υ) (saved : Option Nat) : Option FullReplState :=
  match saved with
  | none => v.fullReplSt
  | some n => some ⟨n, (initFullReplResume v r).metaSt⟩

section

variable {cfg zero src} {w : Volume υ β} {r : Request υ} {fresh : Nat → β} {lv : Lv β}

theorem Saved.holds_below (hs : Saved src w)
    (hthin : cfg.isThinpool = false) (hlv : createLv cfg zero r.sizeLb fresh w.lv = .ok lv) {a : Nat}
    (ha : a < (initFullReplResume w r).progressLb) :
    lv.blocks.Holds a (src.image r.archiveUuid r.metaSt a) := by
  by_cases hr : Resumes w r
  · obtain ⟨st, hst, huuid, hmeta, hle⟩ := hr
    rw [initFullReplResume_of_resumes hst ⟨st, hst, huuid, hmeta, hle⟩] at ha
    obtain ⟨lv', hlv', -, hh⟩ := hs st hst
    rw [hlv'] at hlv
    rw [createLv_some hthin hlv, huuid, src.image_eq _ _ _ hmeta]
    exact hh a ha
  · rw [initFullReplResume_of_not_resumes hr] at ha
    exact absurd ha (Nat.not_lt_zero a)

/-- A progress that the attempt saves is backed by the volume; a progress that it
does not replace is one that it has kept the promise of. -/
theorem Saved.inStep (hs : Saved src w) (hthin : cfg.isThinpool = false) (hb : 0 < r.bulkLb)
    (hlv : createLv cfg zero r.sizeLb fresh w.lv = .ok lv) {remainingLb : Nat} {buf : List β}
    {t : Server β}
    (hin : InStep zero (args w r hb) (serverArgs cfg) (src.image r.archiveUuid r.metaSt) lv.blocks
      remainingLb buf t)
    (hns : t.saved = none → w.fullReplSt = none ∨ Resumes w r) :
    Saved src ⟨r.archiveUuid, stateFile w r t.saved, some ⟨lv.sizeLb, t.blocks⟩⟩ := by
  have hbelow : ∀ a, a < (initFullReplResume w r).progressLb →
      t.blocks.Holds a (src.image r.archiveUuid r.metaSt a) :=
    fun a ha => hin.below a _ ha (hs.holds_below hthin hlv ha)
  have hsize := createLv_sizeLb hlv
  intro st hst
  refine ⟨_, rfl, ?_⟩
  cases hsaved : t.saved with
  | some n =>
      obtain ⟨-, hle, hh⟩ := hin.saved n hsaved
      rw [hsaved] at hst
      cases hst
      change n ≤ lv.sizeLb ∧ ∀ a, a < n →
        t.blocks.Holds a (src.image r.archiveUuid (initFullReplResume w r).metaSt a)
      rw [← src.image_eq _ _ _ (opEq_initFullReplResume w r)]
      have hprog : t.progressLb = r.sizeLb - remainingLb := hin.progress
      refine ⟨by omega, fun a ha => ?_⟩
      by_cases hstart : a < (initFullReplResume w r).progressLb
      · exact hbelow a hstart
      · exact hh a (not_lt.1 hstart) ha
  | none =>
      rw [hsaved] at hst
      replace hst : w.fullReplSt = some st := hst
      have hr := (hns hsaved).resolve_left (by simp [hst])
      have he := initFullReplResume_of_resumes hst hr
      have hmeta := opEq_initFullReplResume w r
      have hle := initFullReplResume_le w r
      rw [he] at hmeta hle hbelow
      refine ⟨hsize ▸ hle, fun a ha => ?_⟩
      change t.blocks.Holds a (src.image r.archiveUuid st.metaSt a)
      rw [← src.image_eq _ _ _ hmeta]
      exact hbelow a ha

end

end Resume

variable [DecidableEq υ] [DecidableEq β] (C : Snappy β ω)

def messages (v : Volume υ β) (r : Request υ) (h : 0 < r.bulkLb) (buf : List β) : List (List ω) :=
  dirtyFullSyncClient C zero (args v r h) (src.image r.archiveUuid r.metaSt) buf

/-- `runFullReplServer` up to where it is interrupted, or to its end. -/
inductive Attempt (r : Request υ) : Volume υ β → Outcome → Volume υ β → Prop
  | rejected {v : Volume υ β} {fresh : Nat → β} {e : String} (h : accept cfg v r fresh = .error e) :
      Attempt r v .rejected v
  | setArchiveUuid {v w : Volume υ β} {fresh : Nat → β} (h : accept cfg v r fresh = .ok w) :
      Attempt r v (.interrupted none) { w with archiveUuid := r.archiveUuid }
  | discarding {v w : Volume υ β} {fresh : Nat → β} {lv : Lv β} {f : Nat → Option β}
      (h : accept cfg v r fresh = .ok w) (hlv : w.lv = some lv) (hsize : lv.sizeLb = r.sizeLb)
      (hthin : cfg.isThinpool = true) (hf : ∀ a, f a = none ∨ f a = some zero) :
      Attempt r v (.interrupted none) ⟨r.archiveUuid, w.fullReplSt, some ⟨lv.sizeLb, lv.blocks.write f⟩⟩
  | syncing {v w : Volume υ β} {fresh : Nat → β} {lv : Lv β} {buf : List β} {t : Server β}
      {rest : List (List ω)}
      (h : accept cfg v r fresh = .ok w) (hb : 0 < r.bulkLb)
        (hlv : createLv cfg zero r.sizeLb fresh w.lv = .ok lv)
      (hbuf : buf.length = r.bulkLb)
      (hr : Server.Reaches C zero (args w r hb) (serverArgs cfg) (.start (args w r hb) lv.blocks)
        (messages zero src C w r hb buf) t rest) :
      Attempt r v (.interrupted t.saved) ⟨r.archiveUuid, stateFile w r t.saved,
        some ⟨lv.sizeLb, t.blocks⟩⟩
  | receiving {v w : Volume υ β} {fresh : Nat → β} {lv : Lv β} {buf : List β} {t t' : Server β}
      {msg : List ω}
      {rest : List (List ω)}
      (h : accept cfg v r fresh = .ok w) (hb : 0 < r.bulkLb)
        (hlv : createLv cfg zero r.sizeLb fresh w.lv = .ok lv)
      (hbuf : buf.length = r.bulkLb)
      (hr : Server.Reaches C zero (args w r hb) (serverArgs cfg) (.start (args w r hb) lv.blocks)
        (messages zero src C w r hb buf) t (msg :: rest))
      (ht : 0 < t.remainingLb) (ht' : t.receive C zero (args w r hb) (serverArgs cfg) msg = .ok t') :
      Attempt r v (.interrupted t'.saved) ⟨r.archiveUuid, stateFile w r t'.saved,
        some ⟨lv.sizeLb, t'.blocks⟩⟩
  | completed {v w : Volume υ β} {fresh : Nat → β} {lv : Lv β} {buf : List β} {t : Server β}
      {rest : List (List ω)}
      (h : accept cfg v r fresh = .ok w) (hb : 0 < r.bulkLb)
        (hlv : createLv cfg zero r.sizeLb fresh w.lv = .ok lv)
      (hbuf : buf.length = r.bulkLb)
      (ht : dirtyFullSyncServer C zero (args w r hb) (serverArgs cfg) lv.blocks
        (messages zero src C w r hb buf) = .ok (t, rest)) :
      Attempt r v .completed ⟨r.archiveUuid, none, some ⟨lv.sizeLb, t.blocks⟩⟩

structure Step (υ β : Type) where
  pre : Volume υ β
  request : Request υ
  outcome : Outcome
  post : Volume υ β

/-- Attempts one after another, from a volume without a saved progress. Crashes
may come at any time between them, and after an interruption. -/
inductive Run : List (Step υ β) → Volume υ β → Prop
  | init {v : Volume υ β} (h : v.fullReplSt = none) : Run [] v
  | attempt {l : List (Step υ β)} {v v' : Volume υ β} {r : Request υ} {o : Outcome} (h : Run l v)
      (ha : Attempt cfg zero src C r v o v') : Run (l ++ [⟨v, r, o, v'⟩]) v'
  | crash {l : List (Step υ β)} {v : Volume υ β} {lv : Lv β} {blocks : Store Nat β} (h : Run l v)
      (hlv : v.lv = some lv) (hb : blocks.Within lv.blocks) : Run l
        { v with lv := some ⟨lv.sizeLb, blocks⟩ }

def Complete (e : Step υ β) : Prop :=
  ∀ lv, e.post.lv = some lv →
    ∀ a, a < e.request.sizeLb → lv.blocks.now a = src.image e.request.archiveUuid e.request.metaSt a

/-- What a thin volume has at completion below the address it continued from. -/
def ZeroBelow (e : Step υ β) : Prop :=
  ∀ a, a < (initFullReplResume e.pre e.request).progressLb →
    src.image e.request.archiveUuid e.request.metaSt a = zero

/-- An attempt that starts over with the progress of another one saved replaces
that progress by its own, or completes. -/
def NoStale (e : Step υ β) : Prop :=
  e.outcome = .interrupted none → e.pre.fullReplSt = none ∨ Resumes e.pre e.request

variable {cfg zero src C} {v v' w : Volume υ β} {r : Request υ} {fresh : Nat → β} {lv : Lv β}
  {o : Outcome}

theorem reaches_inStep (hC : C.Lawful) (hb : 0 < r.bulkLb)
    (hlv : createLv cfg zero r.sizeLb fresh w.lv = .ok lv)
    {buf : List β} (hbuf : buf.length = r.bulkLb) {t : Server β} {rest : List (List ω)}
    (hr : Server.Reaches C zero (args w r hb) (serverArgs cfg) (.start (args w r hb) lv.blocks)
      (messages zero src C w r hb buf) t rest) :
    ∃ remainingLb buf', InStep zero (args w r hb) (serverArgs cfg)
      (src.image r.archiveUuid r.metaSt) lv.blocks
        remainingLb buf' t ∧
      rest = clientLoop C zero (args w r hb) (src.image r.archiveUuid r.metaSt) buf' remainingLb :=
  hr.inStep hC (inStep_start hbuf fun hthin _ _ ha => createLv_thin hthin hlv ha) rfl

/-- On a volume that is not thin an attempt keeps the promise of the state file. -/
theorem Attempt.saved (hC : C.Lawful) (hthin : cfg.isThinpool = false)
    (h : Attempt cfg zero src C r v o v')
    (hs : Saved src v) (hns : NoStale ⟨v, r, o, v'⟩) : Saved src v' := by
  cases h with
  | rejected => exact hs
  | setArchiveUuid h =>
      intro st hst
      rcases hns rfl with hnone | hr
      · rw [accept_fullReplSt h, hnone] at hst
        cases hst
      · obtain ⟨st', hst', huuid, -⟩ := hr
        obtain ⟨lv, hlv, hle, hh⟩ := hs.accept h st hst
        refine ⟨lv, hlv, hle, ?_⟩
        rwa [accept_archiveUuid h, ← huuid] at hh
  | discarding _ _ _ ht =>
      rw [hthin] at ht
      cases ht
  | syncing h hb hlv hbuf hr =>
      obtain ⟨remainingLb, buf', hin, -⟩ := reaches_inStep hC hb hlv hbuf hr
      refine (hs.accept h).inStep hthin hb hlv hin fun hnone => ?_
      rw [accept_fullReplSt h, accept_resumes h]
      exact hns (congrArg Outcome.interrupted hnone)
  | receiving h hb hlv hbuf hr ht ht' =>
      obtain ⟨remainingLb, buf', hin, hrest⟩ := reaches_inStep hC hb hlv hbuf hr
      rw [hin.remaining] at ht
      rw [hin.clientLoop_eq ht] at hrest
      cases hrest
      refine (hs.accept h).inStep hthin hb hlv (hin.received hC ht ht') fun hnone => ?_
      rw [accept_fullReplSt h, accept_resumes h]
      exact hns (congrArg Outcome.interrupted hnone)
  | completed =>
      intro st hst
      cases hst

theorem completed_now (hC : C.Lawful) (h : Attempt cfg zero src C r v .completed v') :
    ∃ w fresh lv lv', accept cfg v r fresh = .ok w ∧ createLv cfg zero r.sizeLb fresh w.lv = .ok lv ∧
      v'.lv = some lv' ∧ ∀ a, a < r.sizeLb → lv'.blocks.now a =
        if (initFullReplResume v r).progressLb ≤ a then src.image r.archiveUuid r.metaSt a
        else lv.blocks.now a := by
  cases h with
  | completed h hb hlv hbuf ht =>
      refine ⟨_, _, _, _, h, hlv, rfl, fun a ha => ?_⟩
      rw [← accept_initFullReplResume h]
      refine (now_of_dirtyFullSyncServer hC hbuf (fun hthin _ _ ha => createLv_thin hthin hlv ha) ht
        a).trans ?_
      exact if_congr (and_iff_left ha) rfl rfl

theorem Attempt.complete_iff_zeroBelow (hC : C.Lawful) (hthin : cfg.isThinpool = true)
    (h : Attempt cfg zero src C r v .completed v') :
    Complete src ⟨v, r, .completed, v'⟩ ↔ ZeroBelow zero src ⟨v, r, .completed, v'⟩ := by
  obtain ⟨w, fresh, lv, lv', -, hlv, hv', hnow⟩ := completed_now hC h
  have hle := initFullReplResume_le v r
  constructor
  · intro hc a ha
    have hlt : a < (initFullReplResume v r).progressLb := ha
    rw [← hc lv' hv' a (hlt.trans_le hle), hnow a (hlt.trans_le hle), if_neg (not_le.2 hlt)]
    exact createLv_thin hthin hlv (hlt.trans_le hle)
  · intro hz lv'' hv'' a ha
    obtain rfl := Option.some.inj (hv'.symm.trans hv'')
    rw [hnow a ha]
    split_ifs with hge
    · rfl
    · exact (createLv_thin hthin hlv ha).trans (hz a (not_le.1 hge)).symm

theorem Attempt.complete_of_saved (hC : C.Lawful) (hthin : cfg.isThinpool = false)
    (h : Attempt cfg zero src C r v .completed v') (hs : Saved src v) :
    Complete src ⟨v, r, .completed, v'⟩ := by
  obtain ⟨w, fresh, lv, lv', hacc, hlv, hv', hnow⟩ := completed_now hC h
  intro lv'' hv'' a ha
  obtain rfl := Option.some.inj (hv'.symm.trans hv'')
  rw [hnow a ha]
  split_ifs with hge
  · rfl
  · rw [← accept_initFullReplResume hacc] at hge
    exact ((hs.accept hacc).holds_below hthin hlv (not_le.1 hge)).now

theorem Run.saved (hC : C.Lawful) (hthin : cfg.isThinpool = false) {l : List (Step υ β)}
    (h : Run cfg zero src C l v) (hns : ∀ e, e ∈ l → NoStale e) : Saved src v := by
  induction h with
  | init h =>
      intro st hst
      rw [h] at hst
      cases hst
  | attempt _ ha ih =>
      exact ha.saved hC hthin (ih fun e he => hns e (List.mem_append_left _ he))
        (hns _ (List.mem_append_right _ (List.mem_singleton.2 rfl)))
  | crash _ hlv hb ih => exact (ih hns).crash hlv hb

/-- Whenever full replication completes, the target is the source: on a thin
volume if and only if the source is zero below the address that was continued
from, and otherwise in every run that leaves no stale progress behind. -/
theorem Run.complete_of_completed (hC : C.Lawful) {l : List (Step υ β)} (h : Run cfg zero src C l v) :
    (cfg.isThinpool = true →
      ∀ e, e ∈ l → e.outcome = .completed → (Complete src e ↔ ZeroBelow zero src e)) ∧
    (cfg.isThinpool = false → (∀ e, e ∈ l → NoStale e) →
      ∀ e, e ∈ l → e.outcome = .completed → Complete src e) := by
  induction h with
  | init => exact ⟨fun _ e he => (List.not_mem_nil he).elim, fun _ _ e he => (List.not_mem_nil he).elim⟩
  | crash _ _ _ ih => exact ih
  | attempt h ha ih =>
      constructor
      · intro hthin e he ho
        rcases List.mem_append.1 he with he | he
        · exact ih.1 hthin e he ho
        · obtain rfl := List.mem_singleton.1 he
          obtain rfl : _ = Outcome.completed := ho
          exact ha.complete_iff_zeroBelow hC hthin
      · intro hthin hns e he ho
        have hns' : ∀ e, e ∈ _ → NoStale e := fun e he => hns e (List.mem_append_left _ he)
        rcases List.mem_append.1 he with he | he
        · exact ih.2 hthin hns' e he ho
        · obtain rfl := List.mem_singleton.1 he
          obtain rfl : _ = Outcome.completed := ho
          exact ha.complete_of_saved hC hthin (h.saved hC hthin hns')

def numbered : Source Nat Nat := ⟨fun u _ a => u + a, fun _ _ _ _ => rfl⟩

def twoBlocks : Request Nat := ⟨2, 1, 1, .ofSnap (.clean 0) 0, by decide⟩

theorem messages_twoBlocks {v : Volume Nat Nat} (hb : 0 < twoBlocks.bulkLb)
    (h : (initFullReplResume v twoBlocks).progressLb = 0) :
    messages 0 numbered literal v twoBlocks hb [7] = [[1, 1], [1, 2]] := by
  change clientLoop literal 0 (args v twoBlocks hb) _ [7]
    (2 - (initFullReplResume v twoBlocks).progressLb) = _
  have hlb : (args v twoBlocks hb).chunkLb 2 = 1 := rfl
  rw [h, Nat.sub_zero, clientLoop_of_pos (by decide), hlb, clientLoop_of_pos (by decide)]
  exact congrArg _ (congrArg _ clientLoop_zero)

theorem messages_twoBlocks_rest {v : Volume Nat Nat} (hb : 0 < twoBlocks.bulkLb)
    (h : (initFullReplResume v twoBlocks).progressLb = 1) :
    messages 0 numbered literal v twoBlocks hb [7] = [[1, 2]] := by
  change clientLoop literal 0 (args v twoBlocks hb) _ [7]
    (2 - (initFullReplResume v twoBlocks).progressLb) = _
  rw [h, clientLoop_of_pos (by decide)]
  exact congrArg _ clientLoop_zero

/-- The first attempt saves the progress 1 and is interrupted; the next completes. -/
theorem run_twoBlocks (thin : Bool) :
    ∃ v v', Run ⟨thin, false, 1⟩ 0 numbered literal
        [⟨⟨0, none, none⟩, twoBlocks, .interrupted (some 1), v⟩, ⟨v, twoBlocks, .completed, v'⟩] v' ∧
      v'.lv.map (fun lv => lv.blocks.now 0) = some (if thin then 0 else 1) := by
  have h₀ : accept ⟨thin, false, 1⟩ (⟨0, none, none⟩ : Volume Nat Nat) twoBlocks (fun _ => 9) =
      .ok ⟨0, none, none⟩ := rfl
  have hb : 0 < twoBlocks.bulkLb := by decide
  obtain ⟨t, ht, hs, hnow⟩ : ∃ t, Server.turn literal 0
    (args (⟨0, none, none⟩ : Volume Nat Nat) twoBlocks hb)
      (serverArgs ⟨thin, false, 1⟩)
      (.start (args (⟨0, none, none⟩ : Volume Nat Nat) twoBlocks hb)
        (.settled (if thin then fun _ => 0 else fun _ => 9))) [1, 1] = .ok t ∧
      t.saved = some 1 ∧ t.blocks.now 0 = 1 := ⟨_, rfl, rfl, rfl⟩
  have hbuf : ([7] : List Nat).length = twoBlocks.bulkLb := rfl
  have hr : Server.Reaches literal 0 (args (⟨0, none, none⟩ : Volume Nat Nat) twoBlocks hb)
      (serverArgs ⟨thin, false, 1⟩)
      (.start (args (⟨0, none, none⟩ : Volume Nat Nat) twoBlocks hb)
        (.settled (if thin then fun _ => 0 else fun _ => 9)))
      (messages 0 numbered literal ⟨0, none, none⟩ twoBlocks hb [7]) t [[1, 2]] := by
    rw [messages_twoBlocks hb rfl]
    exact .turn (show 0 < 2 by decide) ht (.refl t _)
  have h₁ : Attempt ⟨thin, false, 1⟩ 0 numbered literal twoBlocks ⟨0, none, none⟩ _ _ :=
    .syncing h₀ hb rfl hbuf hr
  rw [hs] at h₁
  -- The second attempt starts at block 1, on a volume that a thin server has deallocated.
  let w : Volume Nat Nat := ⟨1, some ⟨1, twoBlocks.metaSt⟩, some ⟨2, t.blocks⟩⟩
  have h₂ : accept ⟨thin, false, 1⟩ w twoBlocks (fun _ => 9) = .ok w := rfl
  obtain ⟨lv, hlv, hnow'⟩ : ∃ lv, createLv ⟨thin, false, 1⟩ 0 twoBlocks.sizeLb (fun _ => 9) w.lv =
      .ok lv ∧
        lv.blocks.now 0 = if thin then 0 else 1 := by
    cases thin with
    | false => exact ⟨⟨2, t.blocks⟩, rfl, hnow⟩
    | true => exact ⟨⟨2, discard 0 t.blocks 2⟩, rfl, rfl⟩
  obtain ⟨t', ht', hkeep⟩ : ∃ t', dirtyFullSyncServer literal 0 (args w twoBlocks hb)
    (serverArgs ⟨thin, false, 1⟩)
      lv.blocks [[1, 2]] = .ok (t', []) ∧ t'.blocks.now 0 = lv.blocks.now 0 := ⟨_, rfl, rfl⟩
  rw [← messages_twoBlocks_rest (v := w) hb rfl] at ht'
  have h₃ : Attempt ⟨thin, false, 1⟩ 0 numbered literal twoBlocks w _ _ := .completed h₂ hb hlv hbuf ht'
  exact ⟨_, _, ((Run.init rfl).attempt h₁).attempt h₃, congrArg some (hkeep.trans hnow')⟩

theorem Run.complete_of_completed_twoBlocks :
    ∃ v v', Complete numbered ⟨v, twoBlocks, .completed, v'⟩ ∧
      ∃ v₀, Run ⟨false, false, 1⟩ 0 numbered literal
        [⟨v₀, twoBlocks, .interrupted (some 1), v⟩, ⟨v, twoBlocks, .completed, v'⟩] v' := by
  obtain ⟨v, v', h, -⟩ := run_twoBlocks false
  refine ⟨v, v', (Run.complete_of_completed literal_lawful h).2 rfl (fun e he => ?_) _ (by simp)
    rfl, _, h⟩
  rcases List.mem_pair.1 he with rfl | rfl
  · intro ho
    cases ho
  · intro ho
    cases ho

/-- On a thin volume the second attempt discards what the first has copied. -/
theorem thin_resume_incomplete :
    ∃ v v', (∃ v₀, Run ⟨true, false, 1⟩ 0 numbered literal
        [⟨v₀, twoBlocks, .interrupted (some 1), v⟩, ⟨v, twoBlocks, .completed, v'⟩] v') ∧
      ¬Complete numbered ⟨v, twoBlocks, .completed, v'⟩ := by
  obtain ⟨v, v', h, hnow⟩ := run_twoBlocks true
  refine ⟨v, v', ⟨_, h⟩, fun hc => ?_⟩
  obtain ⟨lv, hlv, h0⟩ := Option.map_eq_some_iff.1 hnow
  have h1 : lv.blocks.now 0 = 1 := hc lv hlv 0 (show 0 < 2 by decide)
  rw [h1] at h0
  cases h0

end WalbTools.FullRepl
