import Mathlib
import WalbTools.StorageVol

namespace WalbTools.WlogTransfer

open Meta StorageVol

/-- A diff sent to a proxy, with the records it was made from and the end of the
log range it carries. -/
structure Transfer where
  recB : MetaLsidGid
  recE : MetaLsidGid
  maxWlogSendPb : Nat
  lsidE : Nat
  diff : MetaDiff

/-- A transfer between `prepareWlogTransfer` and `finishWlogTransfer`. -/
structure Pending where
  recB : MetaLsidGid
  recE : MetaLsidGid
  lsidLimit : Nat
  maxWlogSendPb : Nat

/-- The storage with its history: all diffs sent, the finished ones among them
(both the latest first), and the gids of the explicit snapshots. -/
structure Storage where
  vol : StorageVolInfo
  lsids : LsidSet
  pending : Option Pending
  sent : List Transfer
  finished : List Transfer
  snaps : List Nat

def Storage.reset (gid now : Nat) : Storage := ⟨resetWlog gid now, ⟨0, 0⟩, none, [], [], []⟩

inductive Op where
  | write (lsids : LsidSet)
  | takeSnapshot (maxWlogSendPb : Nat) (isOverflow : Bool) (now : Nat)
  | prepare (maxWlogSendPb intervalSec : Nat) (isOverflow : Bool) (now : Nat)
  | send (lsidE : Nat) (isAcked : Bool)
  | abort

/-- `extractAndSendAndDeleteWlog` from the diff on: without an acknowledgement
the transfer is not finished. -/
def send (s : Storage) (p : Pending) (lsidE : Nat) (isAcked : Bool) : Storage × Option Failure :=
  match getTransferDiff p.recB p.recE lsidE with
  | .error e => ({ s with pending := none }, some e)
  | .ok diff =>
      let t : Transfer := ⟨p.recB, p.recE, p.maxWlogSendPb, lsidE, diff⟩
      let s := { s with pending := none, sent := t :: s.sent }
      if isAcked = false then (s, some (.exception "no acknowledgement"))
      else
        match finishWlogTransfer s.vol p.recB p.recE lsidE with
        | .error e => (s, some e)
        | .ok (vol, _) => ({ s with vol := vol, finished := t :: s.finished }, none)

/-- The state after an operation and the failure that ended it, if any. -/
def Op.exec (s : Storage) : Op → Storage × Option Failure
  | .write lsids => ({ s with lsids := lsids }, none)
  | .takeSnapshot maxWlogSendPb isOverflow now =>
      match StorageVol.takeSnapshot s.vol maxWlogSendPb isOverflow s.lsids.latest now with
      | .error e => (s, some e)
      | .ok (vol, gid) => ({ s with vol := vol, snaps := gid :: s.snaps }, none)
  | .prepare maxWlogSendPb intervalSec isOverflow now =>
      match prepareWlogTransfer s.vol maxWlogSendPb intervalSec isOverflow s.lsids now with
      | (vol, .error e) => ({ s with vol := vol, pending := none }, some e)
      | (vol, .ok p) =>
          let pending := if p.doLater then none else some ⟨p.recB, p.recE, p.lsidLimit, maxWlogSendPb⟩
          ({ s with vol := vol, pending := pending }, none)
  | .send lsidE isAcked =>
      match s.pending with
      | none => (s, none)
      | some p => WlogTransfer.send s p lsidE isAcked
  | .abort => ({ s with pending := none }, none)

def Op.Follows (log : Wlog) (s : Storage) : Op → Prop
  | .write lsids => log.Boundary lsids.latest
  | .send lsidE _ => ∀ p, s.pending = some p →
      log.Boundary lsidE ∧ Stop s.vol p.recE p.lsidLimit lsidE
  | _ => True

inductive Run (P : Storage → Op → Prop) (gid : Nat) : Storage → Prop
  | reset (now : Nat) : Run P gid (.reset gid now)
  | step {s : Storage} {op : Op} (h : Run P gid s) (hop : P s op) : Run P gid (op.exec s).1

/-- The finished transfers lead from lsid 0 at `gid₀` to the done record. -/
def Linked (gid₀ : Nat) : List Transfer → Nat → Nat → Prop
  | [], lsid, gid => lsid = 0 ∧ gid = gid₀
  | t :: ts, lsid, gid => (t.lsidE = lsid ∧ t.diff.snapE = .clean gid) ∧
      t.diff.snapB = .clean t.recB.gid ∧ t.recB.lsid ≤ lsid ∧ t.recB.gid < gid ∧
      Linked gid₀ ts t.recB.lsid t.recB.gid

/-- An explicit snapshot is still queued, or a diff ended at it and the diffs
from it on are not mergeable. -/
def Kept (s : Storage) (g : Nat) : Prop :=
  (∃ r, r ∈ s.vol.queue ∧ r.gid = g ∧ r.isMergeable = false) ∨
    (∃ t, t ∈ s.finished ∧ t.diff.snapE = .clean g) ∧
      (s.vol.done.gid = g → s.vol.done.isMergeable = false) ∧
      ∀ t, t ∈ s.sent → t.recB.gid = g → t.diff.isMergeable = false

structure Inv (log : Wlog) (gid₀ : Nat) (s : Storage) : Prop where
  ordered : s.vol.Ordered
  latest : log.Boundary s.lsids.latest
  boundary : ∀ r, r ∈ s.vol.records → log.Boundary r.lsid
  pending : ∀ p, s.pending = some p →
    p.recB = s.vol.done ∧ EndSnapshot s.vol p.maxWlogSendPb p.recE p.lsidLimit
  linked : Linked gid₀ s.finished s.vol.done.lsid s.vol.done.gid
  sent : ∀ t, t ∈ s.sent → t.diff.snapB = .clean t.recB.gid ∧ t.recB.gid ≤ s.vol.done.gid
  snaps : ∀ g, g ∈ s.snaps → Kept s g

variable {log : Wlog} {gid₀ gid : Nat} {s : Storage}

namespace Linked

variable {ts : List Transfer} {lsid : Nat}

theorem le (h : Linked gid₀ ts lsid gid) : gid₀ + ts.length ≤ gid := by
  induction ts generalizing lsid gid with
  | nil => exact h.2.ge
  | cons t ts ih =>
      obtain ⟨-, -, -, hlt, h⟩ := h
      have hle := ih h
      rw [List.length_cons]
      omega

theorem end_le (h : Linked gid₀ ts lsid gid) {t : Transfer} (ht : t ∈ ts) :
    t.diff.snapE.gidB ≤ gid := by
  induction ts generalizing lsid gid with
  | nil => exact absurd ht List.not_mem_nil
  | cons u ts ih =>
      obtain ⟨⟨-, hE⟩, -, -, hlt, h⟩ := h
      rcases List.mem_cons.1 ht with rfl | ht
      · rw [hE, MetaSnap.clean_gidB]
      · exact (ih h ht).trans hlt.le

theorem clean (h : Linked gid₀ ts lsid gid) {t : Transfer} (ht : t ∈ ts) :
    t.diff.isClean ∧ t.diff.snapB.gidB < t.diff.snapE.gidB ∧ t.recB.lsid ≤ t.lsidE := by
  induction ts generalizing lsid gid with
  | nil => exact absurd ht List.not_mem_nil
  | cons u ts ih =>
      obtain ⟨⟨hl, hE⟩, hB, hle, hlt, h⟩ := h
      rcases List.mem_cons.1 ht with rfl | ht
      · rw [MetaDiff.isClean, hB, hE, hl]
        exact ⟨⟨rfl, rfl⟩, hlt, hle⟩
      · exact ih h ht

theorem isChain (h : Linked gid₀ ts lsid gid) :
    ts.IsChain fun t u => t.diff.snapB = u.diff.snapE ∧ t.recB.lsid = u.lsidE := by
  induction ts generalizing lsid gid with
  | nil => exact .nil
  | cons t ts ih =>
      obtain ⟨-, hB, -, -, h⟩ := h
      refine List.isChain_cons.2 ⟨fun u hu => ?_, ih h⟩
      cases ts with
      | nil => simp at hu
      | cons v ts =>
          obtain rfl : v = u := by simpa using hu
          obtain ⟨⟨hl, hE⟩, -⟩ := h
          exact ⟨hB.trans hE.symm, hl.symm⟩

end Linked

theorem Kept.push {vol' : StorageVolInfo} {r : MetaLsidGid} (h : Kept s gid)
    (hdone : vol'.done = s.vol.done) (hq : vol'.queue = s.vol.queue ∨ vol'.queue = r :: s.vol.queue) :
    Kept { s with vol := vol' } gid := by
  rcases h with ⟨q, hmem, hg⟩ | h
  · refine .inl ⟨q, ?_, hg⟩
    rcases hq with hq | hq
    · exact hq ▸ hmem
    · exact hq ▸ List.mem_cons_of_mem _ hmem
  · exact .inr (by rwa [hdone])

theorem Inv.push (h : Inv log gid₀ s) {vol' : StorageVolInfo} {r : MetaLsidGid}
    (ho : vol'.Ordered) (hdone : vol'.done = s.vol.done) (hr : log.Boundary r.lsid)
    (hq : vol'.queue = s.vol.queue ∨ vol'.queue = r :: s.vol.queue) :
    Inv log gid₀ { s with vol := vol' } where
  ordered := ho
  latest := h.latest
  boundary := by
    intro q hmem
    have hb := h.boundary q
    unfold StorageVolInfo.records at hmem hb
    rw [hdone] at hmem
    rcases hq with hq | hq
    · exact hb (hq ▸ hmem)
    · rw [hq, List.cons_append] at hmem
      rcases List.mem_cons.1 hmem with rfl | hmem
      · exact hr
      · exact hb hmem
  pending := by
    intro p hp
    obtain ⟨hB, hE⟩ := h.pending p hp
    exact ⟨hB.trans hdone.symm, hE.push ho hdone hq⟩
  linked := by simpa only [hdone] using h.linked
  sent := by simpa only [hdone] using h.sent
  snaps := fun g hg => (h.snaps g hg).push hdone hq

theorem Inv.setPending (h : Inv log gid₀ s) {pending : Option Pending}
    (hp : ∀ p, pending = some p →
      p.recB = s.vol.done ∧ EndSnapshot s.vol p.maxWlogSendPb p.recE p.lsidLimit) :
    Inv log gid₀ { s with pending := pending } :=
  ⟨h.ordered, h.latest, h.boundary, hp, h.linked, h.sent, h.snaps⟩

theorem Inv.takeSnapshot (h : Inv log gid₀ s) {maxWlogSendPb now : Nat} {isOverflow : Bool}
    {vol' : StorageVolInfo}
    (ht : StorageVol.takeSnapshot s.vol maxWlogSendPb isOverflow s.lsids.latest now = .ok (vol', gid)) :
    Inv log gid₀ { s with vol := vol', snaps := gid :: s.snaps } := by
  unfold StorageVol.takeSnapshot at ht
  split_ifs at ht with hz
  obtain ⟨hdone, hq, ho⟩ := takeSnapshotDetail_eq_ok h.ordered ht
  have hI := h.push ho hdone h.latest (.inr hq)
  refine ⟨hI.ordered, hI.latest, hI.boundary, hI.pending, hI.linked, hI.sent, fun g hg => ?_⟩
  rcases List.mem_cons.1 hg with rfl | hg
  · exact .inl ⟨_, hq ▸ List.mem_cons_self, rfl, rfl⟩
  · exact hI.snaps g hg

theorem Inv.prepare (h : Inv log gid₀ s) {maxWlogSendPb intervalSec now : Nat} {isOverflow : Bool}
    {vol' : StorageVolInfo} {res : Except Failure Prepared}
    (hp : prepareWlogTransfer s.vol maxWlogSendPb intervalSec isOverflow s.lsids now = (vol', res)) :
    Inv log gid₀ { s with vol := vol', pending := none } ∧
      (∀ msg, res ≠ .error (.assertion msg)) ∧
      ∀ p, res = .ok p → Inv log gid₀
        { s with vol := vol', pending := some ⟨p.recB, p.recE, p.lsidLimit, maxWlogSendPb⟩ } := by
  obtain ⟨ho, hdone, hq, hmsg, hok⟩ := prepareWlogTransfer_spec h.ordered intervalSec now isOverflow
    s.lsids hp
  have hI : Inv log gid₀ { s with vol := vol' } := by
    rcases hq with hq | ⟨gid, hq⟩
    · exact h.push (r := s.vol.done) ho hdone (h.boundary _ (by simp [StorageVolInfo.records])) (.inl hq)
    · exact h.push ho hdone h.latest (.inr hq)
  refine ⟨hI.setPending (by simp), hmsg, fun p hres => hI.setPending fun q hpq => ?_⟩
  obtain rfl := Option.some.inj hpq
  obtain ⟨hB, hE⟩ := hok p hres
  exact ⟨hB.trans hdone.symm, hE⟩

def transferOf (p : Pending) (lsidE : Nat) : Transfer :=
  ⟨p.recB, p.recE, p.maxWlogSendPb, lsidE, .ofSnaps (.clean p.recB.gid)
    (.clean (endRecord p.recB p.recE lsidE).gid) p.recB.isMergeable p.recE.timestamp⟩

/-- What one send does: the diff goes out, and with its acknowledgement the done
record moves to the end record. -/
theorem Inv.send_eq (h : Inv log gid₀ s) {p : Pending} (hp : s.pending = some p) {lsidE : Nat}
    (hs : Stop s.vol p.recE p.lsidLimit lsidE) (isAcked : Bool) :
    (isAcked = false ∧ send s p lsidE isAcked =
      ({ s with pending := none, sent := transferOf p lsidE :: s.sent },
        some (.exception "no acknowledgement"))) ∨
    ∃ vol', isAcked = true ∧ vol'.Ordered ∧ vol'.done = endRecord p.recB p.recE lsidE ∧
      (∀ r, r ∈ vol'.queue ↔ r ∈ s.vol.queue ∧ (endRecord p.recB p.recE lsidE).gid < r.gid) ∧
      send s p lsidE isAcked =
        ({ s with vol := vol', pending := none, sent := transferOf p lsidE :: s.sent, finished :=
            transferOf p lsidE :: s.finished }, none) := by
  obtain ⟨hB, hE⟩ := h.pending p hp
  have hdiff := hE.getTransferDiff_eq hs
  obtain ⟨vol', isRemaining, hfin, ho, hdone, hq⟩ := hE.finishWlogTransfer_eq h.ordered hs
  rw [← hB] at hdiff hfin hdone hq
  unfold send transferOf
  rw [hdiff]
  cases isAcked with
  | false => exact .inl ⟨rfl, by simp⟩
  | true => exact .inr ⟨vol', rfl, ho, hdone, hq, by simp [hfin]⟩

theorem Inv.loseAck (h : Inv log gid₀ s) {p : Pending} (hp : s.pending = some p) (lsidE : Nat) :
    Inv log gid₀ { s with pending := none, sent := transferOf p lsidE :: s.sent } := by
  obtain ⟨hB, -⟩ := h.pending p hp
  refine ⟨h.ordered, h.latest, h.boundary, by simp, h.linked, fun t ht => ?_, fun g hg => ?_⟩
  · rcases List.mem_cons.1 ht with rfl | ht
    · exact ⟨rfl, hB ▸ le_rfl⟩
    · exact h.sent t ht
  · refine (h.snaps g hg).imp_right fun ⟨hend, hdone, hsent⟩ => ⟨hend, hdone, fun t ht hg' => ?_⟩
    rcases List.mem_cons.1 ht with rfl | ht
    · change p.recB.isMergeable = false
      rw [hB]
      exact hdone (hB ▸ hg')
    · exact hsent t ht hg'

theorem Inv.finish (h : Inv log gid₀ s) {p : Pending} (hp : s.pending = some p) {lsidE : Nat}
    (hl : log.Boundary lsidE) (hs : Stop s.vol p.recE p.lsidLimit lsidE) {vol' : StorageVolInfo}
    (ho : vol'.Ordered) (hdone : vol'.done = endRecord p.recB p.recE lsidE)
    (hq : ∀ r, r ∈ vol'.queue ↔ r ∈ s.vol.queue ∧ (endRecord p.recB p.recE lsidE).gid < r.gid) :
    Inv log gid₀ { s with
      vol := vol'
      pending := none
      sent := transferOf p lsidE :: s.sent
      finished := transferOf p lsidE :: s.finished } := by
  have hI := h.loseAck hp lsidE
  obtain ⟨hB, hE⟩ := h.pending p hp
  obtain ⟨⟨hgt, hle⟩, hlsid, hjump⟩ := hE.endRecord_spec h.ordered hs
  rw [← hB] at hgt hle hlsid hjump
  refine ⟨ho, h.latest, fun r hr => ?_, by simp, ⟨⟨?_, ?_⟩, rfl, ?_, ?_, ?_⟩, fun t ht => ?_,
    fun g hg => ?_⟩
  · rcases List.mem_append.1 hr with hr | hr
    · exact h.boundary r (List.mem_append_left _ ((hq r).1 hr).1)
    · obtain rfl := List.mem_singleton.1 hr
      rwa [hdone, hlsid]
  · rw [hdone, hlsid]
    rfl
  · rw [hdone]
    rfl
  · rwa [hdone]
  · rwa [hdone]
  · rw [transferOf, hB]
    exact h.linked
  · obtain ⟨hsnap, hgid⟩ := hI.sent t ht
    dsimp only at hgid ⊢
    rw [← hB] at hgid
    rw [hdone]
    exact ⟨hsnap, hgid.trans hgt.le⟩
  · rcases hI.snaps g hg with ⟨r, hr, rfl, hm⟩ | ⟨⟨t, ht, hend⟩, hd, hsent⟩
    · have hbelow : ∀ t, t ∈ transferOf p lsidE :: s.sent → t.recB.gid ≠ r.gid := fun t ht he =>
        absurd (he ▸ (hI.sent t ht).2) (h.ordered.newer hr).1.not_ge
      rcases hjump r hr hm with hlt | ⟨heq, hm'⟩
      · exact .inl ⟨r, (hq r).2 ⟨hr, hlt⟩, rfl, hm⟩
      · refine .inr ⟨⟨_, List.mem_cons_self, by rw [← heq]; rfl⟩, fun _ => by rwa [hdone],
          fun t ht he => absurd he (hbelow t ht)⟩
    · have hle' := h.linked.end_le ht
      rw [hend, MetaSnap.clean_gidB] at hle'
      refine .inr ⟨⟨t, List.mem_cons_of_mem _ ht, hend⟩, fun he => absurd he ?_, hsent⟩
      dsimp only
      rw [hdone]
      rw [← hB] at hle'
      omega

theorem Inv.stop_of_sendLoop (h : Inv log gid₀ s) {p : Pending} (hp : s.pending = some p) {lsidE : Nat}
    (hs : sendLoop log p.maxWlogSendPb p.lsidLimit p.recB.lsid = .ok lsidE) :
    log.Boundary lsidE ∧ Stop s.vol p.recE p.lsidLimit lsidE := by
  obtain ⟨hB, hE⟩ := h.pending p hp
  have hdone : log.Boundary s.vol.done.lsid := h.boundary _ (by simp [StorageVolInfo.records])
  rw [hB] at hs
  obtain ⟨hl, hle, hlim, hlast⟩ := sendLoop_spec hdone hE.done_le hs
  refine ⟨hl, hle, hlim, fun he => le_antisymm hlim (hlast _ ?_ le_rfl)⟩
  rw [he]
  exact h.boundary _ (List.mem_append_left _ hE.mem)

theorem Inv.exec (h : Inv log gid₀ s) {op : Op} (hop : op.Follows log s) :
    Inv log gid₀ (op.exec s).1 ∧ ∀ msg, (op.exec s).2 ≠ some (.assertion msg) := by
  cases op with
  | write lsids =>
      exact ⟨⟨h.ordered, hop, h.boundary, h.pending, h.linked, h.sent, h.snaps⟩, by simp [Op.exec]⟩
  | takeSnapshot maxWlogSendPb isOverflow now =>
      rw [Op.exec]
      cases ht : StorageVol.takeSnapshot s.vol maxWlogSendPb isOverflow s.lsids.latest now with
      | error e =>
          refine ⟨h, fun msg he => ?_⟩
          obtain rfl := Option.some.inj he
          unfold StorageVol.takeSnapshot at ht
          split_ifs at ht with hz
          · simp at ht
          · exact takeSnapshotDetail_ne_assertion ht
      | ok r => exact ⟨h.takeSnapshot ht, by simp⟩
  | prepare maxWlogSendPb intervalSec isOverflow now =>
      rw [Op.exec]
      cases hp : prepareWlogTransfer s.vol maxWlogSendPb intervalSec isOverflow s.lsids now with
      | mk vol' res =>
          obtain ⟨hI, hmsg, hok⟩ := h.prepare hp
          cases res with
          | error e => exact ⟨hI, fun msg he => hmsg msg (by rw [Option.some.inj he])⟩
          | ok p =>
              refine ⟨?_, by simp⟩
              dsimp only
              split_ifs
              · exact hI
              · exact hok p rfl
  | send lsidE isAcked =>
      rw [Op.exec]
      cases hp : s.pending with
      | none => exact ⟨h, by simp⟩
      | some p =>
          obtain ⟨hl, hs⟩ := hop p hp
          rcases h.send_eq hp hs isAcked with ⟨-, he⟩ | ⟨vol', -, ho, hdone, hq, he⟩
          · dsimp only
            rw [he]
            exact ⟨h.loseAck hp lsidE, by simp⟩
          · dsimp only
            rw [he]
            exact ⟨h.finish hp hl hs ho hdone hq, by simp⟩
  | abort => exact ⟨h.setPending (by simp), by simp [Op.exec]⟩

theorem Run.inv (h : Run (Op.Follows log) gid₀ s) : Inv log gid₀ s := by
  induction h with
  | reset now =>
      refine ⟨?_, log.boundary_zero, ?_, by simp [Storage.reset], ⟨rfl, rfl⟩, by simp [Storage.reset],
        by simp [Storage.reset]⟩
      · simp [ordered_iff, Storage.reset, resetWlog]
      · intro r hr
        obtain rfl : r = ⟨0, gid₀, false, now⟩ := by
          simpa [Storage.reset, resetWlog, StorageVolInfo.records] using hr
        exact log.boundary_zero
  | step _ hop ih => exact (ih.exec hop).1

/-- The finished transfers are a gap-free chain of clean diffs, the latest first,
that passes every explicit snapshot. -/
theorem wlog_transfer_chain (h : Run (Op.Follows log) gid₀ s) :
    (∀ t, t ∈ s.finished → t.diff.isClean ∧ t.diff.snapB.gidB < t.diff.snapE.gidB) ∧
      (s.finished.IsChain fun t u => t.diff.snapB = u.diff.snapE ∧ t.recB.lsid = u.lsidE) ∧
      (∀ t, s.finished.head? = some t →
        t.diff.snapE = .clean s.vol.done.gid ∧ t.lsidE = s.vol.done.lsid) ∧
      (∀ op : Op, op.Follows log s → ∀ msg, (op.exec s).2 ≠ some (.assertion msg)) ∧
      (∀ r, r ∈ s.vol.queue → s.vol.done.gid < r.gid) ∧
      (∀ g, g ∈ s.snaps → (∃ r, r ∈ s.vol.queue ∧ r.gid = g) ∨
        ∃ t, t ∈ s.finished ∧ t.diff.snapE = .clean g) ∧
      (∀ g, g ∈ s.snaps → ∀ t, t ∈ s.sent → t.diff.snapB.gidB = g → t.diff.isMergeable = false) ∧
      gid₀ + s.finished.length ≤ s.vol.done.gid := by
  have hI := h.inv
  refine ⟨fun t ht => ⟨(hI.linked.clean ht).1, (hI.linked.clean ht).2.1⟩, hI.linked.isChain,
    fun t ht => ?_, fun op hop => (hI.exec hop).2, fun r hr => (hI.ordered.newer hr).1,
    fun g hg => ?_, fun g hg t ht he => ?_, hI.linked.le⟩
  · have hlinked := hI.linked
    cases hf : s.finished with
    | nil => simp [hf] at ht
    | cons u ts =>
        rw [hf] at ht hlinked
        obtain rfl : u = t := by simpa using ht
        obtain ⟨⟨hl, hE⟩, -⟩ := hlinked
        exact ⟨hE, hl⟩
  · rcases hI.snaps g hg with ⟨r, hr, hg, -⟩ | ⟨hend, -⟩
    · exact .inl ⟨r, hr, hg⟩
    · exact .inr hend
  · obtain ⟨hB, hle⟩ := hI.sent t ht
    rw [hB, MetaSnap.clean_gidB] at he
    rcases hI.snaps g hg with ⟨r, hr, rfl, -⟩ | ⟨-, -, hsent⟩
    · exact absurd (he ▸ hle) (hI.ordered.newer hr).1.not_ge
    · exact hsent t ht he

def unitLog : Wlog := ⟨fun lsid => lsid + 1, Nat.lt_succ_self⟩

theorem boundary_unitLog (lsid : Nat) : unitLog.Boundary lsid :=
  ⟨lsid, (Nat.succ_iterate 0 lsid).trans (Nat.zero_add lsid)⟩

theorem follows_send {p : Pending} {lsidE : Nat} {isAcked : Bool} (hp : s.pending = some p)
    (hs : Stop s.vol p.recE p.lsidLimit lsidE) : (Op.send lsidE isAcked).Follows unitLog s := by
  intro q hq
  obtain rfl := Option.some.inj (hp.symm.trans hq)
  exact ⟨boundary_unitLog lsidE, hs⟩

def replay (s : Storage) (ops : List Op) : Storage := ops.foldl (fun s op => (Op.exec s op).1) s

theorem Run.concat {P : Storage → Op → Prop} {ops : List Op} (h : Run P gid₀ (replay s ops)) (op : Op)
    (hop : P (replay s ops) op) :
    Run P gid₀ (replay s (ops ++ [op])) := by
  rw [replay, List.foldl_concat]
  exact h.step hop

/-- A snapshot at lsid 10 is sent in three ranges of at most 4 blocks. -/
def threeSends : List Op :=
  [.write ⟨10, 10⟩, .takeSnapshot 4 false 1, .prepare 4 0 false 2, .send 4 true,
    .prepare 4 0 false 3, .send 8 true, .prepare 4 0 false 4, .send 10 true]

theorem run_threeSends : Run (Op.Follows unitLog) 0 (replay (.reset 0 0) threeSends) := by
  have h₁ : Run (Op.Follows unitLog) 0 (replay (.reset 0 0) (threeSends.take 3)) :=
    (((Run.reset 0).step (boundary_unitLog 10)).step trivial).step trivial
  have h₂ : Run (Op.Follows unitLog) 0 (replay (.reset 0 0) (threeSends.take 5)) :=
    (h₁.step (follows_send rfl ⟨by decide, by decide, by decide⟩)).step trivial
  have h₃ : Run (Op.Follows unitLog) 0 (replay (.reset 0 0) (threeSends.take 7)) :=
    (h₂.step (follows_send rfl ⟨by decide, by decide, by decide⟩)).step trivial
  exact h₃.step (follows_send rfl ⟨by decide, by decide, by decide⟩)

theorem wlog_transfer_chain_three :
    let s := replay (.reset 0 0) threeSends
    s.finished.length = 3 ∧ s.snaps = [3] ∧
      (s.finished.IsChain fun t u => t.diff.snapB = u.diff.snapE ∧ t.recB.lsid = u.lsidE) ∧
      ∃ t, t ∈ s.finished ∧ t.diff.snapE = .clean 3 := by
  obtain ⟨-, hchain, -, -, -, hsnaps, -⟩ := wlog_transfer_chain run_threeSends
  refine ⟨by decide, by decide, hchain, (hsnaps 3 (by decide)).resolve_left ?_⟩
  rintro ⟨r, hr, -⟩
  exact absurd hr List.not_mem_nil

end WalbTools.WlogTransfer
