import Mathlib
import WalbTools.WlogTransfer

namespace WalbTools.WlogResend

open Meta StorageVol WlogTransfer

/-- The size limit cuts the range between two records into an own diff. -/
def IsCut (recB recE : MetaLsidGid) (maxWlogSendPb : Nat) : Prop :=
  recB.lsid + maxWlogSendPb < recE.lsid ∧ recB.gid + 1 < recE.gid

/-- A transfer carries what the send loop reads up to the limit. -/
def Sends (log : Wlog) (s : Storage) : Op → Prop
  | .write lsids => log.Boundary lsids.latest
  | .send lsidE _ => ∀ p, s.pending = some p →
      sendLoop log p.maxWlogSendPb p.lsidLimit p.recB.lsid = .ok lsidE
  | _ => True

/-- When a cut range is sent again from the same done record, no pack ends
between the old size limit and the new one. -/
def Steady (log : Wlog) (s : Storage) : Op → Prop
  | .send _ _ => ∀ p, s.pending = some p → ∀ t, t ∈ s.sent → t.recB.gid = p.recB.gid →
      IsCut t.recB t.recE t.maxWlogSendPb → IsCut p.recB p.recE p.maxWlogSendPb →
      ∀ b, log.Boundary b → (b ≤ t.recB.lsid + t.maxWlogSendPb ↔ b ≤ p.recB.lsid + p.maxWlogSendPb)
  | _ => True

/-- Two of the diffs that count as the same carry the same log range. -/
def SameRange (ts : List Transfer) : Prop :=
  ∀ t, t ∈ ts → ∀ u, u ∈ ts → t.diff.opEq u.diff → t.recB.lsid = u.recB.lsid ∧ t.lsidE = u.lsidE

structure Ends (log : Wlog) (t : Transfer) : Prop where
  snapB : t.diff.snapB = .clean t.recB.gid
  cut : IsCut t.recB t.recE t.maxWlogSendPb → t.diff.snapE = .clean (t.recB.gid + 1) ∧
    log.Boundary t.lsidE ∧ ∀ b, log.Boundary b → (b ≤ t.recB.lsid + t.maxWlogSendPb ↔ b ≤ t.lsidE)
  whole : ¬IsCut t.recB t.recE t.maxWlogSendPb →
    t.diff.snapE = .clean t.recE.gid ∧ t.lsidE = t.recE.lsid

/-- A transfer of the present done record: its end record is still queued, as the
oldest one when the range was cut. -/
structure Current (vol : StorageVolInfo) (t : Transfer) : Prop where
  recB : t.recB = vol.done
  recE : t.recE ∈ vol.queue
  oldest : IsCut t.recB t.recE t.maxWlogSendPb → ∀ r, r ∈ vol.queue → t.recE.gid ≤ r.gid

structure Resent (log : Wlog) (s : Storage) : Prop where
  current : ∀ t, t ∈ s.sent → t.recB.gid = s.vol.done.gid → Current s.vol t
  ends : ∀ t, t ∈ s.sent → Ends log t

variable {log : Wlog} {gid₀ : Nat} {s : Storage}

theorem sameRange_cons {u : Transfer} {ts : List Transfer} :
    SameRange (u :: ts) ↔ SameRange ts ∧
      ∀ t, t ∈ ts → t.diff.opEq u.diff → t.recB.lsid = u.recB.lsid ∧ t.lsidE = u.lsidE := by
  constructor
  · intro h
    exact ⟨fun t ht v hv => h t (List.mem_cons_of_mem _ ht) v (List.mem_cons_of_mem _ hv),
      fun t ht => h t (List.mem_cons_of_mem _ ht) u List.mem_cons_self⟩
  · rintro ⟨hts, hu⟩ t ht v hv heq
    rcases List.mem_cons.1 ht with rfl | ht
    · rcases List.mem_cons.1 hv with rfl | hv
      · exact ⟨rfl, rfl⟩
      · obtain ⟨hB, hE⟩ := hu v hv heq.symm
        exact ⟨hB.symm, hE.symm⟩
    · rcases List.mem_cons.1 hv with he | hv
      · subst he
        exact hu t (by assumption) heq
      · exact hts t ht v hv heq

/-- Two transfers of the present done record with the same end gid stop at the
same lsid exactly when their limits cut the log at the same pack. -/
theorem Current.lsidE_eq_iff {t u : Transfer} (ho : s.vol.Ordered) (ht : Current s.vol t)
    (hu : Current s.vol u) (et : Ends log t) (eu : Ends log u) :
    (t.diff.opEq u.diff → t.lsidE = u.lsidE) ↔
      (IsCut t.recB t.recE t.maxWlogSendPb → IsCut u.recB u.recE u.maxWlogSendPb →
        ∀ b, log.Boundary b →
          (b ≤ t.recB.lsid + t.maxWlogSendPb ↔ b ≤ u.recB.lsid + u.maxWlogSendPb)) := by
  have hB : t.recB = u.recB := ht.recB.trans hu.recB.symm
  constructor
  · intro h ct cu b hb
    obtain ⟨tE, -, tb⟩ := et.cut ct
    obtain ⟨uE, -, ub⟩ := eu.cut cu
    rw [tb b hb, ub b hb, h ⟨by rw [et.snapB, eu.snapB, hB], by rw [tE, uE, hB]⟩]
  · rintro h ⟨-, heq⟩
    by_cases ct : IsCut t.recB t.recE t.maxWlogSendPb
    · obtain ⟨tE, tl, tb⟩ := et.cut ct
      by_cases cu : IsCut u.recB u.recE u.maxWlogSendPb
      · obtain ⟨-, ul, ub⟩ := eu.cut cu
        have hsame := h ct cu
        exact le_antisymm ((ub _ tl).1 ((hsame _ tl).1 ((tb _ tl).2 le_rfl)))
          ((tb _ ul).1 ((hsame _ ul).2 ((ub _ ul).2 le_rfl)))
      · obtain ⟨uE, -⟩ := eu.whole cu
        rw [tE, uE] at heq
        have hgid := congrArg MetaSnap.gidB heq
        have hle := ht.oldest ct u.recE hu.recE
        rw [MetaSnap.clean_gidB, MetaSnap.clean_gidB] at hgid
        exact absurd (hgid ▸ ct.2) (not_lt.2 hle)
    · obtain ⟨tE, tl⟩ := et.whole ct
      by_cases cu : IsCut u.recB u.recE u.maxWlogSendPb
      · obtain ⟨uE, -⟩ := eu.cut cu
        rw [tE, uE] at heq
        have hgid := congrArg MetaSnap.gidB heq
        have hle := hu.oldest cu t.recE ht.recE
        rw [MetaSnap.clean_gidB, MetaSnap.clean_gidB] at hgid
        exact absurd (hgid ▸ cu.2) (not_lt.2 hle)
      · obtain ⟨uE, ul⟩ := eu.whole cu
        rw [tE, uE] at heq
        have hgid : t.recE.gid = u.recE.gid := congrArg MetaSnap.gidB heq
        rw [tl, ul, eq_of_gid (ordered_iff.1 ho).1 ht.recE hu.recE hgid]

theorem transferOf_spec (h : Inv log gid₀ s) {p : Pending} (hp : s.pending = some p) {lsidE : Nat}
    (hs : sendLoop log p.maxWlogSendPb p.lsidLimit p.recB.lsid = .ok lsidE) :
    Current s.vol (transferOf p lsidE) ∧ Ends log (transferOf p lsidE) := by
  obtain ⟨hB, hE⟩ := h.pending p hp
  obtain ⟨hl, hstop⟩ := h.stop_of_sendLoop hp hs
  have hdone : log.Boundary s.vol.done.lsid := h.boundary _ (by simp [StorageVolInfo.records])
  rw [hB] at hs
  obtain ⟨-, -, hlim, hlast⟩ := sendLoop_spec hdone hE.done_le hs
  have hcut : IsCut p.recB p.recE p.maxWlogSendPb →
      p.lsidLimit = s.vol.done.lsid + p.maxWlogSendPb ∧ p.lsidLimit < p.recE.lsid := by
    rintro ⟨hlsid, hgid⟩
    rw [hB] at hlsid hgid
    have heq := hE.limit_of_cut hlsid hgid
    exact ⟨heq, heq ▸ hlsid⟩
  refine ⟨⟨hB, hE.mem, fun hc => (hE.partial_of_lt (hcut hc).2).2.2⟩, ⟨rfl, fun hc => ?_, fun hc => ?_⟩⟩
  · obtain ⟨heq, hlt⟩ := hcut hc
    refine ⟨?_, hl, fun b hb => ?_⟩
    · change MetaSnap.clean (endRecord p.recB p.recE lsidE).gid = _
      rw [endRecord, if_neg (hlim.trans_lt hlt).ne]
      rfl
    · change b ≤ p.recB.lsid + p.maxWlogSendPb ↔ b ≤ lsidE
      rw [hB, ← heq]
      exact ⟨hlast b hb, fun hle => hle.trans hlim⟩
  · have hfull : lsidE = p.recE.lsid := by
      by_contra hne
      have hlt : p.lsidLimit < p.recE.lsid :=
        lt_of_le_of_ne hE.le fun he => hne ((hstop.complete he).trans he)
      obtain ⟨heq, hgid, -⟩ := hE.partial_of_lt hlt
      refine hc ⟨?_, ?_⟩
      · change p.recB.lsid + p.maxWlogSendPb < p.recE.lsid
        rw [hB, ← heq]
        exact hlt
      · change p.recB.gid + 1 < p.recE.gid
        rwa [hB]
    refine ⟨?_, hfull⟩
    change MetaSnap.clean (endRecord p.recB p.recE lsidE).gid = _
    rw [endRecord, if_pos hfull]
    rfl

theorem Current.push {vol vol' : StorageVolInfo} {t : Transfer} {r : MetaLsidGid} (h : Current vol t)
    (ho : vol'.Ordered) (hdone : vol'.done = vol.done)
    (hq : vol'.queue = vol.queue ∨ vol'.queue = r :: vol.queue) : Current vol' t := by
  obtain ⟨hB, hE, hold⟩ := h
  rcases hq with hq | hq
  · exact ⟨hB.trans hdone.symm, hq ▸ hE, by rwa [hq]⟩
  · have hp := (ordered_iff.1 ho).1
    rw [hq] at hp
    refine ⟨hB.trans hdone.symm, hq ▸ List.mem_cons_of_mem _ hE, fun hc q hmem => ?_⟩
    rw [hq] at hmem
    rcases List.mem_cons.1 hmem with rfl | hmem
    · exact ((List.pairwise_cons.1 hp).1 _ hE).1.le
    · exact hold hc q hmem

theorem exec_of_not_send (h : Inv log gid₀ s) {op : Op}
    (hop : ∀ lsidE isAcked, op ≠ .send lsidE isAcked) :
    ∃ r, (op.exec s).1.vol.Ordered ∧ (op.exec s).1.vol.done = s.vol.done ∧
      ((op.exec s).1.vol.queue = s.vol.queue ∨ (op.exec s).1.vol.queue = r :: s.vol.queue) ∧
      (op.exec s).1.sent = s.sent := by
  cases op with
  | write lsids => exact ⟨s.vol.done, h.ordered, rfl, .inl rfl, rfl⟩
  | takeSnapshot maxWlogSendPb isOverflow now =>
      rw [Op.exec]
      cases ht : StorageVol.takeSnapshot s.vol maxWlogSendPb isOverflow s.lsids.latest now with
      | error e => exact ⟨s.vol.done, h.ordered, rfl, .inl rfl, rfl⟩
      | ok r =>
          unfold StorageVol.takeSnapshot at ht
          split_ifs at ht
          obtain ⟨hdone, hq, ho⟩ := takeSnapshotDetail_eq_ok h.ordered ht
          exact ⟨_, ho, hdone, .inr hq, rfl⟩
  | prepare maxWlogSendPb intervalSec isOverflow now =>
      rw [Op.exec]
      cases hp : prepareWlogTransfer s.vol maxWlogSendPb intervalSec isOverflow s.lsids now with
      | mk vol' res =>
          obtain ⟨ho, hdone, hq, -⟩ := prepareWlogTransfer_spec h.ordered intervalSec now isOverflow
            s.lsids hp
          obtain ⟨r, hq⟩ : ∃ r, vol'.queue = s.vol.queue ∨ vol'.queue = r :: s.vol.queue := by
            rcases hq with hq | ⟨gid, hq⟩
            · exact ⟨s.vol.done, .inl hq⟩
            · exact ⟨_, .inr hq⟩
          cases res with
          | error e => exact ⟨r, ho, hdone, hq, rfl⟩
          | ok p => exact ⟨r, ho, hdone, hq, rfl⟩
  | send lsidE isAcked => exact absurd rfl (hop lsidE isAcked)
  | abort => exact ⟨s.vol.done, h.ordered, rfl, .inl rfl, rfl⟩

theorem sends_follows (h : Inv log gid₀ s) {op : Op} (hop : Sends log s op) : op.Follows log s := by
  cases op with
  | write lsids => exact hop
  | send lsidE isAcked => exact fun p hp => h.stop_of_sendLoop hp (hop p hp)
  | takeSnapshot maxWlogSendPb isOverflow now => trivial
  | prepare maxWlogSendPb intervalSec isOverflow now => trivial
  | abort => trivial

theorem Resent.of_send (h : Resent log s) (hI : Inv log gid₀ s) {p : Pending} (hp : s.pending = some p)
    {lsidE : Nat} (hs : sendLoop log p.maxWlogSendPb p.lsidLimit p.recB.lsid = .ok lsidE)
    (isAcked : Bool) :
    Resent log ((Op.send lsidE isAcked).exec s).1 ∧
      ((Op.send lsidE isAcked).exec s).1.sent = transferOf p lsidE :: s.sent := by
  obtain ⟨hl, hstop⟩ := hI.stop_of_sendLoop hp hs
  obtain ⟨hcur, hends⟩ := transferOf_spec hI hp hs
  have hall : ∀ t, t ∈ transferOf p lsidE :: s.sent → Ends log t := by
    intro t ht
    rcases List.mem_cons.1 ht with rfl | ht
    · exact hends
    · exact h.ends t ht
  rw [Op.exec, hp]
  dsimp only
  rcases hI.send_eq hp hstop isAcked with ⟨-, he⟩ | ⟨vol', -, ho, hdone, hq, he⟩
  · rw [he]
    refine ⟨⟨fun t ht hg => ?_, hall⟩, rfl⟩
    rcases List.mem_cons.1 ht with rfl | ht
    · exact hcur
    · exact h.current t ht hg
  · rw [he]
    refine ⟨⟨fun t ht hg => ?_, hall⟩, rfl⟩
    -- the done record has moved past every transfer made so far
    obtain ⟨hB, hE⟩ := hI.pending p hp
    obtain ⟨⟨hgt, -⟩, -⟩ := hE.endRecord_spec hI.ordered hstop
    have hle := ((hI.loseAck hp lsidE).sent t ht).2
    rw [← hB] at hgt
    dsimp only at hg hle
    rw [hdone] at hg
    rw [← hB] at hle
    omega

/-- One operation: it meets the condition exactly when the ranges stay determined. -/
theorem Resent.exec (h : Resent log s) (hI : Inv log gid₀ s) {op : Op} (hop : Sends log s op) :
    Resent log (op.exec s).1 ∧
      (SameRange s.sent → (Steady log s op ↔ SameRange (op.exec s).1.sent)) := by
  by_cases hsend : ∃ lsidE isAcked, op = .send lsidE isAcked
  · obtain ⟨lsidE, isAcked, rfl⟩ := hsend
    cases hp : s.pending with
    | none =>
        rw [Op.exec, hp]
        refine ⟨h, fun hsame => ⟨fun _ => hsame, fun _ p hp' => ?_⟩⟩
        simp [hp] at hp'
    | some p =>
        have hs := hop p hp
        obtain ⟨hR, hsent⟩ := h.of_send hI hp hs isAcked
        obtain ⟨hcur, hends⟩ := transferOf_spec hI hp hs
        obtain ⟨hB, -⟩ := hI.pending p hp
        refine ⟨hR, fun hsame => ?_⟩
        rw [hsent, sameRange_cons]
        have hiff (t : Transfer) (ht : t ∈ s.sent) (hg : t.recB.gid = p.recB.gid) :=
          (h.current t ht (hB ▸ hg)).lsidE_eq_iff hI.ordered hcur (h.ends t ht) hends
        constructor
        · refine fun hst => ⟨hsame, fun t ht heq => ?_⟩
          have hg : t.recB.gid = p.recB.gid := by
            have hsnap := heq.1
            rw [(h.ends t ht).snapB, hends.snapB] at hsnap
            exact congrArg MetaSnap.gidB hsnap
          refine ⟨?_, (hiff t ht hg).2 (hst p hp t ht hg) heq⟩
          rw [(h.current t ht (hB ▸ hg)).recB, hcur.recB]
        · rintro ⟨-, hnew⟩ q hq t ht hg
          obtain rfl := Option.some.inj (hp.symm.trans hq)
          exact (hiff t ht hg).1 fun heq => (hnew t ht heq).2
  · have hno : ∀ lsidE isAcked, op ≠ .send lsidE isAcked := fun lsidE isAcked he => hsend ⟨_, _, he⟩
    obtain ⟨r, ho, hdone, hq, hsent⟩ := exec_of_not_send hI hno
    refine ⟨⟨fun t ht hg => ?_, fun t ht => h.ends t (hsent ▸ ht)⟩, fun hsame => ?_⟩
    · rw [hdone] at hg
      exact (h.current t (hsent ▸ ht) hg).push ho hdone hq
    · rw [hsent]
      refine ⟨fun _ => hsame, fun _ => ?_⟩
      cases op with
      | send lsidE isAcked => exact absurd rfl (hno lsidE isAcked)
      | _ => trivial

/-- Along a run whose sends follow the loop, `Steady` and the determined ranges
can be exchanged. -/
theorem run_steady_iff :
    (Run (fun s op => Sends log s op ∧ Steady log s op) gid₀ s →
      (Inv log gid₀ s ∧ Resent log s ∧ SameRange s.sent) ∧
        Run (fun s op => Sends log s op ∧ SameRange (op.exec s).1.sent) gid₀ s) ∧
    (Run (fun s op => Sends log s op ∧ SameRange (op.exec s).1.sent) gid₀ s →
      (Inv log gid₀ s ∧ Resent log s ∧ SameRange s.sent) ∧
        Run (fun s op => Sends log s op ∧ Steady log s op) gid₀ s) := by
  have hreset (now : Nat) : Inv log gid₀ (.reset gid₀ now) ∧ Resent log (.reset gid₀ now) ∧
      SameRange (Storage.reset gid₀ now).sent := by
    refine ⟨(Run.reset now).inv, ⟨fun t ht => ?_, fun t ht => ?_⟩, fun t ht => ?_⟩
    · exact absurd ht List.not_mem_nil
    · exact absurd ht List.not_mem_nil
    · exact absurd ht List.not_mem_nil
  constructor
  · intro h
    induction h with
    | reset now => exact ⟨hreset now, .reset now⟩
    | step _ hop ih =>
        obtain ⟨⟨hI, hR, hsame⟩, hrun⟩ := ih
        obtain ⟨hR', hiff⟩ := hR.exec hI hop.1
        have hsame' := (hiff hsame).1 hop.2
        exact ⟨⟨(hI.exec (sends_follows hI hop.1)).1, hR', hsame'⟩, hrun.step ⟨hop.1, hsame'⟩⟩
  · intro h
    induction h with
    | reset now => exact ⟨hreset now, .reset now⟩
    | step _ hop ih =>
        obtain ⟨⟨hI, hR, hsame⟩, hrun⟩ := ih
        obtain ⟨hR', hiff⟩ := hR.exec hI hop.1
        exact ⟨⟨(hI.exec (sends_follows hI hop.1)).1, hR', hop.2⟩,
          hrun.step ⟨hop.1, (hiff hsame).2 hop.2⟩⟩

/-- The gids of a diff determine its log range in every state of the runs whose
sends are steady, and these are all runs with that property. -/
theorem gid_range_determines_log_range :
    (Run (fun s op => Sends log s op ∧ Steady log s op) gid₀ s → SameRange s.sent) ∧
      (Run (fun s op => Sends log s op ∧ Steady log s op) gid₀ s ↔
        Run (fun s op => Sends log s op ∧ SameRange (op.exec s).1.sent) gid₀ s) :=
  ⟨fun h => (run_steady_iff.1 h).1.2.2, fun h => (run_steady_iff.1 h).2, fun h => (run_steady_iff.2 h).2⟩

def packLog : Wlog := ⟨fun lsid => lsid + 128, fun _ => Nat.lt_add_of_pos_right (by decide)⟩

theorem sends_packLog {lsidE : Nat} {isAcked : Bool}
    (hp : s.pending.map (fun p => (p.recB.lsid, p.lsidLimit, p.maxWlogSendPb)) = some (0, lsidE, lsidE))
    (hl : lsidE = 256 ∨ lsidE = 512) : Sends packLog s (.send lsidE isAcked) := by
  intro p hpend
  rw [hpend] at hp
  obtain ⟨hB, hlim, hmax⟩ : p.recB.lsid = 0 ∧ p.lsidLimit = lsidE ∧ p.maxWlogSendPb = lsidE := by
    simpa using hp
  rw [hB, hlim, hmax]
  rcases hl with rfl | rfl
  · simp [sendLoop, packLog]
  · simp [sendLoop, packLog]

/-- A snapshot at lsid 1024, of which at most 256 blocks are sent. -/
def firstSend : List Op :=
  [.write ⟨1024, 1024⟩] ++ [.takeSnapshot 256 false 1] ++ [.prepare 256 0 false 2]

/-- The acknowledgement is lost, and after a restart the limit is 512 blocks. -/
def resend : List Op := firstSend ++ [.send 256 false] ++ [.prepare 512 0 false 3]

theorem same_gids_other_range :
    Run (Sends packLog) 0 (replay (.reset 0 0) (resend ++ [.send 512 true])) ∧
      ¬SameRange (replay (.reset 0 0) (resend ++ [.send 512 true])).sent := by
  have h₀ : Run (Sends packLog) 0 (replay (.reset 0 0) []) := .reset 0
  have h₁ : Run (Sends packLog) 0 (replay (.reset 0 0) firstSend) :=
    ((h₀.concat (.write _) ⟨8, by decide⟩).concat (.takeSnapshot _ _ _) trivial).concat
      (.prepare _ _ _ _) trivial
  have h₂ : Run (Sends packLog) 0 (replay (.reset 0 0) resend) :=
    (h₁.concat (.send _ _) (sends_packLog (by decide +kernel) (.inl rfl))).concat (.prepare _ _ _ _)
      trivial
  refine ⟨h₂.concat (.send _ _) (sends_packLog (by decide +kernel) (.inr rfl)), fun h => ?_⟩
  obtain ⟨t, ht, u, hu, heq, hne⟩ : ∃ t, t ∈ (replay (.reset 0 0) (resend ++ [.send 512 true])).sent ∧
      ∃ u, u ∈ (replay (.reset 0 0) (resend ++ [.send 512 true])).sent ∧
        t.diff.opEq u.diff ∧ t.lsidE ≠ u.lsidE := by
    decide +kernel
  exact hne (h t ht u hu heq).2

def resendSame : List Op := firstSend ++ [.send 256 false] ++ [.prepare 256 0 false 3]

theorem same_gids_same_range :
    SameRange (replay (.reset 0 0) (resendSame ++ [.send 256 true])).sent := by
  have h₀ : Run (fun s op => Sends packLog s op ∧ Steady packLog s op) 0 (replay (.reset 0 0) []) :=
    .reset 0
  have h₁ : Run (fun s op => Sends packLog s op ∧ Steady packLog s op) 0
      (replay (.reset 0 0) firstSend) :=
    ((h₀.concat (.write _) ⟨⟨8, by decide⟩, trivial⟩).concat (.takeSnapshot _ _ _)
      ⟨trivial, trivial⟩).concat (.prepare _ _ _ _) ⟨trivial, trivial⟩
  have hnone : ∀ t, t ∉ (replay (.reset 0 0) firstSend).sent := fun t => List.not_mem_nil
  have h₂ : Run (fun s op => Sends packLog s op ∧ Steady packLog s op) 0
      (replay (.reset 0 0) resendSame) :=
    (h₁.concat (.send _ _) ⟨sends_packLog (by decide +kernel) (.inl rfl),
      fun _ _ t ht => absurd ht (hnone t)⟩).concat (.prepare _ _ _ _) ⟨trivial, trivial⟩
  have hsent : ∀ t, t ∈ (replay (.reset 0 0) resendSame).sent → t.recB.lsid + t.maxWlogSendPb = 256 := by
    decide +kernel
  have hpend : (replay (.reset 0 0) resendSame).pending.map
      (fun p => (p.recB.lsid, p.lsidLimit, p.maxWlogSendPb)) = some (0, 256, 256) := by decide +kernel
  refine gid_range_determines_log_range.1
    (h₂.concat (.send _ _) ⟨sends_packLog hpend (.inl rfl), fun p hp t ht _ _ _ b _ => ?_⟩)
  rw [hp] at hpend
  obtain ⟨hB, -, hmax⟩ : p.recB.lsid = 0 ∧ p.lsidLimit = 256 ∧ p.maxWlogSendPb = 256 := by
    simpa using hpend
  rw [hsent t ht, hB, hmax]

end WalbTools.WlogResend
