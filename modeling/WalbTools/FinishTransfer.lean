import WalbTools.StorageVol

namespace WalbTools.StorageVol

/-- `finishWlogTransfer` in the default build, where `NDEBUG` leaves the assertions out. -/
def finishWlogTransferNdebug (vol : StorageVolInfo) (recB recE : MetaLsidGid) (lsidE : Nat) :
    Except Failure (StorageVolInfo × Bool) :=
  if vol.queue = [] then .error (.exception "Maybe BUG: queue must have at lease one record.")
  else
    let recS := endRecord recB recE lsidE
    let queue := removeOldRecordsFromQueueFile vol.queue recS
    .ok (⟨recS, queue⟩, !queue.isEmpty)

/-- The files after the call and what it returns; its only check comes before the first write. -/
def StorageVolInfo.finish (vol : StorageVolInfo) (recB recE : MetaLsidGid) (lsidE : Nat) :
    StorageVolInfo × Except Failure Bool :=
  match finishWlogTransferNdebug vol recB recE lsidE with
  | .error e => (vol, .error e)
  | .ok (vol', isRemaining) => (vol', .ok isRemaining)

/-- What `verifyMetaLsidGidEquality` compares. -/
def EqualLsidGid (rec0 rec1 : MetaLsidGid) : Prop := rec0.lsid = rec1.lsid ∧ rec0.gid = rec1.gid

instance (rec0 rec1 : MetaLsidGid) : Decidable (EqualLsidGid rec0 rec1) :=
  inferInstanceAs (Decidable (_ ∧ _))

/-- From the oldest record on, those up to `recS` are gone, and no others. -/
structure GoneUpTo (recS : MetaLsidGid) (queue kept : List MetaLsidGid) : Prop where
  parted : ∃ gone, queue = kept ++ gone ∧ ∀ r ∈ gone, isOld recS r = true
  last : ∀ r, kept.getLast? = some r → isOld recS r = false
  ordered : queue.Pairwise Newer → kept = queue.filter fun r => !isOld recS r

structure AllOrNothing (vol : StorageVolInfo) (recB recE : MetaLsidGid) (lsidE : Nat) : Prop where
  stale : ¬EqualLsidGid recB vol.done → ∃ e, vol.finish recB recE lsidE = (vol, .error e)
  rejected : ∀ vol' e, vol.finish recB recE lsidE = (vol', .error e) → vol' = vol
  accepted : ∀ vol' isRemaining, vol.finish recB recE lsidE = (vol', .ok isRemaining) →
    vol'.done = endRecord recB recE lsidE ∧ GoneUpTo vol'.done vol.queue vol'.queue ∧
      (isRemaining = true ↔ vol'.queue ≠ [])

variable {vol : StorageVolInfo} {recB recE : MetaLsidGid} {lsidE : Nat}

theorem goneUpTo_removeOld (recS : MetaLsidGid) (queue : List MetaLsidGid) :
    GoneUpTo recS queue (removeOldRecordsFromQueueFile queue recS) where
  parted := by
    refine ⟨(queue.reverse.takeWhile (isOld recS)).reverse, ?_, fun r hr => ?_⟩
    · rw [removeOldRecordsFromQueueFile, ← List.reverse_append, List.takeWhile_append_dropWhile,
        List.reverse_reverse]
    · exact List.mem_takeWhile_imp (List.mem_reverse.mp hr)
  last := by
    intro r hr
    rw [removeOldRecordsFromQueueFile, List.getLast?_reverse] at hr
    have h := List.head?_dropWhile_not (isOld recS) queue.reverse
    rw [hr] at h
    simpa using h
  ordered := removeOldRecordsFromQueueFile_eq

/-- The assertions end the process or have no effect. -/
theorem finishWlogTransfer_eq_ndebug (vol : StorageVolInfo) (recB recE : MetaLsidGid) (lsidE : Nat) :
    (∃ msg, finishWlogTransfer vol recB recE lsidE = .error (.assertion msg)) ∨
      finishWlogTransfer vol recB recE lsidE = finishWlogTransferNdebug vol recB recE lsidE := by
  unfold finishWlogTransfer finishWlogTransferNdebug
  by_cases hq : vol.queue = []
  · exact .inr (by rw [if_pos hq, if_pos hq])
  · rw [if_neg hq, if_neg hq]
    by_cases hr : ¬(recB.lsid ≤ lsidE ∧ lsidE ≤ recE.lsid)
    · exact .inl ⟨_, if_pos hr⟩
    · rw [if_neg hr]
      by_cases hg : lsidE ≠ recE.lsid ∧ recE.gid ≤ recB.gid + 1
      · exact .inl ⟨_, if_pos hg⟩
      · exact .inr (if_neg hg)

theorem finish_of_empty (hq : vol.queue = []) : ∃ e, vol.finish recB recE lsidE = (vol, .error e) := by
  unfold StorageVolInfo.finish finishWlogTransferNdebug
  exact ⟨_, by rw [if_pos hq]⟩

theorem finish_of_nonempty (hq : vol.queue ≠ []) :
    let recS := endRecord recB recE lsidE
    let queue := removeOldRecordsFromQueueFile vol.queue recS
    vol.finish recB recE lsidE = (⟨recS, queue⟩, .ok !queue.isEmpty) := by
  unfold StorageVolInfo.finish finishWlogTransferNdebug
  rw [if_neg hq]

/-- The comparison with the done record has no effect, so an empty queue alone stops a stale
pair. -/
theorem allOrNothing_iff (vol : StorageVolInfo) (recB recE : MetaLsidGid) (lsidE : Nat) :
    AllOrNothing vol recB recE lsidE ↔ EqualLsidGid recB vol.done ∨ vol.queue = [] := by
  constructor
  · intro h
    by_cases heq : EqualLsidGid recB vol.done
    · exact .inl heq
    · right
      by_contra hq
      obtain ⟨e, he⟩ := h.stale heq
      rw [finish_of_nonempty hq] at he
      cases congrArg Prod.snd he
  · intro h
    by_cases hq : vol.queue = []
    · obtain ⟨e, he⟩ := @finish_of_empty vol recB recE lsidE hq
      refine ⟨fun _ => ⟨e, he⟩, fun vol' e' h' => ?_, fun vol' b h' => ?_⟩
      · exact congrArg Prod.fst (h'.symm.trans he)
      · cases congrArg Prod.snd (h'.symm.trans he)
    · have hok := @finish_of_nonempty vol recB recE lsidE hq
      refine ⟨fun hne => absurd (h.resolve_right hq) hne, fun vol' e' h' => ?_, fun vol' b h' => ?_⟩
      · cases congrArg Prod.snd (h'.symm.trans hok)
      · obtain ⟨rfl, hb⟩ := Prod.mk.inj (h'.symm.trans hok)
        refine ⟨rfl, goneUpTo_removeOld _ _, ?_⟩
        cases hb
        simp

/-- The done record was reset after the pair had been prepared; the old pair is taken. -/
theorem not_allOrNothing : ¬∀ vol recB recE lsidE, AllOrNothing vol recB recE lsidE := by
  intro h
  obtain ⟨e, he⟩ := (h ⟨⟨0, 20, false, 9⟩, [⟨64, 21, true, 10⟩]⟩ ⟨32, 4, true, 5⟩ ⟨64, 8, true,
    6⟩ 64).stale (by decide)
  cases congrArg Prod.snd he

end WalbTools.StorageVol
