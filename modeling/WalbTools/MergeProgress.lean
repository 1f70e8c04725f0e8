import Mathlib
import WalbTools.DiffMerge

namespace WalbTools.MergeProgress

open Meta (u64)
open DiffIo DiffIo.DiffRecIo DiffMem DiffMerge DiffMerge.DiffMerger

variable {β : Type}

/-- The records that the calls of `getAndRemove` return between two states. -/
inductive Emits : DiffMerger β → List (DiffRecIo β) → DiffMerger β → Prop
  | refl (m : DiffMerger β) : Emits m [] m
  | turn {m m' m'' : DiffMerger β} {out outs : List (DiffRecIo β)} :
      m.turn = .ok (some (out, m')) → Emits m' outs m'' → Emits m (out ++ outs) m''

/-- `moveToDiffMemory` passes its assertions and reads at least one record. -/
def Progresses (m : DiffMerger β) : Prop :=
  ∃ m', m.moveToDiffMemory = .ok m' ∧ (flat m'.wdiffs).length < (flat m.wdiffs).length

/-- The assertion on the minimum address holds in the first try and in the second,
if there is one. -/
def TriesPass (m : DiffMerger β) : Prop :=
  ∃ m₁ nr, m.tryMoveToDiffMemory = .ok (m₁, nr) ∧ ∃ m₂ nr₂, m₁.tryMoveToDiffMemory = .ok (m₂, nr₂)

variable {lo hi L : Nat} {C : Nat → Option (Cell β)} {out outs : List (DiffRecIo β)}
  {m m' : DiffMerger β}

theorem Emits.inv (he : Emits m outs m') (h : Inv lo hi L C out m) (hhi : hi ≤ maxAddr)
    (hL : hi - lo ≤ L)
    (hLu : L < u64) : Inv lo hi L C (out ++ outs) m' := by
  induction he generalizing out with
  | refl m => rwa [List.append_nil]
  | turn hturn _ ih =>
      have hfit := fits_of_turn h hhi hL hLu hturn
      rcases turn_spec h hhi hL hfit with ⟨hnone, -⟩ | ⟨out', m₁, hturn', h₁, -⟩
      · cases hnone.symm.trans hturn
      · obtain ⟨rfl, rfl⟩ := Prod.mk.inj (Option.some.inj (Except.ok.inj (hturn'.symm.trans hturn)))
        have hrest := ih h₁
        rwa [List.append_assoc] at hrest

theorem tryMoveToDiffMemory_ok (h : Inv lo hi L C out m) (hhi : hi ≤ maxAddr) (hL : hi - lo ≤ L) :
    ∃ m' nr, m.tryMoveToDiffMemory = .ok (m', nr) ∧ Inv lo hi L C out m' := by
  by_cases hne : m.wdiffs = []
  · exact ⟨m, 0, tryMoveToDiffMemory_nil h hne, h⟩
  · obtain ⟨m', nr, htry, h', -⟩ := tryMoveToDiffMemory_spec h hhi hL hne
    exact ⟨m', nr, htry, h'⟩

theorem triesPass (h : Inv lo hi L C out m) (hhi : hi ≤ maxAddr) (hL : hi - lo ≤ L) : TriesPass m := by
  obtain ⟨m₁, nr, htry, h₁⟩ := tryMoveToDiffMemory_ok h hhi hL
  obtain ⟨m₂, nr₂, htry₂, -⟩ := tryMoveToDiffMemory_ok h₁ hhi hL
  exact ⟨m₁, nr, htry, m₂, nr₂, htry₂⟩

theorem progresses_iff (h : Inv lo hi L C out m) (hhi : hi ≤ maxAddr) (hL : hi - lo ≤ L) (hLu : L < u64)
    (hne : m.wdiffs ≠ []) : Progresses m ↔ m.doneAddr + m.searchLen < u64 := by
  constructor
  · rintro ⟨m', hmove, -⟩
    by_contra hwrap
    cases (moveToDiffMemory_wrap h hhi hL hLu hne (not_lt.1 hwrap)).symm.trans hmove
  · intro hfit
    obtain ⟨m', hmove, -, -, -, hlt, -⟩ := moveToDiffMemory_spec h hhi hL hne hfit
    exact ⟨m', hmove, hlt⟩

theorem drained (h : Inv lo hi L C out m) (hhi : hi ≤ maxAddr) (hL : hi - lo ≤ L) (hLu : L < u64)
    (hturn : m.turn = .ok none) : m.wdiffs = [] ∧ m.diffMem.map = [] ∧ DiffMem.content out = C := by
  rcases turn_spec h hhi hL (fits_of_turn h hhi hL hLu hturn)
    with ⟨-, hq, hws, hmap⟩ | ⟨out', m', hturn', -⟩
  · exact ⟨hws, hmap, (h.drained hq hws hmap).2.2⟩
  · cases hturn'.symm.trans hturn

/-- In each state that the calls lead to, a pass over the remaining wdiffs reads a
record exactly when `doneAddr + searchLen` does not wrap around; the calls end
when all records have been returned or overwritten. -/
theorem progresses_iff_fits (wdiffs : List (List (DiffRecIo β))) (searchLen maxIoBlocks : Nat)
    (hne : wdiffs ≠ [])
    (hwf : ∀ l, l ∈ wdiffs → WF l) (hend : ∀ l, l ∈ wdiffs → ∀ r, r ∈ l → r.record.endIoAddress < u64)
    (hlen : searchLen < u64) :
    ∃ m, DiffMerger.prepare wdiffs searchLen maxIoBlocks = .ok m ∧ ∀ out m', Emits m out m' →
      TriesPass m' ∧
      (m'.wdiffs ≠ [] → (Progresses m' ↔ m'.doneAddr + m'.searchLen < u64)) ∧
      (m'.turn = .ok none →
        m'.wdiffs = [] ∧ m'.diffMem.map = [] ∧ DiffMem.content out =
        DiffMem.content wdiffs.flatten) := by
  have hu : maxAddr + 1 = u64 := by decide
  obtain ⟨m, hm, h, -⟩ :=
    DiffMerger.prepare_spec 0 maxAddr maxAddr hne searchLen maxIoBlocks hwf fun l hl r hr => by
    have hr := hend l hl r hr
    omega
  have hL : maxAddr - 0 ≤ maxAddr := Nat.sub_le _ _
  refine ⟨m, hm, fun out m' he => ?_⟩
  have h' := he.inv h le_rfl hL (by omega)
  exact ⟨triesPass h' le_rfl hL, progresses_iff h' le_rfl hL (by omega), drained h' le_rfl hL (by omega)⟩

theorem progresses_iff_fits_two :
    let wdiffs : List (List (DiffRecIo Nat)) :=
      [[⟨⟨0, 2, 1024, .normal⟩, [7, 8]⟩], [⟨⟨1, 2, 0, .discard⟩, []⟩]]
    ∃ m, DiffMerger.prepare wdiffs 8192 2048 = .ok m ∧ ∀ out m', Emits m out m' →
      TriesPass m' ∧
      (m'.wdiffs ≠ [] → (Progresses m' ↔ m'.doneAddr + m'.searchLen < u64)) ∧
      (m'.turn = .ok none →
        m'.wdiffs = [] ∧ m'.diffMem.map = [] ∧ DiffMem.content out =
        DiffMem.content wdiffs.flatten) := by
  refine progresses_iff_fits _ 8192 2048 (by simp) (fun l hl => ?_) (by decide +kernel) (by decide)
  rcases List.mem_cons.1 hl with rfl | hl
  · exact wf_singleton ⟨by decide, fun _ => rfl, fun _ => rfl, fun h => absurd rfl h⟩
  · obtain rfl := List.mem_singleton.1 hl
    exact wf_singleton ⟨by decide, nofun, nofun, fun _ => rfl⟩

/-- The merger when the first of `farRecords` has been returned. -/
def farMerger : DiffMerger Nat :=
  ⟨[⟨⟨⟨2 ^ 64 - 2 ^ 32 + 1, 1, 0, .allZero⟩, []⟩, []⟩], ⟨0, [], 0, 0⟩, [], 2 ^ 64 - 2 ^ 32 + 1,
    2 ^ 32 - 1⟩

/-- The record that is left is never read: `doneAddr + searchLen` is 2^64. -/
theorem far_record_not_read :
    ∃ m r, DiffMerger.prepare [farRecords] 8192 0 = .ok m ∧ Emits m [r] farMerger ∧
      farMerger.wdiffs ≠ [] ∧
      ¬Progresses farMerger := by
  refine ⟨_, ⟨⟨0, 2 ^ 32 - 1, 0, .allZero⟩, []⟩, rfl, ?_, by simp [farMerger], ?_⟩
  · exact @Emits.turn _ _ _ _ [] _ rfl (@Emits.turn _ _ _ _ [_] _ rfl (.refl _))
  · rintro ⟨m', hmove, -⟩
    have herror : farMerger.moveToDiffMemory = .error "nr > 0" := rfl
    cases herror.symm.trans hmove

end WalbTools.MergeProgress
