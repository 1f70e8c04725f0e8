import WalbTools.IndexedContent

namespace WalbTools.IndexedRecord

open Overlay AlignedIo IndexedDiffRecord

def runAdds (maxIoBlocks : Nat) : List IndexedDiffRecord → List IndexedDiffRecord →
    Except String (List IndexedDiffRecord)
  | [], index => .ok index
  | r :: recs, index =>
      match DiffIndexMem.add maxIoBlocks r index with
      | .error e => .error e
      | .ok index => runAdds maxIoBlocks recs index

def lastCovering (recs : List IndexedDiffRecord) (a : Nat) : Option IndexedDiffRecord :=
  recs.reverse.find? fun r => decide (r.ioAddress ≤ a ∧ a < r.endIoAddress)

structure Place where
  type : DiffIo.DiffRecType
  dataOffset : Nat
  dataSize : Nat
  compressionType : Nat
  origBlocks : Nat
  ioChecksum : Nat
  /-- in the original IO -/
  block : Nat

def place (r : IndexedDiffRecord) (a : Nat) : Place where
  type := r.type
  dataOffset := r.dataOffset
  dataSize := r.dataSize
  compressionType := r.compressionType
  origBlocks := r.origBlocks
  ioChecksum := r.ioChecksum
  block := r.ioOffset + (a - r.ioAddress)

instance (r : IndexedDiffRecord) (a : Nat) : Decidable (Covers r a) :=
  inferInstanceAs (Decidable (_ ∧ _))

def placeAt (r : IndexedDiffRecord) (a : Nat) : Option Place :=
  if Covers r a then some (place r a) else none

def places (index : List IndexedDiffRecord) : Nat → Option Place := overlay (index.map placeAt)

variable {r p s : IndexedDiffRecord} {index index' v recs : List IndexedDiffRecord}
  {a maxIoBlocks : Nat} {c : Place}

theorem placeAt_eq_none_iff : placeAt r a = none ↔ ¬Covers r a := by
  rw [placeAt, ite_eq_right_iff]
  exact ⟨fun h hc => Option.some_ne_none _ (h hc), fun h hc => absurd hc h⟩

theorem placeAt_eq_some_iff : placeAt r a = some c ↔ Covers r a ∧ place r a = c := by
  rw [placeAt, Option.ite_none_right_eq_some, Option.some_inj]

theorem Sub.place_eq (h : Sub r p) (hc : Covers p a) : place p a = place r a := by
  have hoff := h.ioOffset_eq
  have hb := h.begin_le
  have hblock : p.ioOffset + (a - p.ioAddress) = r.ioOffset + (a - r.ioAddress) := by
    have hp := hc.1
    omega
  rw [place, hblock, h.eq]
  rfl

theorem Ordered.disjoint (h : Ordered index) : (index.map placeAt).Pairwise Disjoint := by
  apply List.pairwise_map.2
  apply h.pairwise.imp
  intro p q hpq a
  rw [placeAt_eq_none_iff, placeAt_eq_none_iff]
  by_cases hp : Covers p a
  · exact .inr fun hq => absurd (hp.2.trans_le hpq) hq.1.not_gt
  · exact .inl hp

theorem places_eq_some_iff (h : Ordered index) :
    places index a = some c ↔ ∃ p, p ∈ index ∧ Covers p a ∧ place p a = c := by
  rw [places, overlay_eq_some_iff (Ordered.disjoint h)]
  simp only [List.mem_map, exists_exists_and_eq_and, placeAt_eq_some_iff]

theorem places_eq_none_iff : places index a = none ↔ ∀ p, p ∈ index → ¬Covers p a := by
  rw [places, overlay_eq_none_iff, List.forall_mem_map]
  simp only [placeAt_eq_none_iff]

theorem Parts.places_eq (h : Parts r (Covers r) v) : places v = placeAt r := by
  funext a
  apply Option.ext
  intro c
  rw [places_eq_some_iff h.ordered, placeAt_eq_some_iff]
  constructor
  · rintro ⟨p, hp, hc, rfl⟩
    exact ⟨(h.sub p hp).covers hc, ((h.sub p hp).place_eq hc).symm⟩
  · rintro ⟨hc, rfl⟩
    obtain ⟨p, hp, hcp⟩ := (h.covers a).2 hc
    exact ⟨p, hp, hcp, (h.sub p hp).place_eq hcp⟩

theorem Added.places_eq (h : Added index r index') (hidx : Index index) :
    places index' = cover (placeAt r) (places index) := by
  funext a
  apply Option.ext
  intro c
  rw [places_eq_some_iff h.wf.ordered, cover, Option.or_eq_some_iff, placeAt_eq_none_iff,
    placeAt_eq_some_iff,
    places_eq_some_iff hidx.ordered]
  constructor
  · rintro ⟨p, hp, hcov, hc⟩
    rcases h.only p hp with rfl | ⟨hp, ho⟩ | ⟨s, hs, hsub, -, hn⟩
    · exact .inl ⟨hcov, hc⟩
    · exact .inr ⟨not_covers_of_isOverlapped ho hcov, p, hp, hcov, hc⟩
    · exact .inr ⟨hn a hcov, s, hs, hsub.covers hcov, (hsub.place_eq hcov).symm.trans hc⟩
  · rintro (⟨hcov, hc⟩ | ⟨hn, s, hs, hcov, hc⟩)
    · exact ⟨r, h.self, hcov, hc⟩
    · cases ho : s.isOverlapped r with
      | false => exact ⟨s, h.keep s hs ho, hcov, hc⟩
      | true =>
          obtain ⟨p, hp, hsub, hcp⟩ := h.rest s hs ho a hcov hn
          exact ⟨p, hp, hcp, (hsub.place_eq hcp).trans hc⟩

/-- The size of a stored piece is within the maximum; 0 means no maximum. -/
def Within (maxIoBlocks : Nat) (r : IndexedDiffRecord) : Prop :=
  0 < maxIoBlocks → r.ioBlocks ≤ maxIoBlocks

theorem ioBlocks_mem_splitPieces {addr off : Nat} {sizeV : List Nat}
    (hp : p ∈ r.splitPieces addr off sizeV) : p.ioBlocks ∈ sizeV := by
  induction sizeV generalizing addr off with
  | nil => exact absurd hp List.not_mem_nil
  | cons s sizeV ih =>
      rw [splitPieces] at hp
      rcases List.mem_cons.1 hp with rfl | hp
      · exact List.mem_cons_self
      · exact List.mem_cons_of_mem s (ih hp)

theorem within_split (hp : p ∈ r.split maxIoBlocks) : Within maxIoBlocks p := fun hm =>
  le_of_mem_splitIoToAligned hm (ioBlocks_mem_splitPieces hp)

theorem within_addDetail (hr : Within maxIoBlocks r) (hi : ∀ p, p ∈ index → Within maxIoBlocks p)
    (h : DiffIndexMem.addDetail maxIoBlocks r index = .ok index') :
    ∀ p, p ∈ index' → Within maxIoBlocks p := by
  rw [DiffIndexMem.addDetail] at h
  split_ifs at h
  refine RangeMap.forall_overwrite (fun s v hv p hp => ?_) hr hi h
  rw [DiffIndexMem.minusSplit] at hv
  cases hm : s.minus r with
  | error e =>
      rw [hm] at hv
      cases hv
  | ok w =>
      rw [hm] at hv
      obtain rfl := Except.ok.inj hv
      obtain ⟨q, -, hp⟩ := List.mem_flatMap.1 hp
      exact within_split hp

structure Holds (maxIoBlocks : Nat) (recs index : List IndexedDiffRecord) : Prop where
  wf : Index index
  fits : ∀ p, p ∈ index → Fits p
  within : ∀ p, p ∈ index → Within maxIoBlocks p
  places : places index = places recs

theorem holds_nil (maxIoBlocks : Nat) : Holds maxIoBlocks [] [] where
  wf := ⟨RangeMap.Ordered.nil, fun _ h => absurd h List.not_mem_nil⟩
  fits _ h := absurd h List.not_mem_nil
  within _ h := absurd h List.not_mem_nil
  places := rfl

theorem places_concat (recs : List IndexedDiffRecord) (r : IndexedDiffRecord) :
    IndexedRecord.places (recs ++ [r]) = cover (placeAt r) (IndexedRecord.places recs) := by
  rw [IndexedRecord.places, List.map_append, overlay_append]
  exact congrArg (cover · _) overlay_singleton

theorem places_append (v w : List IndexedDiffRecord) :
    IndexedRecord.places (v ++ w) = cover (IndexedRecord.places w) (IndexedRecord.places v) := by
  rw [IndexedRecord.places, List.map_append, overlay_append]
  rfl

theorem Holds.addAll (h : Holds maxIoBlocks recs index)
    (hv : ∀ p, p ∈ v → AlignedRec p ∧ Fits p ∧ Within maxIoBlocks p) :
    ∃ index', DiffIndexMem.addAll maxIoBlocks v index = .ok index' ∧
      Holds maxIoBlocks (recs ++ v) index' := by
  induction v generalizing recs index with
  | nil => exact ⟨index, rfl, (List.append_nil recs).symm ▸ h⟩
  | cons p v ih =>
      obtain ⟨⟨hal, hfit, hin⟩, hv⟩ := List.forall_mem_cons.1 hv
      obtain ⟨index₁, hadd, hadded⟩ := addDetail_spec maxIoBlocks h.wf hal
      have h₁ : Holds maxIoBlocks (recs ++ [p]) index₁ := by
        refine ⟨hadded.wf, fun q hq => ?_, within_addDetail hin h.within hadd, ?_⟩
        · rcases hadded.origin hq with rfl | hq | ⟨s, hs, hsub⟩
          · exact hfit
          · exact h.fits q hq
          · exact (h.fits s hs).sub hsub
        · rw [hadded.places_eq h.wf, places_concat, h.places]
      obtain ⟨index', hall, hh⟩ := ih h₁ hv
      refine ⟨index', by rw [DiffIndexMem.addAll, hadd]; exact hall, ?_⟩
      rwa [List.append_assoc, List.singleton_append] at hh

theorem Holds.add (h : Holds maxIoBlocks recs index) (hr : Fits r) :
    ∃ index', DiffIndexMem.add maxIoBlocks r index = .ok index' ∧
      Holds maxIoBlocks (recs ++ [r]) index' := by
  have hparts := split_parts maxIoBlocks r
  obtain ⟨index', hall, hh⟩ := h.addAll (v := r.split maxIoBlocks) fun p hp =>
    ⟨hparts.aligned p hp, hr.sub (hparts.sub p hp), within_split hp⟩
  refine ⟨index', hall, hh.wf, hh.fits, hh.within, ?_⟩
  rw [hh.places, places_append, places_concat, hparts.places_eq]

theorem Holds.runAdds {more : List IndexedDiffRecord} (h : Holds maxIoBlocks recs index)
    (hr : ∀ r, r ∈ more → Fits r) :
    ∃ index', runAdds maxIoBlocks more index = .ok index' ∧ Holds maxIoBlocks (recs ++ more) index' := by
  induction more generalizing recs index with
  | nil => exact ⟨index, rfl, (List.append_nil recs).symm ▸ h⟩
  | cons r more ih =>
      obtain ⟨hfit, hr⟩ := List.forall_mem_cons.1 hr
      obtain ⟨index₁, hadd, h₁⟩ := h.add hfit
      obtain ⟨index', hrun, hh⟩ := ih h₁ hr
      refine ⟨index', by rw [IndexedRecord.runAdds, hadd]; exact hrun, ?_⟩
      rwa [List.append_assoc, List.singleton_append] at hh

theorem places_eq_lastCovering (recs : List IndexedDiffRecord) (a : Nat) :
    places recs a = (lastCovering recs a).map fun r => place r a := by
  induction recs using List.reverseRecOn with
  | nil => rfl
  | append_singleton recs r ih =>
      rw [places_concat, cover, ih, lastCovering, lastCovering, List.reverse_append,
        List.reverse_singleton, List.singleton_append,
        List.find?_cons]
      by_cases hc : Covers r a
      · have hd : decide (r.ioAddress ≤ a ∧ a < r.endIoAddress) = true := decide_eq_true hc
        rw [placeAt, if_pos hc, hd]
        rfl
      · have hd : decide (r.ioAddress ≤ a ∧ a < r.endIoAddress) = false := decide_eq_false hc
        rw [placeAt_eq_none_iff.2 hc, hd]
        rfl

/-- The index maps each block to the data of the last added record that covers it. -/
theorem index_points_at_data (maxIoBlocks : Nat) (recs : List IndexedDiffRecord)
    (hr : ∀ r, r ∈ recs → Fits r) :
    ∃ index, runAdds maxIoBlocks recs [] = .ok index ∧ index.Pairwise
      (fun p q => p.endIoAddress ≤ q.ioAddress) ∧
      (∀ p, p ∈ index → Fits p ∧ Aligned p.ioAddress p.ioBlocks ∧
      (0 < maxIoBlocks → p.ioBlocks ≤ maxIoBlocks)) ∧
      ∀ a, match lastCovering recs a with
        | none => ∀ p, p ∈ index → ¬Covers p a
        | some r =>
            (∃ p, p ∈ index ∧ Covers p a) ∧
              ∀ p, p ∈ index → Covers p a → place p a = place r a := by
  obtain ⟨index, hrun, h⟩ := (holds_nil maxIoBlocks).runAdds hr
  rw [List.nil_append] at h
  refine ⟨index, hrun, h.wf.ordered.pairwise, fun p hp =>
    ⟨h.fits p hp, h.wf.aligned p hp, h.within p hp⟩, fun a => ?_⟩
  have hplaces := congrFun h.places a
  rw [places_eq_lastCovering recs] at hplaces
  cases hl : lastCovering recs a with
  | none =>
      rw [hl] at hplaces
      exact places_eq_none_iff.1 hplaces
  | some r =>
      rw [hl] at hplaces
      obtain ⟨p, hp, hc, -⟩ := (places_eq_some_iff h.wf.ordered).1 hplaces
      refine ⟨⟨p, hp, hc⟩, fun q hq hcq => ?_⟩
      exact Option.some.inj (((places_eq_some_iff h.wf.ordered).2 ⟨q, hq, hcq, rfl⟩).symm.trans hplaces)

def twoRecords : List IndexedDiffRecord :=
  [⟨0, 10, 0, 0, 100, 5120, 0, 10, 0, 0⟩, ⟨3, 5, 4, 0, 0, 0, 0, 5, 0, 0⟩]

theorem fits_twoRecords : ∀ r, r ∈ twoRecords → Fits r := by
  intro r hr
  simp only [twoRecords, List.mem_cons, List.not_mem_nil, or_false] at hr
  rcases hr with rfl | rfl
  · exact ⟨by decide, by decide, by decide, by decide, by decide, by decide, by decide, by decide⟩
  · exact ⟨by decide, by decide, by decide, by decide, by decide, by decide, by decide, by decide⟩

theorem index_points_at_data_two :
    ∃ index, runAdds 4 twoRecords [] = .ok index ∧ index.Pairwise
      (fun p q => p.endIoAddress ≤ q.ioAddress) ∧
      (∀ p, p ∈ index → Fits p ∧ Aligned p.ioAddress p.ioBlocks ∧ (0 < 4 → p.ioBlocks ≤ 4)) ∧
      ∀ a, match lastCovering twoRecords a with
        | none => ∀ p, p ∈ index → ¬Covers p a
        | some r =>
            (∃ p, p ∈ index ∧ Covers p a) ∧
              ∀ p, p ∈ index → Covers p a → place p a = place r a :=
  index_points_at_data 4 twoRecords fits_twoRecords

end WalbTools.IndexedRecord
