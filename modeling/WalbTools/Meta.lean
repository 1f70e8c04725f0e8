import Mathlib

namespace WalbTools.Meta

/-- The values of a `uint64_t` are the naturals below this bound. -/
def u64 : Nat := 2 ^ 64

/-- A snapshot `|gidB,gidE|`, or `|gidB|` when it is clean. The bound that
`MetaSnap::verify` checks after each construction is a field. -/
structure MetaSnap where
  gidB : Nat
  gidE : Nat
  verify : gidB ≤ gidE
  deriving DecidableEq

namespace MetaSnap

def clean (gid : Nat) : MetaSnap := ⟨gid, gid, le_rfl⟩

def isClean (s : MetaSnap) : Prop := s.gidB = s.gidE

def isDirty (s : MetaSnap) : Prop := s.gidB ≠ s.gidE

instance (s : MetaSnap) : Decidable s.isClean := inferInstanceAs (Decidable (_ = _))

instance (s : MetaSnap) : Decidable s.isDirty := inferInstanceAs (Decidable (_ ≠ _))

theorem eq_of_gids {s t : MetaSnap} (hB : s.gidB = t.gidB) (hE : s.gidE = t.gidE) : s = t := by
  cases s
  cases t
  simp_all

@[simp] theorem clean_gidB (gid : Nat) : (clean gid).gidB = gid := rfl

@[simp] theorem clean_gidE (gid : Nat) : (clean gid).gidE = gid := rfl

@[simp] theorem clean_isClean (gid : Nat) : (clean gid).isClean := rfl

end MetaSnap

/-- A diff `snapB-->snapE`. As in the source a value need not satisfy
`verify`: the default constructor and `merge` do not call it. -/
structure MetaDiff where
  isMergeable : Bool
  isCompDiff : Bool
  timestamp : Nat
  snapB : MetaSnap
  snapE : MetaSnap
  dataSize : Nat
  deriving DecidableEq

namespace MetaDiff

/-- The constructor from two snapshots, without its call of `verify`. -/
def ofSnaps (snapB snapE : MetaSnap) (isMergeable : Bool) (ts : Nat) : MetaDiff :=
  ⟨isMergeable, false, ts, snapB, snapE, 0⟩

/-- `operator==`: diffs are identified by their snapshots only. -/
def opEq (d e : MetaDiff) : Prop := d.snapB = e.snapB ∧ d.snapE = e.snapE

instance (d e : MetaDiff) : Decidable (opEq d e) := inferInstanceAs (Decidable (_ ∧ _))

def isClean (d : MetaDiff) : Prop := d.snapB.isClean ∧ d.snapE.isClean

def isDirty (d : MetaDiff) : Prop := d.snapB.isDirty ∨ d.snapE.isDirty

instance (d : MetaDiff) : Decidable d.isClean := inferInstanceAs (Decidable (_ ∧ _))

instance (d : MetaDiff) : Decidable d.isDirty := inferInstanceAs (Decidable (_ ∨ _))

def verify (d : MetaDiff) : Except String Unit :=
  if d.snapB.gidB ≥ d.snapE.gidB then .error "MetaDiff::broken progress constraint for B"
  else if d.snapB.gidE > d.snapE.gidE then .error "MetaDiff::broken progress constraint for E"
  else .ok ()

structure Valid (d : MetaDiff) : Prop where
  progressB : d.snapB.gidB < d.snapE.gidB
  progressE : d.snapB.gidE ≤ d.snapE.gidE
  fits : d.snapE.gidE < u64

instance (d : MetaDiff) : Decidable d.Valid :=
  decidable_of_iff (d.snapB.gidB < d.snapE.gidB ∧ d.snapB.gidE ≤ d.snapE.gidE ∧ d.snapE.gidE < u64)
    ⟨fun h => ⟨h.1, h.2.1, h.2.2⟩, fun h => ⟨h.1, h.2, h.3⟩⟩

@[simp] theorem opEq_refl (d : MetaDiff) : d.opEq d := ⟨rfl, rfl⟩

theorem opEq.symm {d e : MetaDiff} (h : d.opEq e) : e.opEq d := ⟨h.1.symm, h.2.symm⟩

theorem opEq.trans {d e f : MetaDiff} (h : d.opEq e) (h' : e.opEq f) : d.opEq f :=
  ⟨h.1.trans h'.1, h.2.trans h'.2⟩

theorem isDirty_iff_not_isClean (d : MetaDiff) : d.isDirty ↔ ¬d.isClean := by
  simp only [isDirty, isClean, MetaSnap.isDirty, MetaSnap.isClean]
  tauto

theorem verify_eq_ok_iff (d : MetaDiff) :
    d.verify = .ok () ↔ d.snapB.gidB < d.snapE.gidB ∧ d.snapB.gidE ≤ d.snapE.gidE := by
  unfold verify
  split_ifs with h₀ h₁
  · simp; omega
  · simp; omega
  · simp; omega

theorem Valid.gidB_lt {d : MetaDiff} (h : d.Valid) : d.snapE.gidB < u64 :=
  lt_of_le_of_lt d.snapE.verify h.fits

end MetaDiff

/-- The state `<snapB>` or `<snapB-->snapE>` of a base image; `snapE` has a
meaning only while `isApplying`. -/
structure MetaState where
  isApplying : Bool
  timestamp : Nat
  snapB : MetaSnap
  snapE : MetaSnap
  isExplicit : Bool
  deriving DecidableEq

namespace MetaState

def ofSnap (snap : MetaSnap) (ts : Nat) : MetaState := ⟨false, ts, snap, snap, false⟩

def ofSnaps (snapB snapE : MetaSnap) (ts : Nat) : MetaState := ⟨true, ts, snapB, snapE, false⟩

def opEq (st st' : MetaState) : Prop :=
  st.isApplying = st'.isApplying ∧ st.snapB = st'.snapB ∧ (st.isApplying → st.snapE = st'.snapE)

instance (st st' : MetaState) : Decidable (opEq st st') := inferInstanceAs (Decidable (_ ∧ _ ∧ (_ → _)))

end MetaState

inductive Relation where
  | tooOldDiff | tooNewDiff | applicableDiff | notApplicableDiff
  deriving DecidableEq

def getRelation (s : MetaSnap) (d : MetaDiff) : Relation :=
  if d.snapB.gidB > s.gidB then .tooNewDiff
  else if d.snapE.gidB ≤ s.gidB then .tooOldDiff
  else .applicableDiff

def canApply (snap : MetaSnap) (diff : MetaDiff) : Prop := getRelation snap diff = .applicableDiff

def isTooOld (snap : MetaSnap) (diff : MetaDiff) : Prop := getRelation snap diff = .tooOldDiff

def isTooNew (snap : MetaSnap) (diff : MetaDiff) : Prop := getRelation snap diff = .tooNewDiff

instance (snap : MetaSnap) (diff : MetaDiff) : Decidable (canApply snap diff) :=
  inferInstanceAs (Decidable (_ = _))

instance (snap : MetaSnap) (diff : MetaDiff) : Decidable (isTooOld snap diff) :=
  inferInstanceAs (Decidable (_ = _))

instance (snap : MetaSnap) (diff : MetaDiff) : Decidable (isTooNew snap diff) :=
  inferInstanceAs (Decidable (_ = _))

theorem canApply_iff {s : MetaSnap} {d : MetaDiff} :
    canApply s d ↔ d.snapB.gidB ≤ s.gidB ∧ s.gidB < d.snapE.gidB := by
  unfold canApply getRelation
  split_ifs <;> simp <;> omega

def applied (snap : MetaSnap) (diff : MetaDiff) : MetaSnap :=
  if diff.isClean then
    ⟨diff.snapE.gidB, max diff.snapE.gidB snap.gidE, le_max_left _ _⟩
  else diff.snapE

def apply (snap : MetaSnap) (diff : MetaDiff) : Except String MetaSnap :=
  if canApply snap diff then .ok (applied snap diff) else .error "apply:can not apply"

@[simp] theorem applied_gidB (s : MetaSnap) (d : MetaDiff) : (applied s d).gidB = d.snapE.gidB := by
  unfold applied
  split_ifs <;> rfl

theorem applied_gidE_of_isClean (s : MetaSnap) {d : MetaDiff} (h : d.isClean) :
    (applied s d).gidE = max d.snapE.gidB s.gidE := by
  simp [applied, h]

theorem applied_of_not_isClean (s : MetaSnap) {d : MetaDiff} (h : ¬d.isClean) :
    applied s d = d.snapE := by
  simp [applied, h]

theorem applied_congr (s : MetaSnap) {d e : MetaDiff} (h : d.opEq e) : applied s d = applied s e := by
  have hiff : d.isClean ↔ e.isClean := by rw [MetaDiff.isClean, MetaDiff.isClean, h.1, h.2]
  by_cases hc : d.isClean
  · refine MetaSnap.eq_of_gids (by rw [applied_gidB, applied_gidB, h.2]) ?_
    rw [applied_gidE_of_isClean s hc, applied_gidE_of_isClean s (hiff.1 hc), h.2]
  · rw [applied_of_not_isClean s hc, applied_of_not_isClean s (fun he => hc (hiff.2 he)), h.2]

theorem gidE_le_applied_gidE (s : MetaSnap) (d : MetaDiff) : d.snapE.gidE ≤ (applied s d).gidE := by
  unfold applied
  split_ifs with h
  · exact h.2.symm.le.trans (le_max_left _ _)
  · exact le_rfl

theorem apply_eq_ok_iff {s t : MetaSnap} {d : MetaDiff} :
    apply s d = .ok t ↔ canApply s d ∧ applied s d = t := by
  unfold apply
  split_ifs with h <;> simp [h]

def canApplyVec : MetaSnap → List MetaDiff → Prop
  | _, [] => True
  | s, d :: v => canApply s d ∧ canApplyVec (applied s d) v

instance decidableCanApplyVec : (s : MetaSnap) → (v : List MetaDiff) → Decidable (canApplyVec s v)
  | _, [] => isTrue trivial
  | s, d :: v =>
      haveI := decidableCanApplyVec (applied s d) v
      inferInstanceAs (Decidable (_ ∧ _))

/-- The loop of `apply(snap, v)` without the exception it throws on a diff
that can not be applied. -/
def appliedVec : MetaSnap → List MetaDiff → MetaSnap
  | s, [] => s
  | s, d :: v => appliedVec (applied s d) v

def applyVec : MetaSnap → List MetaDiff → Except String MetaSnap
  | s, [] => .ok s
  | s, d :: v => do
      let s ← apply s d
      applyVec s v

@[simp] theorem canApplyVec_nil (s : MetaSnap) : canApplyVec s [] := trivial

@[simp] theorem canApplyVec_cons (s : MetaSnap) (d : MetaDiff) (v : List MetaDiff) :
    canApplyVec s (d :: v) ↔ canApply s d ∧ canApplyVec (applied s d) v := Iff.rfl

@[simp] theorem appliedVec_nil (s : MetaSnap) : appliedVec s [] = s := rfl

@[simp] theorem appliedVec_cons (s : MetaSnap) (d : MetaDiff) (v : List MetaDiff) :
    appliedVec s (d :: v) = appliedVec (applied s d) v := rfl

theorem appliedVec_append (s : MetaSnap) (v w : List MetaDiff) :
    appliedVec s (v ++ w) = appliedVec (appliedVec s v) w := by
  induction v generalizing s with
  | nil => rfl
  | cons d v ih => exact ih (applied s d)

theorem canApplyVec_append (s : MetaSnap) (v w : List MetaDiff) :
    canApplyVec s (v ++ w) ↔ canApplyVec s v ∧ canApplyVec (appliedVec s v) w := by
  induction v generalizing s with
  | nil => simp
  | cons d v ih => simp [ih, and_assoc]

theorem gidB_le_appliedVec_gidB {s : MetaSnap} {v : List MetaDiff} (h : canApplyVec s v) :
    s.gidB ≤ (appliedVec s v).gidB := by
  induction v generalizing s with
  | nil => exact le_rfl
  | cons d v ih =>
      have hd := (canApply_iff.1 h.1).2
      have hv := ih h.2
      rw [applied_gidB] at hv
      exact hd.le.trans hv

def canMerge (d0 d1 : MetaDiff) : Prop :=
  d1.isMergeable = true ∧ ¬(d0.isCompDiff = true ∨ d1.isCompDiff = true) ∧
    d0.snapB.gidB ≤ d1.snapB.gidB ∧ d1.snapB.gidB ≤ d0.snapE.gidB ∧ d0.snapE.gidB < d1.snapE.gidB

instance (d0 d1 : MetaDiff) : Decidable (canMerge d0 d1) :=
  inferInstanceAs (Decidable (_ ∧ _ ∧ _ ∧ _ ∧ _))

/-- `d0 +++ d1`; the source asserts `canMerge d0 d1`. The fields it does not
set keep the values of the default constructor. -/
def merge (d0 d1 : MetaDiff) : MetaDiff where
  isMergeable := d0.isMergeable
  isCompDiff := false
  timestamp := d1.timestamp
  snapB := d0.snapB
  snapE :=
    if d1.isClean then
      ⟨d1.snapE.gidB, max d1.snapE.gidB d0.snapE.gidE, le_max_left _ _⟩
    else d1.snapE
  dataSize := 0

theorem merge_snapE (d0 d1 : MetaDiff) : (merge d0 d1).snapE = applied d0.snapE d1 := rfl

@[simp] theorem merge_snapB (d0 d1 : MetaDiff) : (merge d0 d1).snapB = d0.snapB := rfl

@[simp] theorem merge_snapE_gidB (d0 d1 : MetaDiff) :
    (merge d0 d1).snapE.gidB = d1.snapE.gidB := by
  rw [merge_snapE, applied_gidB]

@[simp] theorem merge_isMergeable (d0 d1 : MetaDiff) :
    (merge d0 d1).isMergeable = d0.isMergeable := rfl

@[simp] theorem merge_isCompDiff (d0 d1 : MetaDiff) : (merge d0 d1).isCompDiff = false := rfl

@[simp] theorem merge_timestamp (d0 d1 : MetaDiff) : (merge d0 d1).timestamp = d1.timestamp := rfl

/-- The merge loop of `merge(v)` from its accumulator `mdiff`. -/
def mergeFrom : MetaDiff → List MetaDiff → Except String MetaDiff
  | mdiff, [] => .ok mdiff
  | mdiff, d :: v =>
      if canMerge mdiff d then mergeFrom (merge mdiff d) v else .error "merge:can not merge"

def mergeVec : List MetaDiff → Except String MetaDiff
  | [] => .error "merge:empty vector."
  | d :: v => mergeFrom d v

/-- `contains diffC diff`: once `diffC` is kept, `diff` can be deleted. -/
def contains (diffC diff : MetaDiff) : Prop :=
  diffC.snapB.gidB ≤ diff.snapB.gidB ∧ diff.snapE.gidB ≤ diffC.snapE.gidB

instance (diffC diff : MetaDiff) : Decidable (contains diffC diff) :=
  inferInstanceAs (Decidable (_ ∧ _))

namespace MetaState

def canApply (st : MetaState) (diff : MetaDiff) : Prop :=
  Meta.canApply st.snapB diff ∧ (st.isApplying → st.snapE.gidB ≤ diff.snapE.gidB)

instance (st : MetaState) (diff : MetaDiff) : Decidable (st.canApply diff) :=
  inferInstanceAs (Decidable (_ ∧ (_ → _)))

/-- `beginApplying(st, diff)`, whose assertion is `st.canApply diff`. -/
def beginApplying (st : MetaState) (diff : MetaDiff) : MetaState :=
  ofSnaps st.snapB (applied st.snapB diff) diff.timestamp

def endApplying (st : MetaState) (diff : MetaDiff) : MetaState :=
  ofSnap (applied st.snapB diff) diff.timestamp

def apply (st : MetaState) (diff : MetaDiff) : MetaState := st.endApplying diff

def canApplyVec (st : MetaState) (v : List MetaDiff) : Prop :=
  Meta.canApplyVec st.snapB v ∧
    ¬(st.isApplying ∧ st.snapE.gidB > (appliedVec st.snapB v).gidB)

instance (st : MetaState) (v : List MetaDiff) : Decidable (st.canApplyVec v) :=
  inferInstanceAs (Decidable (_ ∧ ¬(_ ∧ _)))

def beginApplyingVec (st : MetaState) (v : List MetaDiff) : MetaState :=
  match v.getLast? with
  | none => st
  | some d => ofSnaps st.snapB (appliedVec st.snapB v) d.timestamp

def endApplyingVec (st : MetaState) (v : List MetaDiff) : MetaState :=
  match v.getLast? with
  | none => st
  | some d => ofSnap (appliedVec st.snapB v) d.timestamp

def applyVec (st : MetaState) (v : List MetaDiff) : MetaState := st.endApplyingVec v

theorem endApplyingVec_snapB (st : MetaState) (v : List MetaDiff) :
    (st.endApplyingVec v).snapB = appliedVec st.snapB v := by
  unfold endApplyingVec
  cases v using List.reverseRecOn with
  | nil => rfl
  | append_singleton v d => simp [ofSnap]

theorem endApplyingVec_isApplying (st : MetaState) {v : List MetaDiff} (hv : v ≠ []) :
    (st.endApplyingVec v).isApplying = false := by
  unfold endApplyingVec
  cases v using List.reverseRecOn with
  | nil => exact absurd rfl hv
  | append_singleton v d => simp [ofSnap]

end MetaState

end WalbTools.Meta
