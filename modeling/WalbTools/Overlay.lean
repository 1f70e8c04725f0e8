import Mathlib

namespace WalbTools.Overlay

variable {α γ : Type}

/-- Partial contents of an image: where `f` has a value it hides `g`. -/
def cover (f g : α → Option γ) : α → Option γ := fun a => (f a).or (g a)

/-- The contents of a list of layers, the oldest first. -/
def overlay : List (α → Option γ) → α → Option γ
  | [] => fun _ => none
  | f :: fs => cover (overlay fs) f

def write (f : α → Option γ) (img : α → γ) : α → γ := fun a => (f a).getD (img a)

def mapVal {δ : Type} (v : γ → δ) (f : α → Option γ) : α → Option δ := fun a => (f a).map v

def Disjoint (f g : α → Option γ) : Prop := ∀ a, f a = none ∨ g a = none

variable {f g h : α → Option γ} {fs gs : List (α → Option γ)} {a : α} {c : γ}

theorem cover_assoc : cover (cover f g) h = cover f (cover g h) := by
  funext a
  exact Option.or_assoc

theorem cover_none : cover f (fun _ => none) = f := by
  funext a
  exact Option.or_none

theorem none_cover : cover (fun _ => none) f = f := by
  funext a
  exact Option.none_or

theorem cover_eq_none_iff : cover f g a = none ↔ f a = none ∧ g a = none := Option.or_eq_none_iff

theorem Disjoint.symm (hd : Disjoint f g) : Disjoint g f := fun a => (hd a).symm

theorem cover_comm (hd : Disjoint f g) : cover f g = cover g f := by
  funext a
  rcases hd a with ha | ha
  · rw [cover, cover, ha, Option.none_or, Option.or_none]
  · rw [cover, cover, ha, Option.none_or, Option.or_none]

theorem cover_left_comm (hd : Disjoint f g) : cover f (cover g h) = cover g (cover f h) := by
  rw [← cover_assoc, cover_comm hd, cover_assoc]

theorem overlay_append : overlay (fs ++ gs) = cover (overlay gs) (overlay fs) := by
  induction fs with
  | nil => exact cover_none.symm
  | cons f fs ih => rw [List.cons_append, overlay, ih, overlay, cover_assoc]

theorem overlay_singleton : overlay [f] = f := none_cover

theorem overlay_eq_none_iff : overlay fs a = none ↔ ∀ f, f ∈ fs → f a = none := by
  induction fs with
  | nil => simp [overlay]
  | cons f fs ih =>
      rw [overlay, cover_eq_none_iff, ih, List.forall_mem_cons]
      exact and_comm

theorem disjoint_overlay (hd : ∀ g, g ∈ fs → Disjoint f g) : Disjoint f (overlay fs) := by
  intro a
  by_cases ha : f a = none
  · exact .inl ha
  · exact .inr (overlay_eq_none_iff.2 fun g hg => (hd g hg a).resolve_left ha)

/-- Where no two layers meet, the content is that of the layer which is there. -/
theorem overlay_eq_some_iff (hd : fs.Pairwise Disjoint) :
    overlay fs a = some c ↔ ∃ f, f ∈ fs ∧ f a = some c := by
  induction fs with
  | nil => simp [overlay]
  | cons f fs ih =>
      obtain ⟨hf, hfs⟩ := List.pairwise_cons.1 hd
      rw [overlay, cover_comm (disjoint_overlay hf).symm, cover, List.exists_mem_cons_iff, ← ih hfs]
      rcases disjoint_overlay hf a with ha | ha
      · simp [ha]
      · simp [ha]

theorem mapVal_cover {δ : Type} (v : γ → δ) :
    mapVal v (cover f g) = cover (mapVal v f) (mapVal v g) := by
  funext a
  rw [mapVal, cover, cover, mapVal, mapVal]
  cases f a <;> rfl

theorem overlay_mapVal {δ : Type} (v : γ → δ) (fs : List (α → Option γ)) :
    overlay (fs.map (mapVal v)) = mapVal v (overlay fs) := by
  induction fs with
  | nil => rfl
  | cons f fs ih => rw [List.map_cons, overlay, ih, overlay, mapVal_cover]

theorem mapVal_eq_none_iff {δ : Type} {v : γ → δ} : mapVal v f a = none ↔ f a = none :=
  Option.map_eq_none_iff

theorem write_write (img : α → γ) : write g (write f img) = write (cover g f) img := by
  funext a
  rw [write, write, write, cover]
  cases g a <;> rfl

theorem write_of_none {img : α → γ} (h : f a = none) : write f img a = img a := by
  rw [write, h]
  rfl

theorem foldl_write (img : α → γ) : fs.foldl (fun img f => write f img) img =
    write (overlay fs) img := by
  induction fs generalizing img with
  | nil => rfl
  | cons f fs ih => rw [List.foldl_cons, ih, write_write, overlay]

theorem write_congr {img img' : α → γ} (h : ∀ a, f a = none → img a = img' a) :
    write f img = write f img' := by
  funext a
  rw [write, write]
  cases ha : f a with
  | none => exact h a ha
  | some c => rfl

def stretch (pos : Nat) (l : List γ) : Nat → Option γ := fun a => if pos ≤ a then l[a - pos]? else none

def slice (img : Nat → γ) (pos n : Nat) : List γ := (List.range n).map fun k => img (pos + k)

section

variable {img : Nat → γ} {pos n a : Nat} {l m : List γ}

@[simp] theorem length_slice : (slice img pos n).length = n := by simp [slice]

theorem getElem?_slice {k : Nat} (hk : k < n) : (slice img pos n)[k]? = some (img (pos + k)) := by
  simp [slice, hk]

theorem mem_slice : c ∈ slice img pos n ↔ ∃ a, pos ≤ a ∧ a < pos + n ∧ img a = c := by
  simp only [slice, List.mem_map, List.mem_range]
  constructor
  · rintro ⟨k, hk, rfl⟩
    exact ⟨pos + k, by omega, by omega, rfl⟩
  · rintro ⟨a, hp, ha, rfl⟩
    exact ⟨a - pos, by omega, by rw [Nat.add_sub_cancel' hp]⟩

theorem slice_append {m : Nat} : slice img pos (n + m) = slice img pos n ++ slice img (pos + n) m := by
  rw [slice, List.range_add, List.map_append, List.map_map]
  refine congrArg _ (List.map_congr_left fun i _ => ?_)
  rw [Function.comp_apply, Nat.add_assoc]

theorem drop_slice {k : Nat} : (slice img pos n).drop k = slice img (pos + k) (n - k) := by
  apply List.ext_getElem
  · simp
  · intro i h₁ h₂
    simp [slice, Nat.add_assoc]

theorem stretch_eq_none_iff : stretch pos l a = none ↔ a < pos ∨ pos + l.length ≤ a := by
  unfold stretch
  split_ifs with h
  · rw [List.getElem?_eq_none_iff]
    omega
  · exact iff_of_true rfl (.inl (by omega))

theorem stretch_slice (hp : pos ≤ a) (ha : a < pos + n) :
    stretch pos (slice img pos n) a = some (img a) := by
  rw [stretch, if_pos hp, getElem?_slice (by omega), Nat.add_sub_cancel' hp]

theorem stretch_replicate (hp : pos ≤ a) (ha : a < pos + n) :
    stretch pos (List.replicate n c) a = some c := by
  rw [stretch, if_pos hp, List.getElem?_replicate_of_lt (by omega)]

end

end WalbTools.Overlay
