import WalbTools.Overlay

namespace WalbTools.WriteBack

variable {α γ : Type}

/-- A medium behind a write cache. Reads return `now`; a crash leaves at each
address one of the values in `left`, independently of the other addresses. -/
structure Store (α γ : Type) where
  now : α → γ
  left : α → Set γ
  now_mem : ∀ a, now a ∈ left a

namespace Store

/-- Everything has reached the medium. -/
def settled (img : α → γ) : Store α γ := ⟨img, fun a => {img a}, fun a => Set.mem_singleton (img a)⟩

/-- The written addresses get their new value at once for readers, and at an
unknown time on the medium. -/
def write (s : Store α γ) (f : α → Option γ) : Store α γ where
  now := Overlay.write f s.now
  left a := {v | f a = some v ∨ v ∈ s.left a}
  now_mem a := by
    cases h : f a with
    | none => exact .inr (by rw [Overlay.write, h]; exact s.now_mem a)
    | some v => exact .inl (by rw [Overlay.write, h]; rfl)

def flush (s : Store α γ) : Store α γ := settled s.now

/-- `s` is what a crash may leave of `t`, or an interruption in the middle of a write. -/
def Within (s t : Store α γ) : Prop := ∀ a, s.left a ⊆ t.left a

/-- The address reads `v` now and after any crash. -/
def Holds (s : Store α γ) (a : α) (v : γ) : Prop := s.left a = {v}

variable {s t : Store α γ} {f : α → Option γ} {img : α → γ} {a : α} {v : γ}

@[simp] theorem settled_now : (settled img).now = img := rfl

@[simp] theorem write_now : (s.write f).now = Overlay.write f s.now := rfl

@[simp] theorem flush_now : s.flush.now = s.now := rfl

theorem holds_settled : (settled img).Holds a v ↔ img a = v := Set.singleton_eq_singleton_iff

theorem holds_flush : s.flush.Holds a v ↔ s.now a = v := holds_settled

theorem Holds.eq_of_mem (h : s.Holds a v) {w : γ} (hw : w ∈ s.left a) : w = v := by
  rw [h] at hw
  exact hw

theorem Holds.now (h : s.Holds a v) : s.now a = v := h.eq_of_mem (s.now_mem a)

theorem Holds.within (h : t.Holds a v) (hs : s.Within t) : s.Holds a v :=
  Set.eq_singleton_iff_nonempty_unique_mem.2 ⟨⟨_, s.now_mem a⟩, fun _ hw => h.eq_of_mem (hs a hw)⟩

theorem Holds.write (h : s.Holds a v) (hf : f a = none ∨ f a = some v) : (s.write f).Holds a v := by
  ext w
  change (f a = some w ∨ w ∈ s.left a) ↔ w = v
  rw [h]
  rcases hf with hf | hf
  · rw [hf]
    simp
  · rw [hf, Option.some_inj]
    simp [eq_comm]

theorem Holds.flush (h : s.Holds a v) : s.flush.Holds a v := holds_flush.2 h.now

end Store

end WalbTools.WriteBack
