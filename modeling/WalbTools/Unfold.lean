import Mathlib

namespace WalbTools.Unfold

variable {σ α : Type}

/-- A loop that emits one element a turn and stops when `step` has none. -/
def unfold (step : σ → Option (α × σ)) : Nat → σ → List α
  | 0, _ => []
  | fuel + 1, s =>
      match step s with
      | none => []
      | some (a, s') => a :: unfold step fuel s'

variable {step : σ → Option (α × σ)}

theorem unfold_none {s : σ} (h : step s = none) (fuel : Nat) : unfold step fuel s = [] := by
  cases fuel with
  | zero => rfl
  | succ fuel => rw [unfold, h]

theorem unfold_succ {s s' : σ} {a : α} (h : step s = some (a, s')) (fuel : Nat) :
    unfold step (fuel + 1) s = a :: unfold step fuel s' := by
  rw [unfold, h]

theorem unfold_fuel (μ : σ → Nat) (hμ : ∀ s a s', step s = some (a, s') → μ s' < μ s)
    {n m : Nat} {s : σ} (hn : μ s < n) (hm : μ s < m) : unfold step n s = unfold step m s := by
  induction n generalizing m s with
  | zero => omega
  | succ n ih =>
      cases m with
      | zero => omega
      | succ m =>
          cases h : step s with
          | none => rw [unfold_none h, unfold_none h]
          | some r =>
              obtain ⟨a, s'⟩ := r
              have hlt := hμ s a s' h
              rw [unfold_succ h, unfold_succ h, ih (m := m) (by omega) (by omega)]

theorem unfold_some (μ : σ → Nat) (hμ : ∀ s a s', step s = some (a, s') → μ s' < μ s)
    {n : Nat} {s s' : σ} {a : α} (hn : μ s < n) (h : step s = some (a, s')) :
    unfold step n s = a :: unfold step n s' := by
  have hlt := hμ s a s' h
  cases n with
  | zero => omega
  | succ n =>
      have hfuel := unfold_fuel μ hμ (n := n) (m := n + 1) (s := s') (by omega) (by omega)
      rw [unfold_succ h, hfuel]

/-- A measure that counts what is left decreases when one candidate is used. -/
theorem countP_lt_countP {p q : α → Bool} {l : List α} (hqp : ∀ a, a ∈ l → q a = true → p a = true)
    {a : α} (ha : a ∈ l) (hp : p a = true) (hq : q a = false) : l.countP q < l.countP p := by
  induction l with
  | nil => exact absurd ha List.not_mem_nil
  | cons b l ih =>
      have hle : l.countP q ≤ l.countP p :=
        List.countP_mono_left fun c hc hqc => hqp c (List.mem_cons_of_mem _ hc) hqc
      rcases List.mem_cons.1 ha with rfl | ha
      · rw [List.countP_cons_of_pos hp, List.countP_cons_of_neg (by simp [hq])]
        exact Nat.lt_succ_of_le hle
      · have hlt := ih (fun c hc => hqp c (List.mem_cons_of_mem _ hc)) ha
        have hb := hqp b List.mem_cons_self
        rw [List.countP_cons, List.countP_cons]
        split_ifs with h₁ h₂
        · omega
        · exact absurd (hb h₁) h₂
        · omega
        · omega

end WalbTools.Unfold
