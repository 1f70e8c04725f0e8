import Mathlib

namespace WalbTools.DecimalText

def find (pat s : List Char) : Option Nat :=
  (List.range (s.length + 1)).find? fun i => pat.isPrefixOf (s.drop i)

/-- The digits of `p` after `x` in 64 bits, up to the end or a zero character. -/
def readDigits : Nat → List Char → Option Nat
  | x, [] => some x
  | x, c :: p =>
    if c = '\x00' then some x
    else if ¬c.isDigit ∨ 1844674407370955161 < x ∨ x = 1844674407370955161 ∧
      '6'.toNat ≤ c.toNat then none
    else readDigits (x * 10 + (c.toNat - '0'.toNat)) p

/-- A decimal number of 64 bits, leading zeros skipped. -/
def convertToUint (p : List Char) : Option Nat :=
  if p.headD '\x00' = '\x00' then none else readDigits 0 (p.dropWhile (· = '0'))

section

variable {n x : Nat} {c : Char} {p : List Char}

theorem le_ofDigitChars : x ≤ Nat.ofDigitChars 10 p x := by
  induction p generalizing x with
  | nil => rw [Nat.ofDigitChars_nil]
  | cons c p ih =>
      rw [Nat.ofDigitChars_cons]
      calc x ≤ 10 * x + (c.toNat - '0'.toNat) := by omega
        _ ≤ Nat.ofDigitChars 10 p (10 * x + (c.toNat - '0'.toNat)) := ih

theorem readDigits_eq (hp : ∀ c ∈ p, c.isDigit = true) (h : Nat.ofDigitChars 10 p x < 2 ^ 64) :
    readDigits x p = some (Nat.ofDigitChars 10 p x) := by
  induction p generalizing x with
  | nil => rw [readDigits, Nat.ofDigitChars_nil]
  | cons c p ih =>
      obtain ⟨hc, hp⟩ := List.forall_mem_cons.1 hp
      rw [Nat.ofDigitChars_cons] at h ⊢
      have hle : 10 * x + (c.toNat - '0'.toNat) ≤ _ := le_ofDigitChars (p := p)
      have hdigit : '0'.toNat ≤ c.toNat ∧ c.toNat ≤ '9'.toNat := by
        rw [Char.isDigit, Bool.and_eq_true, decide_eq_true_eq, decide_eq_true_eq] at hc
        exact hc
      have hzero : c ≠ '\x00' := by
        rintro rfl
        exact absurd hdigit.1 (by decide)
      have hsmall : ¬(¬c.isDigit ∨ 1844674407370955161 < x ∨ x = 1844674407370955161 ∧
          '6'.toNat ≤ c.toNat) := by
        have h0 : '0'.toNat = 48 := rfl
        have h6 : '6'.toNat = 54 := rfl
        rw [h0] at hle h
        rw [h6]
        rintro (hn | hbig | ⟨heq, hc6⟩)
        · exact hn hc
        · omega
        · omega
      rw [readDigits, if_neg hzero, if_neg hsmall, Nat.mul_comm x 10, ih hp h]

theorem isDigit_of_mem_toDigits (hc : c ∈ Nat.toDigits 10 n) : c.isDigit = true :=
  Nat.isDigit_of_mem_toDigits (by decide) (by decide) hc

theorem ofDigitChars_dropWhile : Nat.ofDigitChars 10 (p.dropWhile (· = '0')) 0 =
    Nat.ofDigitChars 10 p 0 := by
  induction p with
  | nil => rfl
  | cons c p ih =>
      by_cases hc : c = '0'
      · subst hc
        rw [List.dropWhile_cons_of_pos (by decide), ih, Nat.ofDigitChars_cons]
        rfl
      · rw [List.dropWhile_cons_of_neg (by simpa using hc)]

theorem convertToUint_toDigits (h : n < 2 ^ 64) : convertToUint (Nat.toDigits 10 n) = some n := by
  have hne : Nat.toDigits 10 n ≠ [] := Nat.toDigits_ne_nil
  have hhead : (Nat.toDigits 10 n).headD '\x00' ≠ '\x00' := by
    obtain ⟨c, p, hp⟩ := List.exists_cons_of_ne_nil hne
    have hdigit := isDigit_of_mem_toDigits (n := n) (by rw [hp]; exact List.mem_cons_self)
    rw [hp]
    rintro rfl
    exact absurd hdigit (by decide)
  have hvalue : Nat.ofDigitChars 10 ((Nat.toDigits 10 n).dropWhile (· = '0')) 0 = n := by
    rw [ofDigitChars_dropWhile, Nat.ofDigitChars_ten_toDigits]
  have hdigits : ∀ c ∈ (Nat.toDigits 10 n).dropWhile (· = '0'), c.isDigit = true :=
    fun c hc => isDigit_of_mem_toDigits ((List.dropWhile_sublist _).subset hc)
  rw [convertToUint, if_neg hhead, readDigits_eq hdigits (by rwa [hvalue]), hvalue]

/-- A pattern that begins with no character of `p` is found behind it. -/
theorem find_append {pat rest : List Char} (hp : c ∉ p) :
    find (c :: pat) (p ++ (c :: pat ++ rest)) = some p.length := by
  rw [find, List.find?_range_eq_some]
  refine ⟨?_, ?_, fun j hj => ?_⟩
  · rw [List.drop_left' rfl, List.isPrefixOf_iff_prefix]
    exact List.prefix_append _ _
  · rw [List.mem_range, List.length_append]
    omega
  · rw [List.drop_append_of_le_length hj.le, List.drop_eq_getElem_cons hj, List.cons_append,
      List.isPrefixOf]
    have hne : (c == p[j]) = false := beq_eq_false_iff_ne.2 fun heq => hp (heq ▸ List.getElem_mem hj)
    rw [hne]
    rfl

theorem find_eq_none {pat : List Char} (hp : c ∉ p) : find (c :: pat) p = none := by
  rw [find, List.find?_eq_none]
  intro i _ hpre
  rw [List.isPrefixOf_iff_prefix] at hpre
  exact hp (List.mem_of_mem_drop (hpre.subset List.mem_cons_self))

end

end WalbTools.DecimalText
