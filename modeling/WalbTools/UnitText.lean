import WalbTools.DecimalText

namespace WalbTools.UnitText

def isSpace (c : Char) : Bool := c = ' ' ∨ '\t'.toNat ≤ c.toNat ∧ c.toNat ≤ '\r'.toNat

/-- A number as `strtoll` and the conversion to 64 unsigned bits leave it. -/
def toUint64 (negative : Bool) (d : Nat) : Nat :=
  (max (-2 ^ 63) (min (2 ^ 63 - 1) (if negative then -(d : Int) else d)) % 2 ^ 64).toNat

/-- `strtoll` in base ten, its value taken as `uint64_t`, and where it stops. -/
def strtoll (s : List Char) : Nat × List Char :=
  let p := s.dropWhile isSpace
  let q := if p.head? = some '-' ∨ p.head? = some '+' then p.tail else p
  let digits := q.takeWhile Char.isDigit
  if digits = [] then (0, s)
  else (toUint64 (p.head? = some '-') (Nat.ofDigitChars 10 digits 0), q.dropWhile Char.isDigit)

def suffixShift : Char → Option Nat
  | 'e' | 'E' => some 60
  | 'p' | 'P' => some 50
  | 't' | 'T' => some 40
  | 'g' | 'G' => some 30
  | 'm' | 'M' => some 20
  | 'k' | 'K' => some 10
  | '\x00' => some 0
  | _ => none

/-- Convert size string with unit suffix to unsigned integer. -/
def fromUnitIntString (valStr : List Char) : Except String Nat :=
  if valStr = [] then .error "Invalid argument."
  else
    let (val, endp) := strtoll valStr
    match suffixShift (endp.headD '\x00') with
    | none => .error "Invalid suffix charactor."
    | some shift =>
      if val * 2 ^ shift % 2 ^ 64 / 2 ^ shift ≠ val then .error "fromUnitIntString: overflow."
      else .ok (val * 2 ^ shift % 2 ^ 64)

def units : List Char := [' ', 'k', 'm', 'g', 't', 'p', 'e', 'z', 'y', '\x00']

/-- The loop of `toUnitIntString` over the units left, from the `i`-th on. -/
def unitLoop : Nat → Nat → Nat → Nat × Nat
  | 0, i, val => (i, val)
  | left + 1, i, val =>
    -- `val & ~mask`
    if val / 2 ^ 10 * 2 ^ 10 ≠ val then (i, val) else unitLoop left (i + 1) (val / 2 ^ 10)

def toUnitIntString (val : Nat) : List Char :=
  let (i, val) := unitLoop units.length 0 val
  if 0 < i ∧ i < units.length then Nat.toDigits 10 val ++ [units.getD i '\x00'] else Nat.toDigits 10 val

def unitShifts : List (Char × Nat) :=
  [('k', 10), ('K', 10), ('m', 20), ('M', 20), ('g', 30), ('G', 30), ('t', 40), ('T', 40),
    ('p', 50), ('P', 50),
    ('e', 60), ('E', 60)]

def Numeral (s : List Char) (d shift : Nat) : Prop :=
  ∃ digits suffix, s = digits ++ suffix ∧ digits ≠ [] ∧ (∀ c ∈ digits, c.isDigit = true) ∧
    d = Nat.ofDigitChars 10 digits 0 ∧ (suffix = [] ∧ shift = 0 ∨ ∃ c, suffix = [c] ∧
    (c, shift) ∈ unitShifts)

/-- A numeral whose exact value fits gives that value, and any other text none. -/
def Exact (s : List Char) : Prop :=
  ∀ v, fromUnitIntString s = .ok v ↔ ∃ d shift, Numeral s d shift ∧ v = d * 2 ^ shift ∧ v < 2 ^ 64

def Ends (rest : List Char) (shift : Nat) : Prop :=
  rest = [] ∧ shift = 0 ∨ ∃ c p, rest = c :: p ∧ (c = '\x00' ∧ shift = 0 ∨ (c, shift) ∈ unitShifts)

/-- White space, a sign and digits of the value `d`, and what is behind them. -/
def Number (s : List Char) (negative : Bool) (d : Nat) (rest : List Char) : Prop :=
  ∃ ws sign digits, s = ws ++ (sign ++ (digits ++ rest)) ∧ (∀ c ∈ ws, isSpace c = true) ∧
    (sign = ['-'] ∧ negative = true ∨ (sign = [] ∨ sign = ['+']) ∧ negative = false) ∧
    digits ≠ [] ∧ (∀ c ∈ digits, c.isDigit = true) ∧ d = Nat.ofDigitChars 10 digits 0 ∧
    ∀ c ∈ rest.head?, c.isDigit = false

/-- The texts that are taken: a unit or a zero character and anything behind it, or a number up
to a unit or the end of the C string, which with a unit is not negative and fits. -/
def Taken (s : List Char) : Prop :=
  (∃ shift, s ≠ [] ∧ Ends s shift) ∨
  ∃ negative d rest shift, Number s negative d rest ∧ Ends rest shift ∧
    (shift = 0 ∨ (negative = true → d = 0) ∧ d * 2 ^ shift < 2 ^ 64)

/-- A numeral that without a unit is below 2⁶³, or another text that is not taken. -/
def Clean (s : List Char) : Prop :=
  (∃ d shift, Numeral s d shift ∧ (shift = 0 → d < 2 ^ 63)) ∨ (¬∃ d shift, Numeral s d shift) ∧ ¬Taken s

section

variable {s rest : List Char} {c : Char} {d shift val v : Nat} {negative : Bool}

theorem suffixShift_eq_some : suffixShift c = some shift ↔ c = '\x00' ∧ shift = 0 ∨
    (c, shift) ∈ unitShifts := by
  unfold suffixShift unitShifts
  split <;> simp_all [eq_comm]

theorem ends_iff : suffixShift (rest.headD '\x00') = some shift ↔ Ends rest shift := by
  cases rest with
  | nil => simp [Ends, suffixShift, eq_comm]
  | cons c p => simp [Ends, suffixShift_eq_some]

theorem shift_back : val * 2 ^ shift % 2 ^ 64 / 2 ^ shift = val ↔ val * 2 ^ shift < 2 ^ 64 := by
  constructor
  · intro h
    calc val * 2 ^ shift = val * 2 ^ shift % 2 ^ 64 / 2 ^ shift * 2 ^ shift := by rw [h]
      _ ≤ val * 2 ^ shift % 2 ^ 64 := Nat.div_mul_le_self _ _
      _ < 2 ^ 64 := Nat.mod_lt _ (by decide)
  · intro h
    rw [Nat.mod_eq_of_lt h, Nat.mul_div_cancel _ (by positivity)]

theorem fromUnitIntString_eq_ok : fromUnitIntString s = .ok v ↔
    s ≠ [] ∧ ∃ shift, Ends (strtoll s).2 shift ∧ v = (strtoll s).1 * 2 ^ shift ∧ v < 2 ^ 64 := by
  by_cases hs : s = []
  · simp [fromUnitIntString, hs]
  rw [fromUnitIntString, if_neg hs]
  simp only [← ends_iff, ne_eq, shift_back]
  cases hshift : suffixShift ((strtoll s).2.headD '\x00') with
  | none => simp
  | some shift =>
      by_cases hfits : (strtoll s).1 * 2 ^ shift < 2 ^ 64
      · simp only [hfits, not_true_eq_false, if_false, Nat.mod_eq_of_lt hfits, Except.ok.injEq, hs,
          not_false_eq_true, Option.some.injEq, true_and, exists_eq_left']
        exact ⟨fun h => ⟨h.symm, h ▸ hfits⟩, fun h => h.1.symm⟩
      · simp only [hfits, not_false_eq_true, if_true, reduceCtorEq, Option.some.injEq,
          exists_eq_left', false_iff]
        rintro ⟨-, rfl, h⟩
        exact hfits h

theorem not_isSpace_of_isDigit (hc : c.isDigit = true) : isSpace c = false ∧ c ≠ '-' ∧ c ≠ '+' := by
  have hdigit : '0'.toNat ≤ c.toNat ∧ c.toNat ≤ '9'.toNat := by
    rw [Char.isDigit, Bool.and_eq_true, decide_eq_true_eq, decide_eq_true_eq] at hc
    exact hc
  have hne : ∀ d : Char, d.toNat < '0'.toNat → c ≠ d := by
    rintro d hd rfl
    exact absurd hdigit.1 hd.not_ge
  refine ⟨decide_eq_false ?_, hne '-' (by decide), hne '+' (by decide)⟩
  rintro (heq | ⟨-, hle⟩)
  · exact hne ' ' (by decide) heq
  · exact absurd (hdigit.1.trans hle) (by decide)

theorem span_digits {digits : List Char} (hdigits : ∀ c ∈ digits, c.isDigit = true)
    (hrest : ∀ c ∈ rest.head?, c.isDigit = false) :
    (digits ++ rest).takeWhile Char.isDigit = digits ∧ (digits ++ rest).dropWhile Char.isDigit =
      rest := by
  rw [List.takeWhile_append_of_pos hdigits, List.dropWhile_append_of_pos hdigits]
  cases rest with
  | nil => simp
  | cons c p => simp [hrest c (by simp)]

/-- `strtoll` reads a number up to the first character that is no digit. -/
theorem strtoll_number (h : Number s negative d rest) : strtoll s = (toUint64 negative d, rest) := by
  obtain ⟨ws, sign, digits, rfl, hws, hsign, hne, hdigits, rfl, hrest⟩ := h
  obtain ⟨htake, hdrop⟩ := span_digits hdigits hrest
  obtain ⟨c, p, hcons⟩ : ∃ c p, digits = c :: p := List.exists_cons_of_ne_nil hne
  obtain ⟨hspace, hminus, hplus⟩ :=
    not_isSpace_of_isDigit (hdigits c (by rw [hcons]; exact List.mem_cons_self))
  have hhead : (digits ++ rest).head? = some c := by rw [hcons]; rfl
  have hskip : (ws ++ (sign ++ (digits ++ rest))).dropWhile isSpace = sign ++ (digits ++ rest) := by
    rw [List.dropWhile_append_of_pos hws]
    obtain ⟨rfl, -⟩ | ⟨rfl | rfl, -⟩ := hsign
    · exact List.dropWhile_cons_of_neg (by decide)
    · rw [List.nil_append, hcons]
      exact List.dropWhile_cons_of_neg (by rw [hspace]; decide)
    · exact List.dropWhile_cons_of_neg (by decide)
  rw [strtoll]
  simp only [hskip]
  obtain ⟨rfl, rfl⟩ | ⟨rfl | rfl, rfl⟩ := hsign
  · simp [htake, hdrop, hne]
  · simp [hhead, hminus, hplus, htake, hdrop, hne]
  · simp [htake, hdrop, hne]

theorem strtoll_cases (s : List Char) : strtoll s = (0, s) ∨ ∃ negative d rest,
    Number s negative d rest := by
  set p := s.dropWhile isSpace with hp
  set q := if p.head? = some '-' ∨ p.head? = some '+' then p.tail else p with hq
  by_cases hnone : q.takeWhile Char.isDigit = []
  · exact Or.inl (by simp only [strtoll, ← hp, ← hq, hnone, if_true])
  refine Or.inr ⟨decide (p.head? = some '-'), _, q.dropWhile Char.isDigit, s.takeWhile isSpace,
    if p.head? = some '-' ∨ p.head? = some '+' then p.take 1 else [], q.takeWhile Char.isDigit, ?_,
    fun c hc => List.mem_takeWhile_imp hc, ?_, hnone, fun c hc => List.mem_takeWhile_imp hc, rfl,
    fun c hc => ?_⟩
  · rw [List.takeWhile_append_dropWhile, hq]
    have hsplit : s = s.takeWhile isSpace ++ p := (List.takeWhile_append_dropWhile).symm
    by_cases hsign : p.head? = some '-' ∨ p.head? = some '+'
    · rw [if_pos hsign, if_pos hsign, ← List.drop_one, List.take_append_drop]
      exact hsplit
    · rw [if_neg hsign, if_neg hsign, List.nil_append]
      exact hsplit
  · cases p with
    | nil => exact Or.inr ⟨Or.inl (by simp), by simp⟩
    | cons c p =>
        by_cases hminus : c = '-'
        · exact Or.inl ⟨by simp [hminus], by simp [hminus]⟩
        · by_cases hplus : c = '+'
          · exact Or.inr ⟨Or.inr (by simp [hplus]), by simp [hminus]⟩
          · exact Or.inr ⟨Or.inl (by simp [hminus, hplus]), by simp [hminus]⟩
  · have hfirst := List.head?_dropWhile_not Char.isDigit q
    rw [Option.mem_def.1 hc] at hfirst
    simpa using hfirst

/-- A value that stands with a unit fits when the number is not negative and it fits without the
bounds of `strtoll`. -/
theorem toUint64_fits (hshift : 10 ≤ shift) :
    toUint64 negative d * 2 ^ shift < 2 ^ 64 ↔ (negative = true → d = 0) ∧ d * 2 ^ shift < 2 ^ 64 := by
  have hunit : 1024 ≤ 2 ^ shift := Nat.pow_le_pow_right (n := 2) (by decide) hshift
  have hbig : ∀ x, 2 ^ 54 ≤ x → ¬x * 2 ^ shift < 2 ^ 64 := fun x hx => Nat.not_lt.2 <|
    calc 2 ^ 64 = 2 ^ 54 * 1024 := by norm_num
      _ ≤ x * 2 ^ shift := Nat.mul_le_mul hx hunit
  cases negative with
  | false =>
      have heq : toUint64 false d = min (2 ^ 63 - 1) d := by
        simp only [toUint64, Bool.false_eq_true, if_false]
        omega
      rw [heq]
      simp only [Bool.false_eq_true, false_imp_iff, true_and]
      rcases Nat.le_total d (2 ^ 63 - 1) with hle | hle
      · rw [Nat.min_eq_right hle]
      · rw [Nat.min_eq_left hle]
        exact iff_of_false (hbig _ (by decide)) (hbig d (by omega))
  | true =>
      rcases Nat.eq_zero_or_pos d with rfl | hpos
      · simp [toUint64]
      · have hle : 2 ^ 54 ≤ toUint64 true d := by
          simp only [toUint64, if_true]
          omega
        exact iff_of_false (hbig _ hle) fun h => hpos.ne' (h.1 rfl)

theorem ends_shift (h : Ends rest shift) : shift = 0 ∨ 10 ≤ shift := by
  obtain ⟨-, rfl⟩ | ⟨c, p, -, ⟨-, rfl⟩ | hmem⟩ := h
  · exact Or.inl rfl
  · exact Or.inl rfl
  · refine Or.inr ?_
    have hall : ∀ u ∈ unitShifts, 10 ≤ u.2 := by decide
    exact hall _ hmem

theorem not_number_of_ends (hs : s ≠ []) (h : Ends s shift) : ¬Number s negative d rest := by
  rintro ⟨ws, sign, digits, heq, hws, hsign, hne, hdigits, -, -⟩
  obtain ⟨c, p, hcons⟩ := List.exists_cons_of_ne_nil hne
  have hstart : ∀ u ∈ ('\x00', 0) :: unitShifts,
      isSpace u.1 = false ∧ u.1 ≠ '-' ∧ u.1 ≠ '+' ∧ u.1.isDigit = false := by decide
  obtain ⟨rfl, -⟩ | ⟨a, t, rfl, ha⟩ := h
  · exact hs rfl
  have hmem : (a, shift) ∈ ('\x00', 0) :: unitShifts := by
    obtain ⟨rfl, rfl⟩ | hmem := ha
    · exact List.mem_cons_self
    · exact List.mem_cons_of_mem _ hmem
  obtain ⟨hspace, hminus, hplus, hdigit⟩ := hstart _ hmem
  cases ws with
  | cons b ws =>
      obtain ⟨rfl, -⟩ := List.cons.inj heq
      exact absurd (hws a List.mem_cons_self) (by rw [hspace]; decide)
  | nil =>
      obtain ⟨rfl, -⟩ | ⟨rfl | rfl, -⟩ := hsign
      · exact hminus (List.cons.inj heq).1
      · rw [hcons] at heq hdigits
        have hc := hdigits c List.mem_cons_self
        rw [← (List.cons.inj heq).1, hdigit] at hc
        exact absurd hc (by decide)
      · exact hplus (List.cons.inj heq).1

theorem taken_iff : (∃ v, fromUnitIntString s = .ok v) ↔ Taken s := by
  simp only [fromUnitIntString_eq_ok]
  constructor
  · rintro ⟨v, hs, shift, hends, rfl, hfits⟩
    rcases strtoll_cases s with hnone | ⟨negative, d, rest, hnumber⟩
    · rw [hnone] at hends
      exact Or.inl ⟨shift, hs, hends⟩
    · rw [strtoll_number hnumber] at hends hfits
      refine Or.inr ⟨negative, d, rest, shift, hnumber, hends,
        (ends_shift hends).imp_right fun hshift => ?_⟩
      exact (toUint64_fits hshift).1 hfits
  · rintro (⟨shift, hs, hends⟩ | ⟨negative, d, rest, shift, hnumber, hends, hfits⟩)
    · have hstop : strtoll s = (0, s) :=
        (strtoll_cases s).resolve_right fun ⟨_, _, _, hnumber⟩ => not_number_of_ends hs hends hnumber
      exact ⟨0, hs, shift, by rwa [hstop], by rw [hstop, Nat.zero_mul], by decide⟩
    · have hs : s ≠ [] := by
        obtain ⟨ws, sign, digits, rfl, -, -, hne, -⟩ := hnumber
        simp [hne]
      refine ⟨_, hs, shift, by rwa [strtoll_number hnumber], rfl, ?_⟩
      rw [strtoll_number hnumber]
      rcases ends_shift hends with rfl | hshift
      · rw [pow_zero, Nat.mul_one, toUint64]
        omega
      · exact (toUint64_fits hshift).2 (hfits.resolve_left (by omega))

theorem Numeral.number (h : Numeral s d shift) : Number s false d (s.dropWhile Char.isDigit) ∧
    Ends (s.dropWhile Char.isDigit) shift ∧ d = Nat.ofDigitChars 10 (s.takeWhile Char.isDigit) 0 := by
  obtain ⟨digits, suffix, rfl, hne, hdigits, rfl, hsuffix⟩ := h
  have hletter : ∀ u ∈ unitShifts, u.1.isDigit = false := by decide
  have hstop : ∀ c ∈ suffix.head?, c.isDigit = false := by
    obtain ⟨rfl, -⟩ | ⟨u, rfl, hmem⟩ := hsuffix
    · simp
    · simpa using hletter _ hmem
  obtain ⟨htake, hdrop⟩ := span_digits hdigits hstop
  rw [htake, hdrop]
  refine ⟨⟨[], [], digits, rfl, by simp, Or.inr ⟨Or.inl rfl, rfl⟩, hne, hdigits, rfl, hstop⟩, ?_, rfl⟩
  exact hsuffix.imp_right fun ⟨c, hc, hmem⟩ => ⟨c, [], hc, Or.inr hmem⟩

theorem Numeral.ne_nil (h : Numeral s d shift) : s ≠ [] := by
  obtain ⟨digits, suffix, rfl, hne, -⟩ := h
  simp [hne]

theorem Ends.unique {shift' : Nat} (h : Ends rest shift) (h' : Ends rest shift') : shift = shift' :=
  Option.some.inj ((ends_iff.2 h).symm.trans (ends_iff.2 h'))

theorem Numeral.unique {d' shift' : Nat} (h : Numeral s d shift) (h' : Numeral s d' shift') :
    d = d' ∧ shift = shift' := by
  obtain ⟨-, hends, hd⟩ := h.number
  obtain ⟨-, hends', hd'⟩ := h'.number
  exact ⟨hd.trans hd'.symm, hends.unique hends'⟩

theorem Numeral.fromUnitIntString_eq_ok (h : Numeral s d shift) : fromUnitIntString s = .ok v ↔
    v = toUint64 false d * 2 ^ shift ∧ v < 2 ^ 64 := by
  obtain ⟨hnumber, hends, -⟩ := h.number
  rw [UnitText.fromUnitIntString_eq_ok, strtoll_number hnumber]
  constructor
  · rintro ⟨-, shift', hends', hv, hfits⟩
    exact ⟨hends.unique hends' ▸ hv, hfits⟩
  · rintro ⟨hv, hfits⟩
    exact ⟨h.ne_nil, shift, hends, hv, hfits⟩

theorem toUint64_of_lt (hd : d < 2 ^ 63) : toUint64 false d = d := by
  simp only [toUint64, Bool.false_eq_true, if_false]
  omega

theorem toUint64_of_le (hd : 2 ^ 63 ≤ d) : toUint64 false d = 2 ^ 63 - 1 := by
  simp only [toUint64, Bool.false_eq_true, if_false]
  omega

/-- A numeral gives its exact value unless it has no unit and `strtoll` stops at its bound. -/
theorem Numeral.exact_iff (h : Numeral s d shift) : Exact s ↔ (shift = 0 → d < 2 ^ 63) := by
  have hvalue : ∀ v, (∃ d shift, Numeral s d shift ∧ v = d * 2 ^ shift ∧ v < 2 ^ 64) ↔
      v = d * 2 ^ shift ∧ v < 2 ^ 64 := by
    intro v
    constructor
    · rintro ⟨d', shift', h', hv⟩
      obtain ⟨rfl, rfl⟩ := h.unique h'
      exact hv
    · exact fun hv => ⟨d, shift, h, hv⟩
  simp only [Exact, h.fromUnitIntString_eq_ok, hvalue]
  constructor
  · rintro hall rfl
    by_contra hbig
    have hv := ((hall (2 ^ 63 - 1)).1 ⟨by rw [toUint64_of_le (by omega)]; rfl, by decide⟩).1
    rw [pow_zero, Nat.mul_one] at hv
    omega
  · intro hsmall v
    rcases Nat.lt_or_ge d (2 ^ 63) with hlt | hge
    · rw [toUint64_of_lt hlt]
    · have hshift : 10 ≤ shift := by
        rcases ends_shift h.number.2.1 with hzero | hunit
        · exact absurd (hsmall hzero) (by omega)
        · exact hunit
      have hfits : toUint64 false d * 2 ^ shift < 2 ^ 64 ↔ _ := toUint64_fits hshift
      simp only [Bool.false_eq_true, false_imp_iff, true_and] at hfits
      have hbig : ¬d * 2 ^ shift < 2 ^ 64 := Nat.not_lt.2 <|
        calc 2 ^ 64 ≤ 2 ^ 63 * 2 ^ 10 := by norm_num
          _ ≤ d * 2 ^ shift := Nat.mul_le_mul hge (Nat.pow_le_pow_right (by decide) hshift)
      exact iff_of_false (fun ⟨hv, hlt⟩ => hbig (hfits.1 (hv ▸ hlt))) fun ⟨hv, hlt⟩ => hbig (hv ▸ hlt)

theorem exact_iff_clean : Exact s ↔ Clean s := by
  by_cases hnumeral : ∃ d shift, Numeral s d shift
  · obtain ⟨d, shift, h⟩ := hnumeral
    rw [h.exact_iff]
    constructor
    · exact fun hsmall => Or.inl ⟨d, shift, h, hsmall⟩
    · rintro (⟨d', shift', h', hsmall⟩ | ⟨hnone, -⟩)
      · obtain ⟨rfl, rfl⟩ := h.unique h'
        exact hsmall
      · exact absurd ⟨d, shift, h⟩ hnone
  · have hnone : ∀ v, ¬∃ d shift, Numeral s d shift ∧ v = d * 2 ^ shift ∧ v < 2 ^ 64 :=
      fun v ⟨d, shift, h, _⟩ => hnumeral ⟨d, shift, h⟩
    rw [Exact, Clean, ← taken_iff]
    constructor
    · exact fun hall => Or.inr ⟨hnumeral, fun ⟨v, hv⟩ => hnone v ((hall v).1 hv)⟩
    · rintro (⟨d, shift, h, -⟩ | ⟨-, hrefused⟩) v
      · exact absurd ⟨d, shift, h⟩ hnumeral
      · exact iff_of_false (fun hv => hrefused ⟨v, hv⟩) (hnone v)

/-- The loop divides by 1024 as often as it counts, and stops early only at a value that 1024
does not divide. -/
theorem unitLoop_spec (left i val : Nat) : ∃ k, k ≤ left ∧ (unitLoop left i val).1 = i + k ∧
    val = (unitLoop left i val).2 * 2 ^ (10 * k) ∧ (k < left → ¬2 ^ 10 ∣ (unitLoop left i val).2) := by
  induction left generalizing i val with
  | zero => exact ⟨0, Nat.le_refl 0, rfl, by simp [unitLoop], fun h => absurd h (Nat.lt_irrefl 0)⟩
  | succ left ih =>
      rw [unitLoop]
      by_cases hstop : val / 2 ^ 10 * 2 ^ 10 ≠ val
      · rw [if_pos hstop]
        exact ⟨0, Nat.zero_le _, rfl, by simp, fun _ hdvd => hstop (Nat.div_mul_cancel hdvd)⟩
      · rw [if_neg hstop]
        obtain ⟨k, hk, hi, hval, hlast⟩ := ih (i + 1) (val / 2 ^ 10)
        refine ⟨k + 1, by omega, by rw [hi]; omega, ?_, fun hlt => hlast (by omega)⟩
        calc val = val / 2 ^ 10 * 2 ^ 10 := (not_not.1 hstop).symm
          _ = (unitLoop left (i + 1) (val / 2 ^ 10)).2 * 2 ^ (10 * k) * 2 ^ 10 := by rw [← hval]
          _ = (unitLoop left (i + 1) (val / 2 ^ 10)).2 * 2 ^ (10 * (k + 1)) := by
            rw [Nat.mul_succ, pow_add, Nat.mul_assoc]

/-- A value is printed as a numeral of it, with a unit if 1024 divides it. -/
theorem toUnitIntString_numeral (hv : v < 2 ^ 64) : ∃ d shift, Numeral (toUnitIntString v) d shift ∧
    v = d * 2 ^ shift ∧ (shift = 0 → v < 2 ^ 63 ∨ ¬1024 ∣ v) := by
  have hdigits : ∀ x c, c ∈ Nat.toDigits 10 x → c.isDigit = true :=
    fun x c hc => DecimalText.isDigit_of_mem_toDigits hc
  obtain ⟨k, hk, hi, hval, hlast⟩ := unitLoop_spec units.length 0 v
  rw [toUnitIntString]
  simp only [hi, Nat.zero_add]
  generalize (unitLoop units.length 0 v).2 = x at hval hlast ⊢
  by_cases hunit : 0 < k ∧ k < units.length
  · have hx : 0 < x := Nat.pos_of_ne_zero fun hzero => hlast hunit.2 (hzero ▸ dvd_zero _)
    have hpow : 2 ^ (10 * k) < 2 ^ 64 :=
      calc 2 ^ (10 * k) ≤ x * 2 ^ (10 * k) := Nat.le_mul_of_pos_left _ hx
        _ = v := hval.symm
        _ < 2 ^ 64 := hv
    have hsix : k < 7 := by
      have := (Nat.pow_lt_pow_iff_right (a := 2) (by decide)).1 hpow
      omega
    have hletter : ∀ k < 7, 0 < k → (units.getD k '\x00', 10 * k) ∈ unitShifts := by decide
    rw [if_pos hunit]
    refine ⟨x, 10 * k, ⟨Nat.toDigits 10 x, _, rfl, Nat.toDigits_ne_nil, hdigits x,
      Nat.ofDigitChars_ten_toDigits.symm, Or.inr ⟨_, rfl,
      hletter k hsix hunit.1⟩⟩, hval, fun hzero => ?_⟩
    omega
  · rw [if_neg hunit]
    have hends : k = 0 ∧ v = x ∨ x = 0 ∧ v = 0 := by
      rcases Nat.eq_zero_or_pos k with rfl | hpos
      · exact Or.inl ⟨rfl, by rw [hval, Nat.mul_zero, pow_zero, Nat.mul_one]⟩
      · have hten : 2 ^ 64 ≤ 2 ^ (10 * k) := Nat.pow_le_pow_right (by decide) (by
          have : units.length = 10 := rfl
          omega)
        rcases Nat.eq_zero_or_pos x with rfl | hx
        · exact Or.inr ⟨rfl, by rw [hval, Nat.zero_mul]⟩
        · have := Nat.le_mul_of_pos_left (2 ^ (10 * k)) hx
          omega
    refine ⟨x, 0, ⟨Nat.toDigits 10 x, [], (List.append_nil _).symm, Nat.toDigits_ne_nil, hdigits x,
      Nat.ofDigitChars_ten_toDigits.symm, Or.inl ⟨rfl, rfl⟩⟩, ?_, fun _ => ?_⟩
    · rw [pow_zero, Nat.mul_one]
      exact hends.elim And.right fun h => h.2.trans h.1.symm
    · rcases hends with ⟨rfl, rfl⟩ | ⟨-, hzero⟩
      · exact Or.inr (hlast (by decide))
      · exact Or.inl (by omega)

/-- Exactly the values below 2⁶³ and the multiples of 1024 are read back, and exactly the clean
texts are converted without loss. -/
theorem converts_iff (s : List Char) (hv : v < 2 ^ 64) :
    (fromUnitIntString (toUnitIntString v) = .ok v ↔ v < 2 ^ 63 ∨ 1024 ∣ v) ∧ (Exact s ↔ Clean s) := by
  refine ⟨?_, exact_iff_clean⟩
  obtain ⟨d, shift, hnumeral, rfl, hplain⟩ := toUnitIntString_numeral hv
  rw [hnumeral.fromUnitIntString_eq_ok]
  rcases ends_shift hnumeral.number.2.1 with rfl | hunit
  · simp only [pow_zero, Nat.mul_one] at hv hplain ⊢
    rcases Nat.lt_or_ge d (2 ^ 63) with hlt | hge
    · rw [toUint64_of_lt hlt]
      exact iff_of_true ⟨rfl, hv⟩ (Or.inl hlt)
    · rw [toUint64_of_le hge]
      have hodd : ¬1024 ∣ d := (hplain trivial).resolve_left (by omega)
      exact iff_of_false (fun h => absurd h.1 (by omega)) (not_or.2 ⟨by omega, hodd⟩)
  · have hdvd : 2 ^ 10 ∣ d * 2 ^ shift := Dvd.dvd.mul_left (pow_dvd_pow 2 hunit) d
    have hsmall : d < 2 ^ 63 := by
      have hle : d * 2 ^ 10 ≤ d * 2 ^ shift :=
        Nat.mul_le_mul_left d (Nat.pow_le_pow_right (by decide) hunit)
      omega
    rw [toUint64_of_lt hsmall]
    exact iff_of_true ⟨rfl, hv⟩ (Or.inr hdvd)

theorem converts_iff_kibi : fromUnitIntString (toUnitIntString 1024) = .ok 1024 ∧
    (Exact ['1', 'k'] ↔ Clean ['1', 'k']) := by
  obtain ⟨hback, htext⟩ := @converts_iff 1024 ['1', 'k'] (by decide)
  exact ⟨hback.2 (Or.inl (by decide)), htext⟩

/-- No digits, a sign and characters behind the unit are taken, and a value without a unit stops
at 2⁶³ − 1. -/
theorem not_converts : ¬((∀ v < 2 ^ 64, fromUnitIntString (toUnitIntString v) = .ok v) ∧ ∀ s, Exact s) ∧
    fromUnitIntString ['k'] = .ok 0 ∧ fromUnitIntString ['-', '1'] = .ok (2 ^ 64 - 1) ∧
    fromUnitIntString ['1', 'k', 'x'] = .ok 1024 ∧
    fromUnitIntString "9223372036854775809".toList = .ok (2 ^ 63 - 1) := by
  have hunit : fromUnitIntString ['k'] = .ok 0 := by decide
  refine ⟨fun ⟨_, hexact⟩ => ?_, hunit, by decide, by decide, by decide⟩
  obtain ⟨d, shift, ⟨digits, suffix, heq, hne, hdigits, -, -⟩, -⟩ := (hexact _ 0).1 hunit
  obtain ⟨c, p, rfl⟩ := List.exists_cons_of_ne_nil hne
  have hc := hdigits c List.mem_cons_self
  rw [← (List.cons.inj heq).1] at hc
  exact absurd hc (by decide)

end

end WalbTools.UnitText
