import Mathlib

namespace WalbTools.AlignedIo

def zeroBits : Nat → Nat → Nat
  | 0, _ => 0
  | fuel + 1, v => if v % 2 = 0 then zeroBits fuel (v / 2) + 1 else 0

/-- The address is an `uint64_t`, the size an `uint32_t`. -/
def getAlignedSize (v : Nat) : Nat :=
  if v = 0 then 2 ^ 31
  else if 32 ≤ zeroBits 64 v then 2 ^ 31
  else 2 ^ zeroBits 64 v

def isAlignedSize (s : Nat) : Bool := (List.range 32).countP s.testBit == 1

def isAlignedIo (ioAddress ioBlocks : Nat) : Bool :=
  decide (ioBlocks ≤ getAlignedSize ioAddress) && isAlignedSize ioBlocks

def getMaxAlignedSize (s : Nat) : Nat := if s = 0 then 0 else 2 ^ s.log2

/-- The loop of `splitIoToAligned`; `maxIoBlocks` is 0 or a power of 2. -/
def splitLoop (maxIoBlocks : Nat) : Nat → Nat → Nat → List Nat
  | 0, _, _ => []
  | fuel + 1, ioAddress, ioBlocks =>
      if ioBlocks = 0 then []
      else
        let s := getAlignedSize ioAddress
        let s := if ioBlocks < s then getMaxAlignedSize ioBlocks else s
        let s := if 0 < maxIoBlocks then min s maxIoBlocks else s
        s :: splitLoop maxIoBlocks fuel (ioAddress + s) (ioBlocks - s)

def splitIoToAligned (ioAddress ioBlocks maxIoBlocks : Nat) : List Nat :=
  splitLoop (getMaxAlignedSize maxIoBlocks) ioBlocks ioAddress ioBlocks

/-- A range whose length is a power of 2 that divides its begin. -/
def Aligned (addr blks : Nat) : Prop := ∃ k, k ≤ 31 ∧ blks = 2 ^ k ∧ 2 ^ k ∣ addr

variable {addr blks addr' blks' v s : Nat}

theorem pow_zeroBits_dvd (fuel v : Nat) : 2 ^ zeroBits fuel v ∣ v := by
  induction fuel generalizing v with
  | zero => exact one_dvd v
  | succ fuel ih =>
      rw [zeroBits]
      split_ifs with h
      · rw [pow_succ']
        obtain ⟨c, hc⟩ := ih (v / 2)
        exact ⟨c, by rw [mul_assoc, ← hc, Nat.mul_div_cancel' (Nat.dvd_of_mod_eq_zero h)]⟩
      · exact one_dvd v

theorem le_zeroBits {fuel v k : Nat} (hk : k ≤ fuel) (h : 2 ^ k ∣ v) : k ≤ zeroBits fuel v := by
  induction fuel generalizing v k with
  | zero => exact hk
  | succ fuel ih =>
      cases k with
      | zero => exact Nat.zero_le _
      | succ k =>
          have h2 : 2 ∣ v := (dvd_pow_self 2 (Nat.succ_ne_zero k)).trans h
          rw [zeroBits, if_pos (Nat.mod_eq_zero_of_dvd h2)]
          apply Nat.succ_le_succ (ih (Nat.le_of_succ_le_succ hk) _)
          rw [pow_succ'] at h
          exact (Nat.dvd_div_iff_mul_dvd h2).2 h

/-- The aligned size is the largest one, up to 2^31, that divides the address. -/
theorem getAlignedSize_spec (v : Nat) :
    ∃ k, k ≤ 31 ∧ getAlignedSize v = 2 ^ k ∧ 2 ^ k ∣ v ∧ ∀ j, j ≤ 31 → 2 ^ j ∣ v → j ≤ k := by
  rw [getAlignedSize]
  split_ifs with h0 h32
  · exact ⟨31, le_rfl, rfl, h0 ▸ dvd_zero _, fun j hj _ => hj⟩
  · refine ⟨31, le_rfl, rfl, ?_, fun j hj _ => hj⟩
    exact (pow_dvd_pow 2 (by omega)).trans (pow_zeroBits_dvd 64 v)
  · refine ⟨zeroBits 64 v, by omega, rfl, pow_zeroBits_dvd 64 v, fun j hj hd => ?_⟩
    exact le_zeroBits (by omega) hd

theorem getMaxAlignedSize_spec (h : s ≠ 0) : ∃ k, getMaxAlignedSize s = 2 ^ k ∧ 2 ^ k ≤ s :=
  ⟨s.log2, if_neg h, Nat.log2_self_le h⟩

theorem isAlignedSize_two_pow {k : Nat} (hk : k ≤ 31) : isAlignedSize (2 ^ k) = true := by
  rw [isAlignedSize, beq_iff_eq]
  have hbit : (2 ^ k).testBit = fun i => i == k := by
    funext i
    rw [Nat.testBit_two_pow]
    by_cases h : k = i
    · rw [h, decide_eq_true rfl, beq_self_eq_true]
    · rw [decide_eq_false h, (beq_eq_false_iff_ne).2 (Ne.symm h)]
  rw [hbit]
  exact List.count_eq_one_of_mem List.nodup_range (List.mem_range.2 (by omega))

theorem Aligned.isAlignedIo (h : Aligned addr blks) : isAlignedIo addr blks = true := by
  obtain ⟨k, hk, rfl, hd⟩ := h
  obtain ⟨m, -, hm, -, hmax⟩ := getAlignedSize_spec addr
  rw [AlignedIo.isAlignedIo, isAlignedSize_two_pow hk, hm, Bool.and_true, decide_eq_true_eq]
  exact Nat.pow_le_pow_right (by decide) (hmax k hk hd)

theorem Aligned.pos (h : Aligned addr blks) : 0 < blks := by
  obtain ⟨k, -, rfl, -⟩ := h
  exact Nat.two_pow_pos k

/-- Of two aligned ranges that meet, the longer one covers the other. -/
theorem Aligned.le_of_le (h : Aligned addr blks) (h' : Aligned addr' blks') (hle : blks ≤ blks')
    (hl : addr < addr' + blks') (hr : addr' < addr + blks) :
    addr' ≤ addr ∧ addr + blks ≤ addr' + blks' := by
  obtain ⟨k, -, rfl, hk⟩ := h
  obtain ⟨m, -, rfl, hm⟩ := h'
  have hkm : k ≤ m := (Nat.pow_le_pow_iff_right (by decide)).1 hle
  obtain ⟨c, rfl⟩ := hk
  obtain ⟨d, rfl⟩ := hm
  obtain ⟨e, rfl⟩ := Nat.exists_eq_add_of_le hkm
  rw [pow_add] at hl hr hle ⊢
  have hpos := Nat.two_pow_pos k
  generalize 2 ^ e = q at hl hr hle ⊢
  have hl' : c < q * d + q := by
    apply Nat.lt_of_mul_lt_mul_left (a := 2 ^ k)
    linarith
  have hr' : q * d < c + 1 := by
    apply Nat.lt_of_mul_lt_mul_left (a := 2 ^ k)
    linarith
  constructor
  · have hmul := Nat.mul_le_mul_left (2 ^ k) (Nat.le_of_lt_succ hr')
    linarith
  · have hmul := Nat.mul_le_mul_left (2 ^ k) (Nat.succ_le_of_lt hl')
    linarith

/-- Aligned ranges of the sizes `l`, one behind the other from `addr` up to `e`. -/
def Tiles (e : Nat) : Nat → List Nat → Prop
  | addr, [] => addr = e
  | addr, s :: l => Aligned addr s ∧ Tiles e (addr + s) l

theorem Tiles.le {e : Nat} {l : List Nat} (h : Tiles e addr l) : addr ≤ e := by
  induction l generalizing addr with
  | nil => exact Nat.le_of_eq h
  | cons s l ih => exact (Nat.le_add_right _ _).trans (ih h.2)

theorem aligned_step (m addr : Nat) (hb : blks ≠ 0) :
    let s := if blks < getAlignedSize addr then getMaxAlignedSize blks else getAlignedSize addr
    let s := if 0 < getMaxAlignedSize m then min s (getMaxAlignedSize m) else s
    Aligned addr s ∧ s ≤ blks := by
  obtain ⟨k, hk, hs, hd, -⟩ := getAlignedSize_spec addr
  have hfirst : ∃ j, j ≤ k ∧ (if blks < getAlignedSize addr then getMaxAlignedSize blks
      else getAlignedSize addr) = 2 ^ j ∧
        2 ^ j ≤ blks := by
    split_ifs with hlt
    · obtain ⟨j, hj, hle⟩ := getMaxAlignedSize_spec hb
      refine ⟨j, ?_, hj, hle⟩
      have hlt' := hle.trans_lt (hs ▸ hlt)
      exact ((Nat.pow_lt_pow_iff_right (by decide)).1 hlt').le
    · exact ⟨k, le_rfl, hs, hs ▸ not_lt.1 hlt⟩
  obtain ⟨j, hjk, hj, hle⟩ := hfirst
  dsimp only
  rw [hj]
  split_ifs with hmax
  · have hm : m ≠ 0 := by
      rintro rfl
      exact absurd hmax (Nat.lt_irrefl 0)
    obtain ⟨i, hi, -⟩ := getMaxAlignedSize_spec hm
    rw [hi]
    rcases le_total j i with hji | hij
    · rw [Nat.min_eq_left (Nat.pow_le_pow_right (by decide) hji)]
      exact ⟨⟨j, hjk.trans hk, rfl, (pow_dvd_pow 2 hjk).trans hd⟩, hle⟩
    · have hpow := Nat.pow_le_pow_right (n := 2) (by decide) hij
      rw [Nat.min_eq_right hpow]
      exact ⟨⟨i, (hij.trans hjk).trans hk, rfl, (pow_dvd_pow 2 (hij.trans hjk)).trans hd⟩,
        hpow.trans hle⟩
  · exact ⟨⟨j, hjk.trans hk, rfl, (pow_dvd_pow 2 hjk).trans hd⟩, hle⟩

theorem splitLoop_tiles (m : Nat) {fuel : Nat} (hf : blks ≤ fuel) :
    Tiles (addr + blks) addr (splitLoop (getMaxAlignedSize m) fuel addr blks) := by
  induction fuel generalizing addr blks with
  | zero =>
      rw [Nat.le_zero.1 hf]
      exact rfl
  | succ fuel ih =>
      rw [splitLoop]
      by_cases hb : blks = 0
      · rw [if_pos hb, hb]
        exact rfl
      · obtain ⟨hal, hle⟩ := aligned_step m addr hb
        have hpos := hal.pos
        rw [if_neg hb]
        dsimp only at hal hle hpos ⊢
        generalize (if 0 < getMaxAlignedSize m then _ else _ : Nat) = s at hal hle hpos ⊢
        have hrest : Tiles (addr + s + (blks - s)) (addr + s) _ := ih (by omega)
        rw [Nat.add_assoc, Nat.add_sub_cancel' hle] at hrest
        exact ⟨hal, hrest⟩

theorem splitIoToAligned_tiles (ioAddress ioBlocks maxIoBlocks : Nat) :
    Tiles (ioAddress + ioBlocks) ioAddress (splitIoToAligned ioAddress ioBlocks maxIoBlocks) :=
  splitLoop_tiles maxIoBlocks le_rfl

theorem le_of_mem_splitLoop {m fuel ioAddress ioBlocks : Nat} (hm : 0 < m)
    (hs : s ∈ splitLoop m fuel ioAddress ioBlocks) : s ≤ m := by
  induction fuel generalizing ioAddress ioBlocks with
  | zero => exact absurd hs List.not_mem_nil
  | succ fuel ih =>
      rw [splitLoop] at hs
      split_ifs at hs
      · exact absurd hs List.not_mem_nil
      · rcases List.mem_cons.1 hs with rfl | hs
        · exact min_le_right _ _
        · exact ih hs

theorem le_of_mem_splitIoToAligned {maxIoBlocks ioAddress ioBlocks : Nat} (hm : 0 < maxIoBlocks)
    (hs : s ∈ splitIoToAligned ioAddress ioBlocks maxIoBlocks) : s ≤ maxIoBlocks := by
  obtain ⟨k, hk, hle⟩ := getMaxAlignedSize_spec (Nat.ne_of_gt hm)
  rw [splitIoToAligned, hk] at hs
  exact (le_of_mem_splitLoop (Nat.two_pow_pos k) hs).trans hle

/-- The loop stops by itself: more turns do not change what it returns. -/
theorem splitLoop_fuel (m : Nat) {fuel fuel' : Nat} (hf : blks ≤ fuel) (hf' : blks ≤ fuel') :
    splitLoop (getMaxAlignedSize m) fuel addr blks = splitLoop (getMaxAlignedSize m) fuel' addr
      blks := by
  induction fuel generalizing fuel' addr blks with
  | zero =>
      obtain rfl := Nat.le_zero.1 hf
      cases fuel' <;> rfl
  | succ fuel ih =>
      by_cases hb : blks = 0
      · subst hb
        cases fuel' <;> rfl
      · obtain ⟨fuel', rfl⟩ := Nat.exists_eq_succ_of_ne_zero
          (Nat.ne_of_gt (Nat.lt_of_lt_of_le (Nat.pos_of_ne_zero hb) hf'))
        obtain ⟨hal, hle⟩ := aligned_step m addr hb
        have hpos := hal.pos
        rw [splitLoop, splitLoop, if_neg hb, if_neg hb]
        dsimp only at hal hle hpos ⊢
        generalize (if 0 < getMaxAlignedSize m then _ else _ : Nat) = s at hal hle hpos ⊢
        rw [@ih (addr + s) (blks - s) fuel' (by omega) (by omega)]

/-- The piece of size `s` that begins at `addr` is one of `l`, which begin at `first`. -/
def PieceAt (first : Nat) (l : List Nat) (addr s : Nat) : Prop :=
  ∃ l₁ l₂, l = l₁ ++ s :: l₂ ∧ addr = first + l₁.sum

theorem pieceAt_cons {first c : Nat} {l : List Nat} :
    PieceAt first (c :: l) addr s ↔ addr = first ∧ s = c ∨ PieceAt (first + c) l addr s := by
  constructor
  · rintro ⟨l₁, l₂, hl, rfl⟩
    cases l₁ with
    | nil => exact .inl ⟨rfl, (List.cons.inj hl).1.symm⟩
    | cons a l₁ =>
        obtain ⟨rfl, hrest⟩ := List.cons.inj hl
        exact .inr ⟨l₁, l₂, hrest, by rw [List.sum_cons, Nat.add_assoc]⟩
  · rintro (⟨rfl, rfl⟩ | ⟨l₁, l₂, rfl, rfl⟩)
    · exact ⟨[], l, rfl, rfl⟩
    · exact ⟨c :: l₁, l₂, rfl, by rw [List.sum_cons, Nat.add_assoc]⟩

theorem Tiles.piece {e first : Nat} {l : List Nat} (h : Tiles e first l) (hp : PieceAt first l addr s) :
    Aligned addr s ∧ addr + s ≤ e := by
  induction l generalizing first with
  | nil =>
      obtain ⟨l₁, l₂, hl, -⟩ := hp
      exact absurd hl.symm (List.append_ne_nil_of_right_ne_nil _ (List.cons_ne_nil _ _))
  | cons c l ih =>
      rcases pieceAt_cons.1 hp with ⟨rfl, rfl⟩ | hp
      · exact ⟨h.1, h.2.le⟩
      · exact ih h.2 hp

theorem Tiles.covers {e first : Nat} {l : List Nat} (h : Tiles e first l) (a : Nat) :
    first ≤ a ∧ a < e ↔ ∃ addr s, PieceAt first l addr s ∧ addr ≤ a ∧ a < addr + s := by
  induction l generalizing first with
  | nil =>
      have he : first = e := h
      constructor
      · rintro ⟨h₁, h₂⟩
        omega
      · rintro ⟨addr, s, ⟨l₁, l₂, hl, -⟩, -⟩
        exact absurd hl.symm (List.append_ne_nil_of_right_ne_nil _ (List.cons_ne_nil _ _))
  | cons c l ih =>
      have hle := h.2.le
      constructor
      · rintro ⟨h₁, h₂⟩
        by_cases hc : a < first + c
        · exact ⟨first, c, pieceAt_cons.2 (.inl ⟨rfl, rfl⟩), h₁, hc⟩
        · obtain ⟨addr, s, hp, hin⟩ := (ih h.2).1 ⟨not_lt.1 hc, h₂⟩
          exact ⟨addr, s, pieceAt_cons.2 (.inr hp), hin⟩
      · rintro ⟨addr, s, hp, hin⟩
        rcases pieceAt_cons.1 hp with ⟨rfl, rfl⟩ | hp
        · omega
        · have := (ih h.2).2 ⟨addr, s, hp, hin⟩
          omega

theorem Tiles.sum_eq {e first : Nat} {l : List Nat} (h : Tiles e first l) : first + l.sum = e := by
  induction l generalizing first with
  | nil => exact h
  | cons c l ih => rw [List.sum_cons, ← Nat.add_assoc, ih h.2]

/-- The pieces are the whole range, one behind the other, each of them aligned to its size,
which is a power of 2 and at most the maximum; nothing is computed beyond 64 bits. -/
theorem splitIoToAligned_covers {ioAddress ioBlocks : Nat} (maxIoBlocks : Nat)
    (hend : ioAddress + ioBlocks < 2 ^ 64) :
    (∀ fuel, ioBlocks ≤ fuel → splitLoop (getMaxAlignedSize maxIoBlocks) fuel ioAddress ioBlocks =
        splitIoToAligned ioAddress ioBlocks maxIoBlocks) ∧
      (splitIoToAligned ioAddress ioBlocks maxIoBlocks).sum = ioBlocks ∧
      (∀ a, ioAddress ≤ a ∧ a < ioAddress + ioBlocks ↔
        ∃ addr s, PieceAt ioAddress (splitIoToAligned ioAddress ioBlocks maxIoBlocks) addr s ∧
        addr ≤ a ∧ a < addr + s) ∧
      ∀ addr s, PieceAt ioAddress (splitIoToAligned ioAddress ioBlocks maxIoBlocks) addr s →
        (∃ k, k ≤ 31 ∧ s = 2 ^ k) ∧ s ∣ addr ∧ (0 < maxIoBlocks → s ≤ maxIoBlocks) ∧
        addr + s < 2 ^ 64 := by
  have htiles := splitIoToAligned_tiles ioAddress ioBlocks maxIoBlocks
  refine ⟨fun fuel hf => splitLoop_fuel maxIoBlocks hf le_rfl, Nat.add_left_cancel htiles.sum_eq,
    htiles.covers, ?_⟩
  intro addr s hp
  obtain ⟨⟨k, hk, rfl, hd⟩, hle⟩ := htiles.piece hp
  refine ⟨⟨k, hk, rfl⟩, hd, fun hm => ?_, hle.trans_lt hend⟩
  obtain ⟨l₁, l₂, hl, -⟩ := hp
  have hmem : 2 ^ k ∈ splitIoToAligned ioAddress ioBlocks maxIoBlocks :=
    hl ▸ List.mem_append_right _ List.mem_cons_self
  exact le_of_mem_splitIoToAligned hm hmem

theorem splitIoToAligned_covers_six :
    (splitIoToAligned 6 11 4).sum = 11 ∧ ∀ addr s, PieceAt 6 (splitIoToAligned 6 11 4) addr s →
      s ∣ addr ∧ s ≤ 4 := by
  obtain ⟨-, hsum, -, hp⟩ := @splitIoToAligned_covers 6 11 4 (by decide)
  exact ⟨hsum, fun addr s h => ⟨(hp addr s h).2.1, (hp addr s h).2.2.1 (by decide)⟩⟩

end WalbTools.AlignedIo
