import WalbTools.DiffPack

namespace WalbTools.DiffPack

open scoped List

namespace Pack

def offer (p : Pack) (r : PackRecord) : Pack := (p.addRecord r).getD p

def filled (rs : List PackRecord) : Pack := rs.foldl offer .clear

structure Accounted (p : Pack) : Prop where
  total : p.totalSize = (p.records.map fun r => r.dataSize).sum
  offset : ∀ l r l', p.records = l ++ r :: l' → r.dataOffset = (l.map fun r => r.dataSize).sum
  count : p.records.length ≤ MAX_N_RECORDS_IN_WALB_DIFF_PACK
  bound : p.totalSize ≤ WALB_DIFF_PACK_MAX_SIZE ∨ p.records.length = 1

/-- The sum in `canAdd` passes 2^32 and comes out small. -/
def Wraps (p : Pack) (r : PackRecord) : Prop :=
  0 < p.records.length ∧ p.records.length < MAX_N_RECORDS_IN_WALB_DIFF_PACK ∧
    2 ^ 32 ≤ p.totalSize + r.dataSize ∧ (p.totalSize + r.dataSize) % 2 ^ 32 ≤ WALB_DIFF_PACK_MAX_SIZE

variable {p : Pack} {r : PackRecord}

theorem offer_of_not_canAdd (h : p.canAdd r.dataSize = false) : p.offer r = p := by
  rw [offer, addRecord, h]
  rfl

theorem offer_of_canAdd (h : p.canAdd r.dataSize = true) :
    p.offer r = ⟨p.records ++ [{ r with dataOffset := p.totalSize }],
      (p.totalSize + r.dataSize) % 2 ^ 32, p.data⟩ := by
  rw [offer, addRecord, h]
  rfl

theorem canAdd_eq_true_iff {n : Nat} : p.canAdd n = true ↔
    p.records.length < MAX_N_RECORDS_IN_WALB_DIFF_PACK ∧
    (0 < p.records.length → (p.totalSize + n) % 2 ^ 32 ≤ WALB_DIFF_PACK_MAX_SIZE) := by
  rw [canAdd, DiffPack.canAdd]
  split_ifs with hcount hsize
  · simp [hcount]
  · simp only [false_iff, not_and, Classical.not_imp]
    exact fun _ => ⟨hsize.1, not_le.mpr hsize.2⟩
  · simp only [true_iff]
    exact ⟨not_le.mp hcount, fun hpos => not_lt.mp fun hlt => hsize ⟨hpos, hlt⟩⟩

theorem accounted_clear : Accounted .clear :=
  ⟨rfl, fun l r l' h => absurd h (by simp [clear]), Nat.zero_le _, .inl (Nat.zero_le _)⟩

/-- A record behind those that are accounted for, when nothing wraps. -/
theorem Accounted.append (h : Accounted p) (hcount : p.records.length < MAX_N_RECORDS_IN_WALB_DIFF_PACK)
    (hbound : p.totalSize + r.dataSize ≤ WALB_DIFF_PACK_MAX_SIZE ∨ p.records.length = 0) :
    Accounted ⟨p.records ++ [{ r with dataOffset := p.totalSize }], p.totalSize + r.dataSize,
      p.data⟩ where
  total := by rw [List.map_append, List.sum_append, h.total, List.map_singleton, List.sum_singleton]
  offset := by
    intro l r' l' heq
    rcases List.append_eq_append_iff.mp heq with ⟨m, hl, hm⟩ | ⟨m, hp, hm⟩
    · cases m with
      | nil =>
          rw [List.append_nil] at hl
          rw [List.nil_append] at hm
          rw [← (List.cons.inj hm).1, hl, ← h.total]
      | cons a m =>
          have hlen := congrArg List.length hm
          simp at hlen
    · cases m with
      | nil =>
          rw [List.append_nil] at hp
          rw [List.nil_append] at hm
          rw [(List.cons.inj hm).1, ← hp, ← h.total]
      | cons a m =>
          obtain ⟨rfl, -⟩ := List.cons.inj hm
          exact h.offset l r' m hp
  count := by
    rw [List.length_append, List.length_singleton]
    exact hcount
  bound := hbound.imp_right fun h0 => by rw [List.length_append, h0, List.length_singleton]

theorem Accounted.offer (h : Accounted p) (hr : r.dataSize < 2 ^ 32) (hw : ¬Wraps p r) :
    Accounted (p.offer r) := by
  cases hc : p.canAdd r.dataSize with
  | false => rwa [offer_of_not_canAdd hc]
  | true =>
      obtain ⟨hcount, hsize⟩ := canAdd_eq_true_iff.mp hc
      rw [offer_of_canAdd hc]
      by_cases h0 : p.records.length = 0
      · have htotal : p.totalSize = 0 := by
          rw [h.total, List.length_eq_zero_iff.mp h0, List.map_nil, List.sum_nil]
        rw [Nat.mod_eq_of_lt (by rw [htotal, Nat.zero_add]; exact hr)]
        exact h.append hcount (.inr h0)
      · have hpos := Nat.pos_of_ne_zero h0
        have hlt : p.totalSize + r.dataSize < 2 ^ 32 := by
          by_contra hge
          exact hw ⟨hpos, hcount, not_lt.mp hge, hsize hpos⟩
        have hle := hsize hpos
        rw [Nat.mod_eq_of_lt hlt] at hle ⊢
        exact h.append hcount (.inl hle)

theorem Accounted.not_offer (h : Accounted p) (hw : Wraps p r) : ¬Accounted (p.offer r) := by
  obtain ⟨-, hcount, hge, hle⟩ := hw
  intro h'
  have htotal := h'.total
  rw [offer_of_canAdd (canAdd_eq_true_iff.mpr ⟨hcount, fun _ => hle⟩)] at htotal
  rw [List.map_append, List.sum_append, ← h.total, List.map_singleton, List.sum_singleton] at htotal
  have hlt := Nat.mod_lt (p.totalSize + r.dataSize) (Nat.two_pow_pos 32)
  dsimp only at htotal
  omega

theorem filled_concat (rs : List PackRecord) (r : PackRecord) :
    filled (rs ++ [r]) = (filled rs).offer r := by
  rw [filled, List.foldl_append]
  rfl

/-- Exactly when the header stays right at every record that is offered. -/
theorem accounted_iff {rs : List PackRecord} (hrs : ∀ r ∈ rs, r.dataSize < 2 ^ 32) :
    (∀ l, l <+: rs → Accounted (filled l)) ↔ ∀ l r, l ++ [r] <+: rs → ¬Wraps (filled l) r := by
  constructor
  · intro h l r hl hw
    have hnext := h _ hl
    rw [filled_concat] at hnext
    exact (h l ((List.prefix_append l [r]).trans hl)).not_offer hw hnext
  · intro h l hl
    induction l using List.reverseRecOn with
    | nil => exact accounted_clear
    | append_singleton l r ih =>
        rw [filled_concat]
        exact (ih ((List.prefix_append l [r]).trans hl)).offer
          (hrs r (hl.subset (List.mem_append_right _ List.mem_cons_self))) (h l r hl)

def sized (n : Nat) : PackRecord := ⟨⟨0, 1, n, .normal⟩, WALB_DIFF_CMPR_NONE, 0, 0⟩

theorem accounted_iff_two :
    (∀ l, l <+: [sized 512, sized 1024] → Accounted (filled l)) ↔
      ∀ l r, l ++ [r] <+: [sized 512, sized 1024] → ¬Wraps (filled l) r :=
  accounted_iff (by decide)

/-- The second record gets the offset 2^32 - 1 and leaves a total of 1. -/
theorem not_accounted : ¬∀ rs, (∀ r ∈ rs, r.dataSize < 2 ^ 32) → Accounted (filled rs) := by
  intro h
  have htotal := (h [sized (2 ^ 32 - 1), sized 2] (by decide)).total
  exact absurd htotal (by decide)

end Pack

end WalbTools.DiffPack
