import WalbTools.Overlay

namespace WalbTools.ByteMemory

open Overlay

abbrev Bytes := List UInt8

def toLE : Nat → Nat → Bytes
  | 0, _ => []
  | w + 1, n => UInt8.ofNat n :: toLE w (n / 256)

def ofLE : Bytes → Nat
  | [] => 0
  | b :: bs => b.toNat + 256 * ofLE bs

@[simp] theorem length_toLE (w n : Nat) : (toLE w n).length = w := by
  induction w generalizing n with
  | zero => rfl
  | succ w ih => rw [toLE, List.length_cons, ih]

theorem ofLE_toLE (w n : Nat) : ofLE (toLE w n) = n % 256 ^ w := by
  induction w generalizing n with
  | zero => rw [toLE, ofLE, pow_zero, Nat.mod_one]
  | succ w ih =>
      change n % 256 + 256 * ofLE (toLE w (n / 256)) = _
      rw [ih, pow_succ', Nat.mod_mul]

theorem ofLE_toLE_of_lt {w n : Nat} (h : n < 256 ^ w) : ofLE (toLE w n) = n := by
  rw [ofLE_toLE, Nat.mod_eq_of_lt h]

theorem toLE_ofLE (l : Bytes) : toLE l.length (ofLE l) = l := by
  induction l with
  | nil => rfl
  | cons b bs ih =>
      have hb : b.toNat < 256 := b.toNat_lt
      rw [List.length_cons, ofLE, toLE, Nat.add_mul_div_left _ _ (by decide), Nat.div_eq_of_lt hb,
        Nat.zero_add, ih]
      refine congrArg (· :: bs) (UInt8.toNat_inj.1 ?_)
      rw [UInt8.toNat_ofNat']
      omega

theorem toLE_eight (n : Nat) : toLE 8 n = toLE 4 n ++ toLE 4 (n / 2 ^ 32) := by
  simp [toLE, Nat.div_div_eq_div_mul]

def poke (mem : Nat → UInt8) (off : Nat) (l : Bytes) : Nat → UInt8 := write (stretch off l) mem

def u32At (mem : Nat → UInt8) (off : Nat) : Nat := ofLE (slice mem off 4)

variable {mem mem' : Nat → UInt8} {off p n m : Nat} {l k : Bytes}

theorem slice_congr (h : ∀ a, p ≤ a → a < p + n → mem' a = mem a) : slice mem' p n = slice mem p n := by
  refine List.map_congr_left fun i hi => h _ (by omega) ?_
  have := List.mem_range.1 hi
  omega

theorem slice_move {p' : Nat} (h : ∀ i, i < n → mem' (p' + i) = mem (p + i)) :
    slice mem' p' n = slice mem p n :=
  List.map_congr_left fun i hi => h i (List.mem_range.1 hi)

theorem eq_of_slice_eq (h : slice mem' p n = slice mem p n) {i : Nat} (hi : i < n) :
    mem' (p + i) = mem (p + i) :=
  List.map_inj_left.1 h i (List.mem_range.2 hi)

theorem poke_of_disjoint {a : Nat} (h : a < off ∨ off + l.length ≤ a) : poke mem off l a = mem a :=
  write_of_none (stretch_eq_none_iff.2 h)

theorem poke_of_mem {i : Nat} (h : i < l.length) : poke mem off l (off + i) = l[i] := by
  rw [poke, write, stretch, if_pos (Nat.le_add_right _ _), Nat.add_sub_cancel_left,
    List.getElem?_eq_getElem h]
  rfl

theorem slice_poke_of_disjoint (h : p + n ≤ off ∨ off + l.length ≤ p) :
    slice (poke mem off l) p n = slice mem p n :=
  slice_congr fun a ha han => poke_of_disjoint (by omega)

theorem slice_poke_self : slice (poke mem off l) off l.length = l := by
  apply List.ext_getElem
  · rw [length_slice]
  · intro i h₁ h₂
    simp only [slice, List.getElem_map, List.getElem_range]
    exact poke_of_mem h₂

theorem slice_poke_prefix : slice (poke mem off (l ++ k)) off l.length = l := by
  have h : slice (poke mem off (l ++ k)) off (l ++ k).length = l ++ k := slice_poke_self
  rw [List.length_append, slice_append] at h
  exact (List.append_inj h length_slice).1

theorem toLE_u32At : toLE 4 (u32At mem p) = slice mem p 4 := by
  have h := toLE_ofLE (slice mem p 4)
  rwa [length_slice] at h

theorem u32At_poke_of_disjoint (h : p + 4 ≤ off ∨ off + l.length ≤ p) :
    u32At (poke mem off l) p = u32At mem p := by
  rw [u32At, u32At, slice_poke_of_disjoint h]

theorem slice_poke_toLE {v : Nat} : slice (poke mem off (toLE n v)) off n = toLE n v := by
  have hs : slice (poke mem off (toLE n v)) off (toLE n v).length = toLE n v := slice_poke_self
  rwa [length_toLE] at hs

theorem u32At_poke_self {v : Nat} (h : v < 2 ^ 32) : u32At (poke mem off (toLE 4 v)) off = v := by
  rw [u32At, slice_poke_toLE, ofLE_toLE_of_lt (by simpa using h)]

theorem u32At_poke_prefix {v : Nat} (h : v < 2 ^ 32) : u32At (poke mem off (toLE 4 v ++ k)) off = v := by
  have hs : slice (poke mem off (toLE 4 v ++ k)) off (toLE 4 v).length = toLE 4 v := slice_poke_prefix
  rw [length_toLE] at hs
  rw [u32At, hs, ofLE_toLE_of_lt (by simpa using h)]

theorem u32At_move {p' : Nat} (h : ∀ i, i < 4 → mem' (p' + i) = mem (p + i)) :
    u32At mem' p' = u32At mem p := by
  rw [u32At, u32At, slice_move h]

end WalbTools.ByteMemory
