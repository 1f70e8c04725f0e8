import WalbTools.Layout

namespace WalbTools.Splice

open ByteMemory Layout

variable {α : Type} {b l : List α} {off p n : Nat}

/-- `b` with `l` stored from `off` on. What falls off the end is dropped. -/
def splice (b : List α) (off : Nat) (l : List α) : List α :=
  b.mapIdx fun i x => if off ≤ i then l.getD (i - off) x else x

@[simp] theorem length_splice : (splice b off l).length = b.length := List.length_mapIdx

theorem getElem_splice {i : Nat} (h : i < (splice b off l).length) (hb : i < b.length) :
    (splice b off l)[i] = if off ≤ i then l.getD (i - off) b[i] else b[i] := List.getElem_mapIdx

theorem splice_eq_append (h : off + l.length ≤ b.length) :
    splice b off l = b.take off ++ l ++ b.drop (off + l.length) := by
  apply List.ext_getElem
  · rw [length_splice, List.length_append, List.length_append, List.length_take, List.length_drop]
    omega
  · intro i hi hj
    have hb : i < b.length := by rwa [length_splice] at hi
    have hoff : (b.take off).length = off := by
      rw [List.length_take]
      omega
    rw [getElem_splice hi hb]
    simp only [List.getElem_append, List.length_append, hoff, List.getElem_take, List.getElem_drop,
      List.getD_eq_getElem?_getD]
    by_cases hlow : off ≤ i
    · rw [if_pos hlow]
      by_cases hmid : i - off < l.length
      · rw [List.getElem?_eq_getElem hmid, dif_pos (by omega), dif_neg (by omega)]
        rfl
      · rw [List.getElem?_eq_none (by omega), dif_neg (by omega)]
        refine List.getElem_of_eq rfl hb |>.trans ?_
        congr 1
        omega
    · rw [if_neg hlow, dif_pos (by omega), dif_pos (by omega)]

theorem take_drop_splice_of_disjoint (h : p + n ≤ off ∨ off + l.length ≤ p) :
    ((splice b off l).drop p).take n = (b.drop p).take n := by
  apply List.ext_getElem
  · simp only [List.length_take, List.length_drop, length_splice]
  · intro i hi hj
    simp only [List.length_take, List.length_drop] at hj
    rw [List.getElem_take, List.getElem_drop, List.getElem_take, List.getElem_drop,
      getElem_splice _ (by omega), List.getD_eq_getElem?_getD]
    obtain h | h := h
    · exact if_neg (by omega)
    · rw [if_pos (by omega), List.getElem?_eq_none (by omega)]
      rfl

theorem take_drop_splice (h : off + l.length ≤ b.length) :
    ((splice b off l).drop off).take l.length = l := by
  have hoff : (b.take off).length = off := by
    rw [List.length_take]
    omega
  rw [splice_eq_append h, List.append_assoc, List.drop_left' hoff, List.take_left' rfl]

theorem ofLE_lt (l : Bytes) : ofLE l < 256 ^ l.length := by
  induction l with
  | nil => exact Nat.one_pos
  | cons x l ih =>
      have hx : x.toNat < 256 := x.toNat_lt
      rw [ofLE, List.length_cons, pow_succ]
      omega

theorem ofLE_take_lt (l : Bytes) (w : Nat) : ofLE (l.take w) < 256 ^ w :=
  (ofLE_lt _).trans_le (Nat.pow_le_pow_right (by decide) (List.length_take_le w l))

theorem fields_congr {ws : List Nat} {bytes bytes' : Bytes}
    (h : bytes.take ws.sum = bytes'.take ws.sum) :
    fields ws bytes = fields ws bytes' := by
  induction ws generalizing bytes bytes' with
  | nil => rfl
  | cons w ws ih =>
      rw [List.sum_cons] at h
      have hhead := congrArg (List.take w) h
      have htail := congrArg (List.drop w) h
      rw [List.take_take, List.take_take, Nat.min_eq_left (Nat.le_add_right _ _)] at hhead
      rw [List.drop_take, List.drop_take, Nat.add_sub_cancel_left] at htail
      rw [fields, fields, hhead, ih htail]

theorem length_fields (ws : List Nat) (bytes : Bytes) : (fields ws bytes).length = ws.length := by
  induction ws generalizing bytes with
  | nil => rfl
  | cons w ws ih => rw [fields, List.length_cons, List.length_cons, ih]

theorem sum_take_add_le {ws : List Nat} {i j : Nat} (hi : i < ws.length) (h : i < j) :
    (ws.take i).sum + ws[i] ≤ (ws.take j).sum := by
  obtain ⟨k, rfl⟩ := Nat.exists_eq_add_of_lt h
  rw [Nat.add_right_comm, List.take_add, List.sum_append, List.take_succ_eq_append_getElem hi,
    List.sum_append,
    List.sum_singleton]
  exact Nat.le_add_right _ _

theorem getElem_fields {ws : List Nat} {bytes : Bytes} {i : Nat} (h : i < (fields ws bytes).length)
    (hi : i < ws.length) :
    (fields ws bytes)[i] = ofLE ((bytes.drop (ws.take i).sum).take ws[i]) := by
  induction ws generalizing bytes i with
  | nil => cases hi
  | cons w ws ih =>
      cases i with
      | zero => rfl
      | succ i =>
          have hlt : i < ws.length := Nat.lt_of_succ_lt_succ hi
          have hfields : i < (fields ws (bytes.drop w)).length := by rwa [length_fields]
          simp only [fields, List.getElem_cons_succ, List.take_succ_cons, List.sum_cons]
          rw [ih hfields hlt, List.drop_drop]

/-- `bytes` with the value `v` in the `i`th of the fields that begin at `base`. -/
def setField (ws : List Nat) (base i v : Nat) (bytes : Bytes) : Bytes :=
  splice bytes (base + (ws.take i).sum) (toLE (ws.getD i 0) v)

section

variable {ws : List Nat} {bytes : Bytes} {base i v : Nat}

@[simp] theorem length_setField : (setField ws base i v bytes).length = bytes.length := length_splice

/-- A store to one field changes that one, to what its width holds of the value. -/
theorem fields_setField (hi : i < ws.length) (h : base + ws.sum ≤ bytes.length) :
    fields ws ((setField ws base i v bytes).drop base) =
      (fields ws (bytes.drop base)).set i (v % 256 ^ ws[i]) := by
  have hwidth : ws.getD i 0 = ws[i] := List.getD_eq_getElem ws 0 hi
  have hend : (ws.take i).sum + ws[i] ≤ ws.sum := by
    have hle := sum_take_add_le hi hi
    rwa [List.take_length] at hle
  apply List.ext_getElem
  · rw [List.length_set, length_fields, length_fields]
  · intro j hj hj'
    have hlt : j < ws.length := by rwa [length_fields] at hj
    rw [getElem_fields hj hlt, List.drop_drop, setField, hwidth]
    by_cases hij : i = j
    · subst hij
      have hread : ((splice bytes (base + (ws.take i).sum) (toLE ws[i] v)).drop _).take
          (toLE ws[i] v).length = toLE ws[i] v :=
        take_drop_splice (by rw [length_toLE]; omega)
      rw [length_toLE] at hread
      rw [hread, ofLE_toLE, List.getElem_set_self]
    · have hapart : base + (ws.take j).sum + ws[j] ≤ base + (ws.take i).sum ∨
          base + (ws.take i).sum + (toLE ws[i] v).length ≤ base + (ws.take j).sum := by
        rw [length_toLE]
        obtain hlt' | hlt' := Nat.lt_or_gt_of_ne hij
        · have hle := sum_take_add_le hi hlt'
          omega
        · have hle := sum_take_add_le hlt hlt'
          omega
      rw [take_drop_splice_of_disjoint hapart, List.getElem_set_ne hij, getElem_fields _ hlt,
        List.drop_drop]

theorem fields_splice_of_disjoint {l : Bytes} {off : Nat}
    (h : base + ws.sum ≤ off ∨ off + l.length ≤ base) :
    fields ws ((splice bytes off l).drop base) = fields ws (bytes.drop base) :=
  fields_congr (take_drop_splice_of_disjoint h)

theorem fields_setField_of_disjoint {ws' : List Nat} {base' : Nat} (hi : i < ws.length)
    (h : base' + ws'.sum ≤ base ∨ base + ws.sum ≤ base') :
    fields ws' ((setField ws base i v bytes).drop base') = fields ws' (bytes.drop base') := by
  have hend : (ws.take i).sum + ws[i] ≤ ws.sum := by
    have hle := sum_take_add_le hi hi
    rwa [List.take_length] at hle
  refine fields_splice_of_disjoint ?_
  rw [length_toLE, List.getD_eq_getElem ws 0 hi]
  omega

theorem getD_fields_setField (hi : i < ws.length) (h : base + ws.sum ≤ bytes.length) (j : Nat) :
    (fields ws ((setField ws base i v bytes).drop base)).getD j 0 =
      if j = i then v % 256 ^ ws[i] else (fields ws (bytes.drop base)).getD j 0 := by
  rw [fields_setField hi h, List.getD_eq_getElem?_getD, List.getElem?_set, length_fields]
  by_cases hj : j = i
  · subst hj
    rw [if_pos rfl, if_pos hi, if_pos rfl]
    rfl
  · rw [if_neg (Ne.symm hj), if_neg hj, ← List.getD_eq_getElem?_getD]

theorem getD_fields_splice_of_disjoint {l : Bytes} {off : Nat} (hi : i < ws.length)
    (h : (ws.take i).sum + ws[i] ≤ off ∨ off + l.length ≤ (ws.take i).sum) :
    (fields ws (splice bytes off l)).getD i 0 = (fields ws bytes).getD i 0 := by
  rw [List.getD_eq_getElem _ 0 (by rwa [length_fields]),
    List.getD_eq_getElem _ 0 (by rwa [length_fields]),
    getElem_fields _ hi, getElem_fields _ hi, take_drop_splice_of_disjoint h]

end

end WalbTools.Splice
