import Mathlib

namespace WalbTools.KeyedList

open scoped List

variable {α κ : Type} [LinearOrder κ] (key : α → κ)

/-- Ordered maps and multimaps as lists in key order. -/
def Sorted (l : List α) : Prop := l.Pairwise (fun a b => key a ≤ key b)

def before (k : κ) (l : List α) : List α := l.takeWhile (fun a => decide (key a < k))

def lowerBound (k : κ) (l : List α) : List α := l.dropWhile (fun a => decide (key a < k))

def equalRange (k : κ) (l : List α) : List α :=
  (lowerBound key k l).takeWhile (fun a => decide (key a ≤ k))

/-- Insertion after the elements of the same key, as a multimap does. -/
def emplace (a : α) (l : List α) : List α :=
  l.takeWhile (fun b => decide (key b ≤ key a)) ++ a :: l.dropWhile (fun b => decide (key b ≤ key a))

def insert (a : α) (l : List α) : List α :=
  match lowerBound key (key a) l with
  | [] => before key (key a) l ++ [a]
  | b :: m => if key b = key a then l else before key (key a) l ++ a :: b :: m

theorem before_append_lowerBound (k : κ) (l : List α) :
    before key k l ++ lowerBound key k l = l := List.takeWhile_append_dropWhile

variable {key}

theorem before_eq_filter {l : List α} (h : Sorted key l) (k : κ) :
    before key k l = l.filter (fun a => decide (key a < k)) := by
  induction l with
  | nil => rfl
  | cons a l ih =>
      obtain ⟨ha, hl⟩ := List.pairwise_cons.1 h
      by_cases hk : key a < k
      · simpa [before, hk] using ih hl
      · have hnil : l.filter (fun b => decide (key b < k)) = [] := by
          rw [List.filter_eq_nil_iff]
          intro b hb
          simpa using (not_lt.1 hk).trans (ha b hb)
        simp [before, hk, hnil]

theorem lowerBound_eq_filter {l : List α} (h : Sorted key l) (k : κ) :
    lowerBound key k l = l.filter (fun a => decide (k ≤ key a)) := by
  induction l with
  | nil => rfl
  | cons a l ih =>
      obtain ⟨ha, hl⟩ := List.pairwise_cons.1 h
      by_cases hk : key a < k
      · simpa [lowerBound, hk] using ih hl
      · have hall : l.filter (fun b => decide (k ≤ key b)) = l := by
          rw [List.filter_eq_self]
          intro b hb
          simpa using (not_lt.1 hk).trans (ha b hb)
        simp [lowerBound, hk, not_lt.1 hk, hall]

theorem mem_lowerBound {l : List α} (h : Sorted key l) {k : κ} {a : α} :
    a ∈ lowerBound key k l ↔ a ∈ l ∧ k ≤ key a := by
  rw [lowerBound_eq_filter h, List.mem_filter, decide_eq_true_eq]

theorem mem_before {l : List α} (h : Sorted key l) {k : κ} {a : α} :
    a ∈ before key k l ↔ a ∈ l ∧ key a < k := by
  rw [before_eq_filter h, List.mem_filter, decide_eq_true_eq]

theorem equalRange_eq_filter {l : List α} (h : Sorted key l) (k : κ) :
    equalRange key k l = l.filter (fun a => decide (key a = k)) := by
  have hs : Sorted key (lowerBound key k l) := h.sublist (List.dropWhile_sublist _)
  have hle : equalRange key k l = (lowerBound key k l).filter (fun a => decide (key a ≤ k)) := by
    unfold equalRange
    generalize lowerBound key k l = m at hs
    induction m with
    | nil => rfl
    | cons a m ih =>
        obtain ⟨ha, hm⟩ := List.pairwise_cons.1 hs
        by_cases hk : key a ≤ k
        · simpa [hk] using ih hm
        · have hnil : m.filter (fun b => decide (key b ≤ k)) = [] := by
            rw [List.filter_eq_nil_iff]
            intro b hb
            simpa using (not_le.1 hk).trans_le (ha b hb)
          simp [hk, hnil]
  rw [hle, lowerBound_eq_filter h, List.filter_filter]
  refine List.filter_congr fun a _ => ?_
  simp [le_antisymm_iff]

theorem mem_equalRange {l : List α} (h : Sorted key l) {k : κ} {a : α} :
    a ∈ equalRange key k l ↔ a ∈ l ∧ key a = k := by
  rw [equalRange_eq_filter h, List.mem_filter, decide_eq_true_eq]

theorem emplace_perm (a : α) (l : List α) : (emplace key a l).Perm (a :: l) := by
  have h := List.takeWhile_append_dropWhile (p := fun b => decide (key b ≤ key a)) (l := l)
  calc emplace key a l
      ~ a :: (l.takeWhile (fun b => decide (key b ≤ key a)) ++
          l.dropWhile (fun b => decide (key b ≤ key a))) := List.perm_middle
    _ = a :: l := by rw [h]

theorem mem_emplace {a b : α} {l : List α} : b ∈ emplace key a l ↔ b = a ∨ b ∈ l := by
  rw [(emplace_perm a l).mem_iff, List.mem_cons]

theorem Sorted.emplace {l : List α} (h : Sorted key l) (a : α) : Sorted key (emplace key a l) := by
  induction l with
  | nil => exact List.pairwise_singleton _ _
  | cons b l ih =>
      obtain ⟨hb, hl⟩ := List.pairwise_cons.1 h
      by_cases hk : key b ≤ key a
      · have he : KeyedList.emplace key a (b :: l) = b :: KeyedList.emplace key a l := by
          simp [KeyedList.emplace, hk]
        rw [he]
        refine List.pairwise_cons.2 ⟨fun c hc => ?_, ih hl⟩
        rcases mem_emplace.1 hc with rfl | hc
        · exact hk
        · exact hb c hc
      · have he : KeyedList.emplace key a (b :: l) = a :: b :: l := by
          simp [KeyedList.emplace, hk]
        rw [he]
        refine List.pairwise_cons.2 ⟨fun c hc => ?_, h⟩
        have hab := (not_le.1 hk).le
        rcases List.mem_cons.1 hc with rfl | hc
        · exact hab
        · exact hab.trans (hb c hc)

theorem insert_eq {l : List α} (a : α) (hk : ∀ b ∈ l, key b ≠ key a) :
    insert key a l = before key (key a) l ++ a :: lowerBound key (key a) l := by
  unfold insert
  split
  next h => rw [h]
  next b m h =>
    have hb : b ∈ l := (List.dropWhile_sublist _).subset (h ▸ List.mem_cons_self)
    rw [if_neg (hk b hb), h]

theorem insert_perm {l : List α} (a : α) (hk : ∀ b ∈ l, key b ≠ key a) :
    (insert key a l).Perm (a :: l) := by
  calc insert key a l
      = before key (key a) l ++ a :: lowerBound key (key a) l := insert_eq a hk
    _ ~ a :: (before key (key a) l ++ lowerBound key (key a) l) := List.perm_middle
    _ = a :: l := by rw [before_append_lowerBound]

theorem insert_of_mem {l : List α} (h : Sorted key l) {a b : α} (hb : b ∈ l) (hk : key b = key a) :
    insert key a l = l := by
  have hmem : b ∈ lowerBound key (key a) l := (mem_lowerBound h).mpr ⟨hb, hk.ge⟩
  have hs : Sorted key (lowerBound key (key a) l) := h.sublist (List.dropWhile_sublist _)
  unfold insert
  split
  next hnil =>
    rw [hnil] at hmem
    exact absurd hmem List.not_mem_nil
  next c m hcons =>
    have hc : key a ≤ key c := ((mem_lowerBound h).mp (hcons ▸ List.mem_cons_self)).2
    rw [hcons] at hmem hs
    have hle : key c ≤ key b := by
      rcases List.mem_cons.mp hmem with rfl | hm
      · exact le_rfl
      · exact (List.pairwise_cons.mp hs).1 b hm
    rw [if_pos (le_antisymm (hk ▸ hle) hc)]

theorem Sorted.insert {l : List α} (h : Sorted key l) (a : α) (hk : ∀ b ∈ l, key b ≠ key a) :
    Sorted key (insert key a l) := by
  rw [insert_eq a hk]
  refine List.pairwise_append.2 ⟨h.sublist (List.takeWhile_sublist _),
    List.pairwise_cons.2 ⟨fun c hc => ((mem_lowerBound h).1 hc).2,
      h.sublist (List.dropWhile_sublist _)⟩, fun b hb c hc => ?_⟩
  have hba := ((mem_before h).1 hb).2
  rcases List.mem_cons.1 hc with rfl | hc
  · exact hba.le
  · exact hba.le.trans ((mem_lowerBound h).1 hc).2

end WalbTools.KeyedList
