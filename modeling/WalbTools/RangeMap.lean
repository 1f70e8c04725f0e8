import WalbTools.KeyedList

namespace WalbTools.RangeMap

open KeyedList

variable {α : Type} (bgn fin : α → Nat)

def overlaps (a b : α) : Bool := decide (bgn a < fin b) && decide (bgn b < fin a)

/-- The map before and from the item where the search for overlaps starts: the
last item below `addr0` unless there is one at `addr0`. -/
def searchFrom (map : List α) (addr0 : Nat) : List α × List α :=
  let pre := before bgn addr0 map
  match lowerBound bgn addr0 map with
  | [] => (pre.dropLast, pre.getLast?.toList)
  | s :: post =>
      if addr0 < bgn s ∧ pre ≠ [] then (pre.dropLast, pre.getLast?.toList ++ s :: post)
      else (pre, s :: post)

/-- The items that stay in the map and the queue of overlapped ones. -/
def takeOverlapped (a : α) : List α → List α × List α
  | [] => ([], [])
  | s :: post =>
      if bgn s < fin a then
        let (kept, q) := takeOverlapped a post
        if overlaps bgn fin s a then (kept, s :: q) else (s :: kept, q)
      else (s :: post, [])

section

variable (minus : α → Except String (List α))

/-- The parts of the queued items that are left go back into the map. -/
def eliminate : List α → List α → Except String (List α)
  | [], map => .ok map
  | s :: q, map =>
      match minus s with
      | .error e => .error e
      | .ok v => eliminate q (v.foldl (fun map p => insert bgn p map) map)

def overwrite (a : α) (map : List α) : Except String (List α) :=
  let (pre, post) := searchFrom bgn map (bgn a)
  let (kept, q) := takeOverlapped bgn fin a post
  match eliminate bgn minus q (pre ++ kept) with
  | .error e => .error e
  | .ok map => .ok (insert bgn a map)

end

structure Ordered (l : List α) : Prop where
  pos : ∀ a, a ∈ l → bgn a < fin a
  pairwise : l.Pairwise fun a b => fin a ≤ bgn b

variable {bgn fin} {l v : List α} {a s : α}

theorem overlaps_eq_false_iff : overlaps bgn fin a s = false ↔ fin a ≤ bgn s ∨ fin s ≤ bgn a := by
  rw [Bool.eq_false_iff, Ne, overlaps, Bool.and_eq_true, decide_eq_true_eq, decide_eq_true_eq]
  omega

namespace Ordered

theorem nil : Ordered bgn fin [] := ⟨fun _ h => absurd h List.not_mem_nil, .nil⟩

theorem sublist (h : Ordered bgn fin l) {l' : List α} (hs : l'.Sublist l) : Ordered bgn fin l' :=
  ⟨fun a ha => h.pos a (hs.subset ha), h.pairwise.sublist hs⟩

theorem sorted (h : Ordered bgn fin l) : Sorted bgn l := by
  apply h.pairwise.imp_of_mem
  intro a b ha _ hab
  exact (h.pos a ha).le.trans hab

theorem insert (h : Ordered bgn fin l) (ha : bgn a < fin a)
    (hl : ∀ s, s ∈ l → overlaps bgn fin s a = false) :
    Ordered bgn fin (KeyedList.insert bgn a l) ∧ ∀ x, x ∈ KeyedList.insert bgn a l ↔ x = a ∨ x ∈ l := by
  have hapart : ∀ s, s ∈ l → fin s ≤ bgn a ∨ fin a ≤ bgn s := fun s hs =>
    overlaps_eq_false_iff.1 (hl s hs)
  have hne : ∀ s, s ∈ l → bgn s ≠ bgn a := by
    intro s hs
    have hpos := h.pos s hs
    have hap := hapart s hs
    omega
  have hmem : ∀ x, x ∈ KeyedList.insert bgn a l ↔ x = a ∨ x ∈ l := fun x => by
    rw [(insert_perm a hne).mem_iff, List.mem_cons]
  refine ⟨⟨fun x hx => ?_, ?_⟩, hmem⟩
  · rcases (hmem x).1 hx with rfl | hx
    · exact ha
    · exact h.pos x hx
  · have hlow : ∀ s, s ∈ before bgn (bgn a) l → fin s ≤ bgn a := by
      intro s hs
      obtain ⟨hs, hlt⟩ := (mem_before h.sorted).1 hs
      have hap := hapart s hs
      omega
    have hhigh : ∀ s, s ∈ lowerBound bgn (bgn a) l → fin a ≤ bgn s := by
      intro s hs
      obtain ⟨hs, hle⟩ := (mem_lowerBound h.sorted).1 hs
      have hpos := h.pos s hs
      have hap := hapart s hs
      omega
    rw [insert_eq a hne]
    apply List.pairwise_append.2
    refine ⟨h.pairwise.sublist (List.takeWhile_sublist _),
      List.pairwise_cons.2 ⟨hhigh, h.pairwise.sublist (List.dropWhile_sublist _)⟩, fun s hs t ht => ?_⟩
    have hst := hlow s hs
    rcases List.mem_cons.1 ht with rfl | ht
    · exact hst
    · exact (hst.trans ha.le).trans (hhigh t ht)

theorem foldl_insert (h : Ordered bgn fin l) (hv : Ordered bgn fin v)
    (hl : ∀ s, s ∈ l → ∀ p, p ∈ v → overlaps bgn fin s p = false) :
    Ordered bgn fin (v.foldl (fun map p => KeyedList.insert bgn p map) l) ∧
      ∀ x, x ∈ v.foldl (fun map p => KeyedList.insert bgn p map) l ↔ x ∈ v ∨ x ∈ l := by
  induction v generalizing l with
  | nil => exact ⟨h, by simp⟩
  | cons p v ih =>
      have hp := hv.pos p List.mem_cons_self
      obtain ⟨hord, hmem⟩ := h.insert hp fun s hs => hl s hs p List.mem_cons_self
      obtain ⟨hord', hmem'⟩ := ih hord (hv.sublist (List.sublist_cons_self p v)) (by
        intro s hs q hq
        rcases (hmem s).1 hs with rfl | hs
        · exact overlaps_eq_false_iff.2 (.inl ((List.pairwise_cons.1 hv.pairwise).1 q hq))
        · exact hl s hs q (List.mem_cons_of_mem _ hq))
      refine ⟨hord', fun x => ?_⟩
      rw [List.foldl_cons, hmem', hmem, List.mem_cons]
      tauto

/-- Everything before the start of the search ends at or before the address. -/
theorem searchFrom_spec (h : Ordered bgn fin l) (addr0 : Nat) :
    (searchFrom bgn l addr0).1 ++ (searchFrom bgn l addr0).2 = l ∧
      ∀ s, s ∈ (searchFrom bgn l addr0).1 → fin s ≤ addr0 := by
  have hsplit := before_append_lowerBound bgn addr0 l
  have hpre : Ordered bgn fin (before bgn addr0 l) := h.sublist (List.takeWhile_sublist _)
  have hback (pre post : List α) : pre.dropLast ++ (pre.getLast?.toList ++ post) = pre ++ post := by
    rw [← List.append_assoc]
    congr 1
    cases hl : pre.getLast? with
    | none =>
        rw [List.getLast?_eq_none_iff] at hl
        rw [hl]
        rfl
    | some last =>
        obtain ⟨l', rfl⟩ := List.getLast?_eq_some_iff.1 hl
        rw [List.dropLast_concat]
        rfl
  have hlow : ∀ s, s ∈ (before bgn addr0 l).dropLast → fin s ≤ addr0 := by
    intro s hs
    cases hl : (before bgn addr0 l).getLast? with
    | none =>
        rw [List.getLast?_eq_none_iff] at hl
        rw [hl] at hs
        exact absurd hs List.not_mem_nil
    | some last =>
        have hlt := ((mem_before h.sorted).1 (List.mem_of_getLast? hl)).2
        obtain ⟨l', hl'⟩ := List.getLast?_eq_some_iff.1 hl
        have hpw := hpre.pairwise
        rw [hl', List.dropLast_concat] at hs
        rw [hl'] at hpw
        exact ((List.pairwise_append.1 hpw).2.2 s hs last List.mem_cons_self).trans hlt.le
  rw [searchFrom]
  cases hlb : lowerBound bgn addr0 l with
  | nil =>
      rw [hlb] at hsplit
      have hb := hback (before bgn addr0 l) []
      rw [List.append_nil] at hb
      exact ⟨hb.trans hsplit, hlow⟩
  | cons r post =>
      rw [hlb] at hsplit
      dsimp only
      split_ifs with hc
      · exact ⟨(hback _ _).trans hsplit, hlow⟩
      · refine ⟨hsplit, fun s hs => ?_⟩
        have hle := ((mem_lowerBound h.sorted).1 (hlb ▸ List.mem_cons_self)).2
        have hne : before bgn addr0 l ≠ [] := List.ne_nil_of_mem hs
        have hpw := h.pairwise
        rw [← hsplit] at hpw
        have hb := (List.pairwise_append.1 hpw).2.2 s hs r List.mem_cons_self
        have hr : ¬addr0 < bgn r := fun hlt => hc ⟨hlt, hne⟩
        omega

theorem takeOverlapped_eq (h : Ordered bgn fin l) (a : α) :
    takeOverlapped bgn fin a l =
      (l.filter (fun s => !overlaps bgn fin s a), l.filter (fun s => overlaps bgn fin s a)) := by
  induction l with
  | nil => rfl
  | cons s l ih =>
      have hl := h.sublist (List.sublist_cons_self s l)
      rw [takeOverlapped]
      split_ifs with hlt ho
      · simp [ih hl, ho]
      · simp [ih hl, ho]
      · have hno : ∀ t, t ∈ s :: l → overlaps bgn fin t a = false := by
          intro t ht
          have hge : bgn s ≤ bgn t := by
            rcases List.mem_cons.1 ht with rfl | ht
            · exact le_rfl
            · exact (List.pairwise_cons.1 h.sorted).1 t ht
          rw [Bool.eq_false_iff, Ne, overlaps, Bool.and_eq_true, decide_eq_true_eq]
          rintro ⟨hb, -⟩
          omega
        rw [List.filter_eq_self.2 (fun t ht => by rw [hno t ht]; rfl),
          List.filter_eq_nil_iff.2 (fun t ht => by rw [hno t ht]; exact Bool.false_ne_true)]

theorem search_eq (h : Ordered bgn fin l) (a : α) :
    (searchFrom bgn l (bgn a)).1 ++ (takeOverlapped bgn fin a (searchFrom bgn l (bgn a)).2).1 =
        l.filter (fun s => !overlaps bgn fin s a) ∧
      (takeOverlapped bgn fin a (searchFrom bgn l (bgn a)).2).2 =
      l.filter (fun s => overlaps bgn fin s a) := by
  obtain ⟨hsplit, hlow⟩ := h.searchFrom_spec (bgn a)
  have hpost : Ordered bgn fin (searchFrom bgn l (bgn a)).2 := by
    apply h.sublist
    conv_rhs => rw [← hsplit]
    exact List.sublist_append_right _ _
  have hno : ∀ s, s ∈ (searchFrom bgn l (bgn a)).1 → overlaps bgn fin s a = false := by
    intro s hs
    have hle := hlow s hs
    rw [Bool.eq_false_iff, Ne, overlaps, Bool.and_eq_true, decide_eq_true_eq, decide_eq_true_eq]
    omega
  have hfilter (f : α → Bool) : l.filter f =
      (searchFrom bgn l (bgn a)).1.filter f ++ (searchFrom bgn l (bgn a)).2.filter f := by
    rw [← List.filter_append, hsplit]
  have hkeep : (searchFrom bgn l (bgn a)).1.filter (fun s => !overlaps bgn fin s a) =
      (searchFrom bgn l (bgn a)).1 :=
    List.filter_eq_self.2 fun s hs => by rw [hno s hs]; rfl
  have hnone : (searchFrom bgn l (bgn a)).1.filter (fun s => overlaps bgn fin s a) = [] :=
    List.filter_eq_nil_iff.2 fun s hs => by rw [hno s hs]; exact Bool.false_ne_true
  rw [takeOverlapped_eq hpost, hfilter, hfilter, hkeep, hnone]
  exact ⟨rfl, rfl⟩

variable (bgn fin) in
structure Leaves (minus : α → Except String (List α)) (a s : α) (v : List α) : Prop where
  eq : minus s = .ok v
  ordered : Ordered bgn fin v
  within : ∀ p, p ∈ v → bgn s ≤ bgn p ∧ fin p ≤ fin s
  apart : ∀ p, p ∈ v → overlaps bgn fin p a = false

theorem eliminate_spec {minus : α → Except String (List α)} {f : α → List α} {q : List α}
    (h : Ordered bgn fin l)
    (hq : Ordered bgn fin q) (hf : ∀ s, s ∈ q → Leaves bgn fin minus a s (f s))
    (hlq : ∀ s, s ∈ l → ∀ t, t ∈ q → overlaps bgn fin s t = false) :
    ∃ l', eliminate bgn minus q l = .ok l' ∧ Ordered bgn fin l' ∧ ∀ x, x ∈ l' ↔ x ∈ l ∨ ∃ s, s ∈ q ∧
      x ∈ f s := by
  induction q generalizing l with
  | nil => exact ⟨l, rfl, h, by simp⟩
  | cons s q ih =>
      rw [List.forall_mem_cons] at hf
      have hs := hf.1
      have hpart : ∀ p, p ∈ f s → ∀ t, overlaps bgn fin t s = false → overlaps bgn fin t p = false := by
        intro p hp t ht
        have hin := hs.within p hp
        rw [overlaps_eq_false_iff] at ht ⊢
        omega
      obtain ⟨hord, hmem⟩ := h.foldl_insert hs.ordered fun t ht p hp =>
        hpart p hp t (hlq t ht s List.mem_cons_self)
      obtain ⟨l', hrun, hord', hmem'⟩ := ih hord (hq.sublist (List.sublist_cons_self s q)) hf.2 (by
        intro t ht u hu
        rcases (hmem t).1 ht with ht | ht
        · have hin := hs.within t ht
          have hsu := (List.pairwise_cons.1 hq.pairwise).1 u hu
          exact overlaps_eq_false_iff.2 (.inl (hin.2.trans hsu))
        · exact hlq t ht u (List.mem_cons_of_mem _ hu))
      refine ⟨l', by rw [eliminate, hs.eq]; exact hrun, hord', fun x => ?_⟩
      rw [hmem', hmem, List.exists_mem_cons_iff]
      tauto

/-- The items outside the range of `a` stay, and of the others what is outside. -/
theorem overwrite_spec (h : Ordered bgn fin l) (minus : α → Except String (List α)) (f : α → List α)
    (ha : bgn a < fin a)
    (hf : ∀ s, s ∈ l → overlaps bgn fin s a = true → Leaves bgn fin minus a s (f s)) :
    ∃ l', overwrite bgn fin minus a l = .ok l' ∧ Ordered bgn fin l' ∧
      ∀ x, x ∈ l' ↔ x = a ∨ (x ∈ l ∧ overlaps bgn fin x a = false) ∨ ∃ s, s ∈ l ∧
      overlaps bgn fin s a = true ∧ x ∈ f s := by
  obtain ⟨hkept, hq⟩ := h.search_eq a
  have hkeep : Ordered bgn fin (l.filter fun s => !overlaps bgn fin s a) := h.sublist List.filter_sublist
  have hover : Ordered bgn fin (l.filter fun s => overlaps bgn fin s a) := h.sublist List.filter_sublist
  have hapart : l.Pairwise fun s t => overlaps bgn fin s t = false ∧ overlaps bgn fin t s = false := by
    apply h.pairwise.imp
    intro s t hst
    rw [overlaps_eq_false_iff, overlaps_eq_false_iff]
    exact ⟨.inl hst, .inr hst⟩
  obtain ⟨l', hrun, hord, hmem⟩ := eliminate_spec (a := a) hkeep hover
    (fun s hs => hf s (List.mem_filter.1 hs).1 (List.mem_filter.1 hs).2) (by
      intro s hs t ht
      obtain ⟨hs, hsa⟩ := List.mem_filter.1 hs
      obtain ⟨ht, hta⟩ := List.mem_filter.1 ht
      have hne : s ≠ t := by
        rintro rfl
        rw [hta] at hsa
        cases hsa
      have hsymm : Std.Symm fun s t => overlaps bgn fin s t = false ∧
        overlaps bgn fin t s = false := ⟨fun _ _ => And.symm⟩
      exact (hapart.forall hs ht hne).1)
  have hno : ∀ x, x ∈ l' → overlaps bgn fin x a = false := by
    intro x hx
    rcases (hmem x).1 hx with hx | ⟨s, hs, hx⟩
    · have hxa := (List.mem_filter.1 hx).2
      rwa [Bool.not_eq_true'] at hxa
    · exact (hf s (List.mem_filter.1 hs).1 (List.mem_filter.1 hs).2).apart x hx
  obtain ⟨hord', hmem'⟩ := hord.insert ha hno
  refine ⟨KeyedList.insert bgn a l', ?_, hord', fun x => ?_⟩
  · rw [overwrite]
    dsimp only
    rw [hkept, hq, hrun]
  · rw [hmem', hmem]
    simp only [List.mem_filter, Bool.not_eq_true', and_assoc]

end Ordered

section Forall

variable {P : α → Prop} {minus : α → Except String (List α)} {q l' : List α}

theorem forall_insert (ha : P a) (hl : ∀ s, s ∈ l → P s) : ∀ s, s ∈ KeyedList.insert bgn a l → P s := by
  intro s hs
  rw [KeyedList.insert] at hs
  have hpre : ∀ s, s ∈ before bgn (bgn a) l → P s :=
    fun s hs => hl s ((List.takeWhile_sublist _).subset hs)
  have hpost : ∀ s, s ∈ lowerBound bgn (bgn a) l → P s :=
    fun s hs => hl s ((List.dropWhile_sublist _).subset hs)
  split at hs
  next =>
    rcases List.mem_append.1 hs with hs | hs
    · exact hpre s hs
    · exact List.mem_singleton.1 hs ▸ ha
  next b m hm =>
    rw [hm] at hpost
    split_ifs at hs with hk
    · exact hl s hs
    · rcases List.mem_append.1 hs with hs | hs
      · exact hpre s hs
      · rcases List.mem_cons.1 hs with rfl | hs
        · exact ha
        · exact hpost s hs

theorem forall_eliminate (hq : ∀ s v, minus s = .ok v → ∀ p, p ∈ v → P p) (hl : ∀ s, s ∈ l → P s)
    (h : eliminate bgn minus q l = .ok l') : ∀ s, s ∈ l' → P s := by
  induction q generalizing l with
  | nil =>
      obtain rfl := Except.ok.inj h
      exact hl
  | cons s q ih =>
      rw [eliminate] at h
      cases hs : minus s with
      | error e =>
          rw [hs] at h
          cases h
      | ok v =>
          rw [hs] at h
          refine ih ?_ h
          have hv := hq s v hs
          clear hs h
          induction v generalizing l with
          | nil => exact hl
          | cons p v ihv =>
              obtain ⟨hp, hv⟩ := List.forall_mem_cons.1 hv
              exact ihv (forall_insert hp hl) hv

/-- What holds of the parts that `minus` leaves holds of the new map. -/
theorem forall_overwrite (hq : ∀ s v, minus s = .ok v → ∀ p, p ∈ v → P p) (ha : P a)
    (hl : ∀ s, s ∈ l → P s)
    (h : overwrite bgn fin minus a l = .ok l') : ∀ s, s ∈ l' → P s := by
  have hpost : ∀ s, s ∈ (searchFrom bgn l (bgn a)).1 ∨ s ∈ (searchFrom bgn l (bgn a)).2 → P s := by
    intro s hs
    have hpre : ∀ s, s ∈ before bgn (bgn a) l → P s :=
      fun s hs => hl s ((List.takeWhile_sublist _).subset hs)
    have hlast : ∀ s, s ∈ (before bgn (bgn a) l).getLast?.toList → P s := fun s hs =>
      hpre s (List.mem_of_getLast? (Option.mem_toList.1 hs))
    have hlow : ∀ s, s ∈ lowerBound bgn (bgn a) l → P s :=
      fun s hs => hl s ((List.dropWhile_sublist _).subset hs)
    rw [searchFrom] at hs
    split at hs
    next => exact hs.elim (fun hs => hpre s (List.mem_of_mem_dropLast hs)) (hlast s)
    next t post ht =>
      rw [ht] at hlow
      split_ifs at hs
      · rcases hs with hs | hs
        · exact hpre s (List.mem_of_mem_dropLast hs)
        · exact (List.mem_append.1 hs).elim (hlast s) (hlow s)
      · exact hs.elim (hpre s) (hlow s)
  have hkept : ∀ post : List α, ∀ s, s ∈ (takeOverlapped bgn fin a post).1 → s ∈ post := by
    intro post
    induction post with
    | nil => exact fun s hs => hs
    | cons t post ih =>
        intro s hs
        rw [takeOverlapped] at hs
        split_ifs at hs
        · exact List.mem_cons_of_mem t (ih s hs)
        · exact (List.mem_cons.1 hs).elim (fun hs => hs ▸ List.mem_cons_self) fun hs =>
            List.mem_cons_of_mem t (ih s hs)
        · exact hs
  rw [overwrite] at h
  dsimp only at h
  cases he : eliminate bgn minus (takeOverlapped bgn fin a (searchFrom bgn l (bgn a)).2).2
      ((searchFrom bgn l (bgn a)).1 ++ (takeOverlapped bgn fin a (searchFrom bgn l (bgn a)).2).1) with
  | error e =>
      rw [he] at h
      cases h
  | ok map =>
      rw [he] at h
      obtain rfl := Except.ok.inj h
      refine forall_insert ha (forall_eliminate hq (fun s hs => ?_) he)
      exact (List.mem_append.1 hs).elim (fun hs => hpost s (.inl hs)) fun hs =>
        hpost s (.inr (hkept _ s hs))

end Forall

end WalbTools.RangeMap
