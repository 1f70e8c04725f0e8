import Mathlib
import WalbTools.KeyedList
import WalbTools.Meta

namespace WalbTools.GidRangeManager

open Meta

/-- A piece of the gid axis with the iterators of the diffs that cover it. An
iterator is the identity of a multimap node. -/
structure GidRange where
  gidB : Nat
  gidE : Nat
  its : List Nat
  deriving DecidableEq

def GidRange.split (r : GidRange) (gid : Nat) : List GidRange :=
  [{ r with gidE := gid }, { r with gidB := gid }]

/-- `GidRangeManager::map_`: ranges under the key `gidE`. -/
abbrev RangeMap := List (Nat × GidRange)

def getRange (m : RangeMap) (gidB gidE : Nat) : List GidRange × RangeMap :=
  let hit := KeyedList.lowerBound Prod.fst ((gidB + 1) % u64) m
  ((hit.takeWhile (fun p => decide (p.2.gidB < gidE))).map Prod.snd,
    KeyedList.before Prod.fst ((gidB + 1) % u64) m ++
      hit.dropWhile (fun p => decide (p.2.gidB < gidE)))

def putRange (m : RangeMap) (rngL : List GidRange) : RangeMap :=
  rngL.foldl (fun m rng => KeyedList.insert Prod.fst (rng.gidE, rng) m) m

def splitFront (gid : Nat) : List GidRange → List GidRange
  | [] => []
  | r :: l => if r.gidB < gid then r.split gid ++ l else r :: l

def splitBack (gid : Nat) : List GidRange → List GidRange
  | [] => []
  | [r] => if r.gidE > gid then r.split gid else [r]
  | r :: s :: l => r :: splitBack gid (s :: l)

/-- The loop of `merge`. An inserted range makes the next iteration find
`it->gidB == rng.gidB`; that iteration is folded into the last branch. -/
def mergeLoop (rng : GidRange) : List GidRange → List GidRange
  | [] => if rng.gidB < rng.gidE then [rng] else []
  | r :: l =>
      if ¬rng.gidB < rng.gidE then r :: l
      else if r.gidB = rng.gidB then
        { r with its := r.its ++ rng.its } :: mergeLoop { rng with gidB := r.gidE } l
      else if r.gidB < rng.gidB then r :: mergeLoop rng l
      else { rng with gidE := r.gidB } ::
        if r.gidB < rng.gidE then
          { r with its := r.its ++ rng.its } :: mergeLoop { rng with gidB := r.gidE } l
        else r :: l

def merge (rngL : List GidRange) (rng : GidRange) : List GidRange :=
  if rngL.isEmpty then [rng]
  else mergeLoop rng (splitBack rng.gidE (splitFront rng.gidB rngL))

def add (m : RangeMap) (it : Nat) (d : MetaDiff) : RangeMap :=
  let rng : GidRange := ⟨d.snapB.gidB, d.snapE.gidB, [it]⟩
  let got := getRange m rng.gidB rng.gidE
  putRange got.2 (merge got.1 rng)

def removeLoop (it gidE : Nat) : Nat → RangeMap → RangeMap
  | _, [] => []
  | gid, p :: m =>
      if gid ≤ gidE then
        let its := p.2.its.filter (fun i => decide (i ≠ it))
        let rest := removeLoop it gidE ((p.2.gidE + 1) % u64) m
        if its = [] then rest else (p.1, { p.2 with its := its }) :: rest
      else p :: m

def remove (m : RangeMap) (it : Nat) (d : MetaDiff) : RangeMap :=
  let gid := (d.snapB.gidB + 1) % u64
  KeyedList.before Prod.fst gid m ++
    removeLoop it d.snapE.gidB gid (KeyedList.lowerBound Prod.fst gid m)

def search (m : RangeMap) (gid : Nat) : List Nat :=
  match KeyedList.lowerBound Prod.fst ((gid + 1) % u64) m with
  | [] => []
  | p :: _ => if p.2.gidB > gid then [] else p.2.its

def view (l : List GidRange) (x : Nat) : List Nat :=
  l.flatMap (fun r => if r.gidB ≤ x ∧ x < r.gidE then r.its else [])

structure GidRange.Valid (r : GidRange) : Prop where
  lt : r.gidB < r.gidE
  fits : r.gidE < u64
  its : r.its ≠ []

structure Ordered (l : List GidRange) : Prop where
  pairwise : l.Pairwise (fun r s => r.gidE ≤ s.gidB)
  valid : ∀ r, r ∈ l → r.Valid

def ranges (m : RangeMap) : List GidRange := m.map Prod.snd

/-- The ranges are disjoint, in order, and each is stored under its end. -/
structure WF (m : RangeMap) : Prop where
  ordered : Ordered (ranges m)
  keyed : ∀ p, p ∈ m → p.1 = p.2.gidE

@[simp] theorem view_nil (x : Nat) : view [] x = [] := rfl

@[simp] theorem view_cons (r : GidRange) (l : List GidRange) (x : Nat) :
    view (r :: l) x = (if r.gidB ≤ x ∧ x < r.gidE then r.its else []) ++ view l x := by
  simp [view]

@[simp] theorem view_append (l l' : List GidRange) (x : Nat) :
    view (l ++ l') x = view l x ++ view l' x := by
  simp [view]

theorem view_perm {l l' : List GidRange} (h : l.Perm l') (x : Nat) :
    (view l x).Perm (view l' x) := List.Perm.flatMap_right _ h

theorem mem_view {l : List GidRange} {x i : Nat} :
    i ∈ view l x ↔ ∃ r, r ∈ l ∧ (r.gidB ≤ x ∧ x < r.gidE) ∧ i ∈ r.its := by
  simp only [view, List.mem_flatMap]
  refine exists_congr fun r => and_congr_right fun _ => ?_
  split_ifs with h <;> simp [h]

theorem view_eq_nil {l : List GidRange} {x : Nat} (h : ∀ r, r ∈ l → ¬(r.gidB ≤ x ∧ x < r.gidE)) :
    view l x = [] := by
  rw [List.eq_nil_iff_forall_not_mem]
  intro i hi
  obtain ⟨r, hr, hx, -⟩ := mem_view.1 hi
  exact h r hr hx

theorem Ordered.sublist {l l' : List GidRange} (h : Ordered l) (hs : l'.Sublist l) : Ordered l' :=
  ⟨h.pairwise.sublist hs, fun r hr => h.valid r (hs.subset hr)⟩

theorem WF.sublist {m m' : RangeMap} (h : WF m) (hs : m'.Sublist m) : WF m' :=
  ⟨h.ordered.sublist (hs.map Prod.snd), fun p hp => h.keyed p (hs.subset hp)⟩

theorem WF.valid {m : RangeMap} (h : WF m) {p : Nat × GidRange} (hp : p ∈ m) : p.2.Valid :=
  h.ordered.valid p.2 (List.mem_map_of_mem hp)

theorem WF.pairwise {m : RangeMap} (h : WF m) : m.Pairwise (fun p q => p.2.gidE ≤ q.2.gidB) :=
  List.pairwise_map.1 h.ordered.pairwise

theorem WF.sorted {m : RangeMap} (h : WF m) : KeyedList.Sorted Prod.fst m := by
  refine h.pairwise.imp_of_mem fun {p q} hp hq hpq => ?_
  rw [h.keyed p hp, h.keyed q hq]
  exact hpq.trans (h.valid hq).lt.le

theorem wf_nil : WF [] := ⟨⟨List.Pairwise.nil, by simp [ranges]⟩, by simp⟩

theorem search_eq_view {m : RangeMap} (h : WF m) {gid : Nat} (hg : gid + 1 < u64) :
    search m gid = view (ranges m) gid := by
  have hsplit := KeyedList.before_append_lowerBound Prod.fst (gid + 1) m
  have hbefore : view (ranges (KeyedList.before Prod.fst (gid + 1) m)) gid = [] := by
    refine view_eq_nil fun r hr hx => ?_
    obtain ⟨p, hp, rfl⟩ := List.mem_map.1 hr
    obtain ⟨hp, hlt⟩ := (KeyedList.mem_before h.sorted).1 hp
    rw [h.keyed p hp] at hlt
    omega
  have hview : view (ranges m) gid =
      view (ranges (KeyedList.lowerBound Prod.fst (gid + 1) m)) gid := by
    rw [← hsplit, ranges, List.map_append, view_append]
    rw [ranges] at hbefore
    rw [hbefore, List.nil_append, hsplit, ranges]
  rw [hview, search, Nat.mod_eq_of_lt hg]
  have hl : WF (KeyedList.lowerBound Prod.fst (gid + 1) m) := h.sublist (List.dropWhile_sublist _)
  have hmem : ∀ p, p ∈ KeyedList.lowerBound Prod.fst (gid + 1) m → gid < p.2.gidE := by
    intro p hp
    have hle := ((KeyedList.mem_lowerBound h.sorted).1 hp).2
    rw [hl.keyed p hp] at hle
    omega
  generalize KeyedList.lowerBound Prod.fst (gid + 1) m = l at hl hmem
  cases l with
  | nil => rfl
  | cons p l =>
      have hrest := (List.pairwise_cons.1 hl.pairwise).1
      have hp := hmem p List.mem_cons_self
      have hnil : view (ranges l) gid = [] := by
        refine view_eq_nil fun r hr hx => ?_
        obtain ⟨q, hq, rfl⟩ := List.mem_map.1 hr
        have hle := hrest q hq
        omega
      have hcons : ranges (p :: l) = p.2 :: ranges l := rfl
      rw [hcons, view_cons, hnil, List.append_nil]
      change (if p.2.gidB > gid then [] else p.2.its) = _
      by_cases hgt : p.2.gidB > gid
      · rw [if_pos hgt, if_neg (by omega)]
      · rw [if_neg hgt, if_pos ⟨by omega, hp⟩]

theorem count_view_cons (r : GidRange) (l : List GidRange) (x i : Nat) :
    (view (r :: l) x).count i =
      (if r.gidB ≤ x ∧ x < r.gidE then r.its.count i else 0) + (view l x).count i := by
  rw [view_cons, List.count_append]
  split_ifs <;> simp

/-- Cutting a range at an inner gid changes neither the order nor the view. -/
theorem ordered_split {l l' : List GidRange} {r : GidRange} {gid : Nat}
    (h : Ordered (l ++ r :: l')) (hB : r.gidB < gid) (hE : gid < r.gidE) :
    Ordered (l ++ (r.split gid ++ l')) := by
  obtain ⟨hp, hv⟩ := h
  obtain ⟨hl, hr, hlr⟩ := List.pairwise_append.1 hp
  obtain ⟨hrl, hl'⟩ := List.pairwise_cons.1 hr
  have hrv := hv r (by simp)
  refine ⟨List.pairwise_append.2 ⟨hl, ?_, fun s hs t ht => ?_⟩, fun s hs => ?_⟩
  · refine List.pairwise_cons.2 ⟨fun s hs => ?_, List.pairwise_cons.2 ⟨hrl, hl'⟩⟩
    rcases List.mem_cons.1 hs with rfl | hs
    · exact le_rfl
    · exact hE.le.trans (hrl s hs)
  · have hsr := hlr s hs r List.mem_cons_self
    simp only [GidRange.split, List.cons_append, List.nil_append, List.mem_cons] at ht
    rcases ht with rfl | rfl | ht
    · exact hsr
    · exact hsr.trans hB.le
    · exact hlr s hs t (List.mem_cons_of_mem _ ht)
  · simp only [GidRange.split, List.cons_append, List.nil_append, List.mem_append,
      List.mem_cons] at hs
    rcases hs with hs | rfl | rfl | hs
    · exact hv s (by simp [hs])
    · exact ⟨hB, hE.trans hrv.fits, hrv.its⟩
    · exact ⟨hE, hrv.fits, hrv.its⟩
    · exact hv s (by simp [hs])

theorem view_split {r : GidRange} {gid : Nat} (hB : r.gidB < gid) (hE : gid < r.gidE) (x : Nat) :
    view (r.split gid) x = view [r] x := by
  simp only [GidRange.split, view_cons, view_nil, List.append_nil]
  split_ifs <;> first | omega | simp

theorem splitFront_cases {l : List GidRange} (h : Ordered l) (gid : Nat) :
    splitFront gid l = l ∧ (∀ r, r ∈ l → gid ≤ r.gidB) ∨
      ∃ r l', l = r :: l' ∧ r.gidB < gid ∧ splitFront gid l = r.split gid ++ l' := by
  cases l with
  | nil => exact .inl ⟨rfl, by simp⟩
  | cons r l =>
      by_cases hB : r.gidB < gid
      · exact .inr ⟨r, l, rfl, hB, by rw [splitFront, if_pos hB]⟩
      · refine .inl ⟨by rw [splitFront, if_neg hB], fun s hs => ?_⟩
        rcases List.mem_cons.1 hs with rfl | hs
        · omega
        · have hrs := (List.pairwise_cons.1 h.pairwise).1 s hs
          have hlt := (h.valid r List.mem_cons_self).lt
          omega

theorem splitBack_cases {l : List GidRange} (h : Ordered l) (gid : Nat) :
    splitBack gid l = l ∧ (∀ r, r ∈ l → r.gidE ≤ gid) ∨
      ∃ l' r, l = l' ++ [r] ∧ gid < r.gidE ∧ splitBack gid l = l' ++ r.split gid := by
  induction l with
  | nil => exact .inl ⟨rfl, by simp⟩
  | cons r l ih =>
      cases l with
      | nil =>
          by_cases hE : r.gidE > gid
          · exact .inr ⟨[], r, rfl, hE, by rw [splitBack, if_pos hE]; rfl⟩
          · exact .inl ⟨by rw [splitBack, if_neg hE], by simpa using hE⟩
      | cons s l =>
          rcases ih (h.sublist (List.sublist_cons_self _ _)) with ⟨he, hle⟩ | ⟨l', t, hl, ht, he⟩
          · refine .inl ⟨by rw [splitBack, he], fun t ht => ?_⟩
            rcases List.mem_cons.1 ht with rfl | ht
            · have hts := (List.pairwise_cons.1 h.pairwise).1 s List.mem_cons_self
              have hlt := (h.valid s (by simp)).lt
              have hs := hle s List.mem_cons_self
              omega
            · exact hle t ht
          · exact .inr ⟨r :: l', t, by rw [hl, List.cons_append], ht,
              by rw [splitBack, he, List.cons_append]⟩

def Within (lo hi : Nat) (l : List GidRange) : Prop := ∀ r, r ∈ l → lo ≤ r.gidB ∧ r.gidE ≤ hi

def Cut (rng : GidRange) (l : List GidRange) : Prop :=
  ∀ r, r ∈ l → (r.gidE ≤ rng.gidB ∨ rng.gidB ≤ r.gidB) ∧
    (r.gidE ≤ rng.gidE ∨ rng.gidE ≤ r.gidB) ∧ r.gidB ≤ rng.gidE

theorem cutRange_spec {l : List GidRange} (h : Ordered l) {rng : GidRange}
    (hlt : rng.gidB < rng.gidE) (hB : ∀ r, r ∈ l → rng.gidB < r.gidE)
    (hE : ∀ r, r ∈ l → r.gidB < rng.gidE) :
    Ordered (splitBack rng.gidE (splitFront rng.gidB l)) ∧
      Cut rng (splitBack rng.gidE (splitFront rng.gidB l)) ∧
      (∀ x, view (splitBack rng.gidE (splitFront rng.gidB l)) x = view l x) ∧
      ∀ lo hi, Within lo hi l → Within lo hi (splitBack rng.gidE (splitFront rng.gidB l)) := by
  -- the front cut
  have hfront : Ordered (splitFront rng.gidB l) ∧
      (∀ r, r ∈ splitFront rng.gidB l → (r.gidE ≤ rng.gidB ∨ rng.gidB ≤ r.gidB) ∧
        r.gidB < rng.gidE) ∧
      (∀ x, view (splitFront rng.gidB l) x = view l x) ∧
      ∀ lo hi, Within lo hi l → Within lo hi (splitFront rng.gidB l) := by
    rcases splitFront_cases h rng.gidB with ⟨he, hge⟩ | ⟨r, l', rfl, hr, he⟩
    · rw [he]
      exact ⟨h, fun r hr => ⟨.inr (hge r hr), hE r hr⟩, fun x => rfl, fun lo hi hw => hw⟩
    · have hrE := hB r List.mem_cons_self
      have hrest := (List.pairwise_cons.1 h.pairwise).1
      rw [he]
      refine ⟨ordered_split (l := []) h hr hrE, fun s hs => ?_, fun x => ?_, fun lo hi hw s hs => ?_⟩
      · simp only [GidRange.split, List.cons_append, List.nil_append, List.mem_cons] at hs
        rcases hs with rfl | rfl | hs
        · exact ⟨.inl le_rfl, hE r List.mem_cons_self⟩
        · exact ⟨.inr le_rfl, hlt⟩
        · exact ⟨.inr (hrE.le.trans (hrest s hs)), hE s (List.mem_cons_of_mem _ hs)⟩
      · rw [view_append, view_split hr hrE, ← view_append, List.singleton_append]
      · have hwr := hw r List.mem_cons_self
        simp only [GidRange.split, List.cons_append, List.nil_append, List.mem_cons] at hs
        rcases hs with rfl | rfl | hs
        · exact ⟨hwr.1, hrE.le.trans hwr.2⟩
        · exact ⟨hwr.1.trans hr.le, hwr.2⟩
        · exact hw s (List.mem_cons_of_mem _ hs)
  obtain ⟨ho, hcut, hview, hwithin⟩ := hfront
  rcases splitBack_cases ho rng.gidE with ⟨he, hle⟩ | ⟨l', r, hl, hr, he⟩
  · rw [he]
    exact ⟨ho, fun r hr => ⟨(hcut r hr).1, .inl (hle r hr), (hcut r hr).2.le⟩, hview, hwithin⟩
  · have hmem : ∀ s, s ∈ l' ++ [r] → s ∈ splitFront rng.gidB l := fun s hs => hl ▸ hs
    have hcr := hcut r (hmem r (by simp))
    have hrl := (List.pairwise_append.1 (hl ▸ ho.pairwise)).2.2
    rw [he]
    refine ⟨?_, fun s hs => ?_, fun x => ?_, fun lo hi hw s hs => ?_⟩
    · have hord : Ordered (l' ++ r :: []) := hl ▸ ho
      simpa using ordered_split hord hcr.2 hr
    · simp only [GidRange.split, List.mem_append, List.mem_cons, List.not_mem_nil, or_false] at hs
      rcases hs with hs | rfl | rfl
      · have hsr := hrl s hs r List.mem_cons_self
        have hcs := hcut s (hmem s (by simp [hs]))
        exact ⟨hcs.1, .inl (hsr.trans hcr.2.le), hcs.2.le⟩
      · refine ⟨?_, .inl le_rfl, hcr.2.le⟩
        rcases hcr.1 with hle | hle
        · omega
        · exact .inr hle
      · exact ⟨.inr hlt.le, .inr le_rfl, le_rfl⟩
    · rw [view_append, view_split hcr.2 hr, ← view_append, ← hl, hview]
    · have hwr := hwithin lo hi hw r (hmem r (by simp))
      simp only [GidRange.split, List.mem_append, List.mem_cons, List.not_mem_nil, or_false] at hs
      rcases hs with hs | rfl | rfl
      · exact hwithin lo hi hw s (hmem s (by simp [hs]))
      · exact ⟨hwr.1, hr.le.trans hwr.2⟩
      · exact ⟨hwr.1.trans hcr.2.le, hwr.2⟩

theorem Ordered.cons {r : GidRange} {l : List GidRange} (hr : r.Valid) (ho : Ordered l)
    (hle : ∀ s, s ∈ l → r.gidE ≤ s.gidB) : Ordered (r :: l) :=
  ⟨List.pairwise_cons.2 ⟨hle, ho.pairwise⟩, List.forall_mem_cons.2 ⟨hr, ho.valid⟩⟩

theorem Ordered.within {r : GidRange} {l : List GidRange} (ho : Ordered (r :: l)) :
    Within r.gidE u64 l := fun s hs =>
  ⟨(List.pairwise_cons.1 ho.pairwise).1 s hs, (ho.valid s (List.mem_cons_of_mem r hs)).fits.le⟩

/-- What the ranges of `l` become when the iterators of `rng` are added. -/
structure Merged (rng : GidRange) (l out : List GidRange) : Prop where
  within : ∀ lo hi, Within lo hi l → lo ≤ rng.gidB → rng.gidE ≤ hi → Within lo hi out
  ordered : Ordered out
  count : ∀ x i, (view out x).count i = (view (rng :: l) x).count i

section Merged

variable {rng r : GidRange} {l out : List GidRange}

theorem merged_done (ho : Ordered l) (hle : rng.gidE ≤ rng.gidB) : Merged rng l l :=
  ⟨fun _ _ hw _ _ => hw, ho, fun x i => by rw [count_view_cons rng, if_neg (by omega), Nat.zero_add]⟩

theorem merged_nil (hr : rng.Valid) : Merged rng [] [rng] where
  within lo hi _ hlo hhi := by
    intro r hr
    rw [List.mem_singleton.1 hr]
    exact ⟨hlo, hhi⟩
  ordered := .cons hr ⟨.nil, nofun⟩ nofun
  count _ _ := rfl

theorem Merged.join (h : Merged { rng with gidB := r.gidE } l out) (ho : Ordered (r :: l))
    (heq : r.gidB = rng.gidB)
    (hrE : r.gidE ≤ rng.gidE) (hfits : rng.gidE < u64) :
    Merged rng (r :: l) ({ r with its := r.its ++ rng.its } :: out) where
  within lo hi hw _ hhi := by
    have hwr := hw r List.mem_cons_self
    refine List.forall_mem_cons.2 ⟨hwr, h.within lo hi (fun t ht =>
      hw t (List.mem_cons_of_mem _ ht)) ?_ hhi⟩
    exact hwr.1.trans (ho.valid r List.mem_cons_self).lt.le
  ordered := by
    have hr := ho.valid r List.mem_cons_self
    refine .cons ⟨hr.lt, hr.fits, by simp [hr.its]⟩ h.ordered fun s hs => ?_
    exact (h.within _ _ ho.within le_rfl hfits.le s hs).1
  count x i := by
    have hcount := h.count x i
    have hrlt := (ho.valid r List.mem_cons_self).lt
    simp only [count_view_cons, List.count_append] at hcount ⊢
    split_ifs at hcount ⊢ <;> omega

theorem Merged.skip (h : Merged rng l out) (ho : Ordered (r :: l)) (hrE : r.gidE ≤ rng.gidB)
    (hfits : rng.gidE < u64) :
    Merged rng (r :: l) (r :: out) where
  within lo hi hw hlo hhi :=
    List.forall_mem_cons.2 ⟨hw r List.mem_cons_self, h.within lo hi
      (fun t ht => hw t (List.mem_cons_of_mem _ ht)) hlo hhi⟩
  ordered := .cons (ho.valid r List.mem_cons_self) h.ordered fun s hs =>
    (h.within _ _ ho.within hrE hfits.le s hs).1
  count x i := by
    have hcount := h.count x i
    simp only [count_view_cons] at hcount ⊢
    omega

theorem Merged.gap (h : Merged { rng with gidB := r.gidB } (r :: l) out) (ho : Ordered (r :: l))
    (hrng : rng.Valid)
    (hlt : rng.gidB < r.gidB) (hle : r.gidB ≤ rng.gidE) :
    Merged rng (r :: l) ({ rng with gidE := r.gidB } :: out) where
  within lo hi hw hlo hhi := by
    have hwr := hw r List.mem_cons_self
    have hr := ho.valid r List.mem_cons_self
    exact List.forall_mem_cons.2 ⟨⟨hlo, hr.lt.le.trans hwr.2⟩, h.within lo hi hw hwr.1 hhi⟩
  ordered := by
    have hr := ho.valid r List.mem_cons_self
    have hw : Within r.gidB u64 (r :: l) := List.forall_mem_cons.2 ⟨⟨le_rfl, hr.fits.le⟩, fun s hs =>
      ⟨hr.lt.le.trans (ho.within s hs).1, (ho.within s hs).2⟩⟩
    exact .cons ⟨hlt, hr.lt.trans hr.fits, hrng.its⟩ h.ordered fun s hs =>
      (h.within _ _ hw le_rfl hrng.fits.le s hs).1
  count x i := by
    have hcount := h.count x i
    simp only [count_view_cons] at hcount ⊢
    split_ifs at hcount ⊢ <;> omega

end Merged

theorem mergeLoop_spec (l : List GidRange) (rng : GidRange) (ho : Ordered l) (hc : Cut rng l)
    (hle : rng.gidB ≤ rng.gidE) (hfits : rng.gidE < u64) (hits : rng.its ≠ []) :
    Merged rng l (mergeLoop rng l) := by
  induction l generalizing rng with
  | nil =>
      rw [mergeLoop]
      split_ifs with hlt
      · exact merged_nil ⟨hlt, hfits, hits⟩
      · exact merged_done ho (not_lt.1 hlt)
  | cons r l ih =>
      have hcr := hc r List.mem_cons_self
      have ho' := ho.sublist (List.sublist_cons_self r l)
      have hc' := fun s hs => hc s (List.mem_cons_of_mem r hs)
      -- The tail is met with the part of `rng` after `r`.
      have hnext (hrE : r.gidE ≤ rng.gidE) : Merged { rng with gidB := r.gidE } l (mergeLoop
          { rng with gidB := r.gidE } l) :=
        ih { rng with gidB := r.gidE } ho' (fun s hs => ⟨.inr (ho.within s hs).1, (hc' s hs).2⟩) hrE
          hfits hits
      have hrE (hlt : r.gidB < rng.gidE) : r.gidE ≤ rng.gidE := hcr.2.1.resolve_right (by omega)
      rw [mergeLoop]
      split_ifs with hlt heq hskip hlast
      · exact (hnext (hrE (by omega))).join ho heq (hrE (by omega)) hfits
      · exact (ih rng ho' hc' hle hfits hits).skip ho (hcr.1.resolve_right (by omega)) hfits
      · have hjoin : Merged { rng with gidB := r.gidB } (r :: l)
            ({ r with its := r.its ++ rng.its } :: mergeLoop { rng with gidB := r.gidE } l) :=
          Merged.join (hnext (hrE hlast)) ho rfl (hrE hlast) hfits
        exact hjoin.gap ho ⟨hlt, hfits, hits⟩ (by omega) hlast.le
      · have hend : r.gidB = rng.gidE := by
          have h := hcr.2.2
          omega
        exact (merged_done ho hend.ge).gap ho ⟨hlt, hfits, hits⟩ (by omega) hend.le
      · exact merged_done ho (not_lt.1 hlt)

theorem merge_spec {l : List GidRange} (ho : Ordered l) {rng : GidRange} (hr : rng.Valid)
    (hB : ∀ r, r ∈ l → rng.gidB < r.gidE) (hE : ∀ r, r ∈ l → r.gidB < rng.gidE) :
    (∀ lo hi, Within lo hi l → lo ≤ rng.gidB → rng.gidE ≤ hi → Within lo hi (merge l rng)) ∧
      Ordered (merge l rng) ∧
      ∀ x, (view (merge l rng) x).Perm (view (rng :: l) x) := by
  cases l with
  | nil =>
      refine ⟨fun lo hi hw hlo hhi r hr => ?_, ⟨List.pairwise_singleton _ _, fun r hr' => ?_⟩,
        fun x => List.Perm.refl _⟩
      · rw [List.mem_singleton.1 hr]
        exact ⟨hlo, hhi⟩
      · rw [List.mem_singleton.1 hr']
        exact hr
  | cons r l =>
      obtain ⟨hcut, hc, hview, hwithin⟩ := cutRange_spec ho hr.lt hB hE
      obtain ⟨hw, hord, hcount⟩ := mergeLoop_spec _ rng hcut hc hr.lt.le hr.fits hr.its
      refine ⟨fun lo hi hlh => hw lo hi (hwithin lo hi hlh), hord, fun x => ?_⟩
      rw [List.perm_iff_count]
      intro i
      rw [count_view_cons, ← hview x, ← count_view_cons]
      exact hcount x i

theorem WF.sorted_gidB {m : RangeMap} (h : WF m) :
    KeyedList.Sorted (fun p : Nat × GidRange => p.2.gidB) m :=
  h.pairwise.imp_of_mem fun hp _ hpq => (h.valid hp).lt.le.trans hpq

theorem getRange_spec {m : RangeMap} (h : WF m) {gidB gidE : Nat} (hB : gidB + 1 < u64) :
    WF (getRange m gidB gidE).2 ∧ Ordered (getRange m gidB gidE).1 ∧
      (ranges m).Perm ((getRange m gidB gidE).1 ++ ranges (getRange m gidB gidE).2) ∧
      (∀ r, r ∈ (getRange m gidB gidE).1 → gidB < r.gidE ∧ r.gidB < gidE) ∧
      ∀ q, q ∈ ranges (getRange m gidB gidE).2 →
        (q.gidE ≤ gidB ∧ ∀ r, r ∈ (getRange m gidB gidE).1 → q.gidE ≤ r.gidB) ∨
        (gidE ≤ q.gidB ∧ ∀ r, r ∈ (getRange m gidB gidE).1 → r.gidE ≤ q.gidB) := by
  set pre := KeyedList.before Prod.fst (gidB + 1) m with hpre
  set hit := KeyedList.lowerBound Prod.fst (gidB + 1) m with hhit
  set mid := KeyedList.before (fun p : Nat × GidRange => p.2.gidB) gidE hit with hmid
  set post := KeyedList.lowerBound (fun p : Nat × GidRange => p.2.gidB) gidE hit with hpost
  have hget : getRange m gidB gidE = (ranges mid, pre ++ post) := by
    rw [getRange, Nat.mod_eq_of_lt hB]
    rfl
  have hsplit : m = pre ++ (mid ++ post) := by
    rw [hmid, hpost, KeyedList.before_append_lowerBound, hpre, hhit,
      KeyedList.before_append_lowerBound]
  have hhitwf : WF hit := h.sublist (List.dropWhile_sublist _)
  have hp := h.pairwise
  rw [hsplit] at hp
  obtain ⟨-, hmp, hprem⟩ := List.pairwise_append.1 hp
  obtain ⟨-, -, hmidpost⟩ := List.pairwise_append.1 hmp
  rw [hget]
  refine ⟨?_, ?_, ?_, ?_, ?_⟩
  · refine h.sublist ?_
    rw [hsplit]
    exact (List.Sublist.refl pre).append (List.sublist_append_right mid post)
  · exact (hhitwf.sublist (List.takeWhile_sublist _)).ordered
  · have hperm : (pre ++ (mid ++ post)).Perm (mid ++ (pre ++ post)) := by
      rw [← List.append_assoc, ← List.append_assoc]
      exact List.perm_append_comm.append_right post
    rw [← hsplit] at hperm
    simpa [ranges] using hperm.map Prod.snd
  · intro r hr
    obtain ⟨p, hp, rfl⟩ := List.mem_map.1 hr
    obtain ⟨hph, hlt⟩ := (KeyedList.mem_before hhitwf.sorted_gidB).1 hp
    have hle := ((KeyedList.mem_lowerBound h.sorted).1 hph).2
    rw [hhitwf.keyed p hph] at hle
    exact ⟨by omega, hlt⟩
  · intro q hq
    obtain ⟨p, hp, rfl⟩ := List.mem_map.1 hq
    rcases List.mem_append.1 hp with hp | hp
    · obtain ⟨hpm, hlt⟩ := (KeyedList.mem_before h.sorted).1 hp
      rw [h.keyed p hpm] at hlt
      refine .inl ⟨by omega, fun r hr => ?_⟩
      obtain ⟨t, ht, rfl⟩ := List.mem_map.1 hr
      exact hprem p hp t (List.mem_append_left _ ht)
    · refine .inr ⟨((KeyedList.mem_lowerBound hhitwf.sorted_gidB).1 hp).2, fun r hr => ?_⟩
      obtain ⟨t, ht, rfl⟩ := List.mem_map.1 hr
      exact hmidpost t ht p hp

def Apart (r s : GidRange) : Prop := r.gidE ≤ s.gidB ∨ s.gidE ≤ r.gidB

theorem Apart.symm {r s : GidRange} (h : Apart r s) : Apart s r := Or.symm h

theorem wf_of_apart {m : RangeMap} (hs : KeyedList.Sorted Prod.fst m)
    (hk : ∀ p, p ∈ m → p.1 = p.2.gidE) (hv : ∀ p, p ∈ m → p.2.Valid)
    (ha : m.Pairwise (fun p q => Apart p.2 q.2)) : WF m := by
  refine ⟨⟨List.pairwise_map.2 ?_, fun r hr => ?_⟩, hk⟩
  · refine (hs.and ha).imp_of_mem fun {p q} hp hq hpq => ?_
    obtain ⟨hle, hpq⟩ := hpq
    rw [hk p hp, hk q hq] at hle
    have hlt := (hv p hp).lt
    rcases hpq with h | h
    · exact h
    · omega
  · obtain ⟨p, hp, rfl⟩ := List.mem_map.1 hr
    exact hv p hp

theorem insert_spec {m : RangeMap} (h : WF m) {r : GidRange} (hr : r.Valid)
    (ha : ∀ q, q ∈ ranges m → Apart r q) :
    WF (KeyedList.insert Prod.fst (r.gidE, r) m) ∧
      (ranges (KeyedList.insert Prod.fst (r.gidE, r) m)).Perm (r :: ranges m) := by
  have ha' : ∀ q, q ∈ m → Apart r q.2 := fun q hq => ha q.2 (List.mem_map_of_mem hq)
  have hk : ∀ q, q ∈ m → q.1 ≠ (r.gidE, r).1 := by
    intro q hq he
    have he' : q.2.gidE = r.gidE := (h.keyed q hq).symm.trans he
    have hq' := (h.valid hq).lt
    have hr' := hr.lt
    rcases ha' q hq with hle | hle <;> omega
  have hperm : (KeyedList.insert Prod.fst (r.gidE, r) m).Perm ((r.gidE, r) :: m) :=
    KeyedList.insert_perm (r.gidE, r) hk
  have hmem : ∀ q, q ∈ KeyedList.insert Prod.fst (r.gidE, r) m → q = (r.gidE, r) ∨ q ∈ m :=
    fun q hq => List.mem_cons.1 (hperm.mem_iff.1 hq)
  refine ⟨wf_of_apart (h.sorted.insert _ hk) (fun q hq => ?_) (fun q hq => ?_)
    ((hperm.pairwise_iff (fun {p q} => Apart.symm)).2
      (List.pairwise_cons.2 ⟨ha', h.pairwise.imp Or.inl⟩)), hperm.map Prod.snd⟩
  · rcases hmem q hq with rfl | hq
    · rfl
    · exact h.keyed q hq
  · rcases hmem q hq with rfl | hq
    · exact hr
    · exact h.valid hq

theorem putRange_spec {l : List GidRange} (ho : Ordered l) {m : RangeMap} (h : WF m)
    (ha : ∀ r, r ∈ l → ∀ q, q ∈ ranges m → Apart r q) :
    WF (putRange m l) ∧ (ranges (putRange m l)).Perm (l ++ ranges m) := by
  induction l generalizing m with
  | nil => exact ⟨h, List.Perm.refl _⟩
  | cons r l ih =>
      obtain ⟨hrl, -⟩ := List.pairwise_cons.1 ho.pairwise
      obtain ⟨hw, hperm⟩ := insert_spec h (ho.valid r List.mem_cons_self) (ha r List.mem_cons_self)
      obtain ⟨hw', hperm'⟩ := ih (ho.sublist (List.sublist_cons_self r l)) hw
        (by
          intro s hs q hq
          rcases List.mem_cons.1 (hperm.mem_iff.1 hq) with rfl | hq
          · exact .inr (hrl s hs)
          · exact ha s (List.mem_cons_of_mem _ hs) q hq)
      exact ⟨hw', hperm'.trans ((hperm.append_left l).trans List.perm_middle)⟩

/-- `add` records the new iterator at exactly the gids its diff covers. -/
theorem add_spec {m : RangeMap} (h : WF m) (it : Nat) {d : MetaDiff} (hd : d.Valid) :
    WF (add m it d) ∧ ∀ x, (view (ranges (add m it d)) x).Perm
      ((if d.snapB.gidB ≤ x ∧ x < d.snapE.gidB then [it] else []) ++ view (ranges m) x) := by
  have hlt := hd.progressB
  have hfits := hd.gidB_lt
  set rng : GidRange := ⟨d.snapB.gidB, d.snapE.gidB, [it]⟩ with hrng
  have hr : rng.Valid := ⟨hlt, hfits, by simp [hrng]⟩
  obtain ⟨hw, ho, hperm, hmeet, hrest⟩ :=
    @getRange_spec m h rng.gidB rng.gidE (lt_of_le_of_lt hlt hfits)
  obtain ⟨hwithin, hord, hview⟩ := merge_spec ho hr (fun r hr => (hmeet r hr).1)
    (fun r hr => (hmeet r hr).2)
  have hapart : ∀ r, r ∈ merge (getRange m rng.gidB rng.gidE).1 rng →
      ∀ q, q ∈ ranges (getRange m rng.gidB rng.gidE).2 → Apart r q := by
    intro r hr q hq
    rcases hrest q hq with ⟨hle, hall⟩ | ⟨hle, hall⟩
    · exact .inr (hwithin q.gidE u64 (fun s hs => ⟨hall s hs, (ho.valid s hs).fits.le⟩)
        hle hfits.le r hr).1
    · exact .inl (hwithin 0 q.gidB (fun s hs => ⟨Nat.zero_le _, hall s hs⟩)
        (Nat.zero_le _) hle r hr).2
  obtain ⟨hwf, hput⟩ := putRange_spec hord hw hapart
  refine ⟨hwf, fun x => ?_⟩
  have hmerged : (view (merge (getRange m rng.gidB rng.gidE).1 rng ++
      ranges (getRange m rng.gidB rng.gidE).2) x).Perm
      (view (rng :: ((getRange m rng.gidB rng.gidE).1 ++
        ranges (getRange m rng.gidB rng.gidE).2)) x) := by
    rw [view_append, ← List.cons_append, view_append]
    exact (hview x).append_right _
  have hback := (view_perm hperm x).symm.append_left
    (if rng.gidB ≤ x ∧ x < rng.gidE then rng.its else [])
  rw [← view_cons] at hback
  exact (view_perm hput x).trans (hmerged.trans hback)

def dropIt (it : Nat) (m : RangeMap) : RangeMap :=
  (m.map (fun p => (p.1, { p.2 with its := p.2.its.filter (fun i => decide (i ≠ it)) }))).filter
    (fun p => decide (p.2.its ≠ []))

theorem dropIt_cons (it : Nat) (p : Nat × GidRange) (m : RangeMap) :
    dropIt it (p :: m) =
      if p.2.its.filter (fun i => decide (i ≠ it)) = [] then dropIt it m
      else (p.1, { p.2 with its := p.2.its.filter (fun i => decide (i ≠ it)) }) :: dropIt it m := by
  rw [dropIt, List.map_cons, List.filter_cons]
  by_cases h : p.2.its.filter (fun i => decide (i ≠ it)) = []
  · rw [if_pos h, if_neg (by simpa using h), dropIt]
  · rw [if_neg h, if_pos (by simpa using h), dropIt]

theorem dropIt_append (it : Nat) (m m' : RangeMap) :
    dropIt it (m ++ m') = dropIt it m ++ dropIt it m' := by
  simp [dropIt]

theorem dropIt_eq_self {it : Nat} {m : RangeMap} (hv : ∀ p, p ∈ m → p.2.Valid)
    (hn : ∀ p, p ∈ m → it ∉ p.2.its) : dropIt it m = m := by
  induction m with
  | nil => rfl
  | cons p m ih =>
      have hself : p.2.its.filter (fun i => decide (i ≠ it)) = p.2.its := by
        rw [List.filter_eq_self]
        intro i hi
        have hne : i ≠ it := fun he => hn p List.mem_cons_self (he ▸ hi)
        simpa using hne
      rw [dropIt_cons, hself, if_neg (hv p List.mem_cons_self).its,
        ih (fun q hq => hv q (List.mem_cons_of_mem _ hq)) (fun q hq => hn q (List.mem_cons_of_mem _ hq))]

theorem mem_dropIt {it : Nat} {m : RangeMap} {q : Nat × GidRange} (hq : q ∈ dropIt it m) :
    ∃ p, p ∈ m ∧ q.1 = p.1 ∧ q.2.gidB = p.2.gidB ∧ q.2.gidE = p.2.gidE ∧ q.2.its ≠ [] := by
  obtain ⟨hq, hne⟩ := List.mem_filter.1 hq
  obtain ⟨p, hp, rfl⟩ := List.mem_map.1 hq
  exact ⟨p, hp, rfl, rfl, rfl, by simpa using hne⟩

theorem WF.dropIt {m : RangeMap} (h : WF m) (it : Nat) : WF (dropIt it m) := by
  refine ⟨⟨List.pairwise_map.2 ?_, fun r hr => ?_⟩, fun q hq => ?_⟩
  · exact (List.pairwise_map.2 (h.pairwise.imp fun hpq => hpq)).sublist List.filter_sublist
  · obtain ⟨q, hq, rfl⟩ := List.mem_map.1 hr
    obtain ⟨p, hp, -, hB, hE, hne⟩ := mem_dropIt hq
    have hpv := h.valid hp
    exact ⟨hB ▸ hE ▸ hpv.lt, hE ▸ hpv.fits, hne⟩
  · obtain ⟨p, hp, hk, -, hE, -⟩ := mem_dropIt hq
    rw [hk, hE, h.keyed p hp]

theorem view_dropIt (it : Nat) (m : RangeMap) (x : Nat) :
    view (ranges (dropIt it m)) x = (view (ranges m) x).filter (fun i => decide (i ≠ it)) := by
  induction m with
  | nil => rfl
  | cons p m ih =>
      have hcons : ranges (p :: m) = p.2 :: ranges m := rfl
      rw [dropIt_cons, hcons, view_cons, List.filter_append, ← ih]
      split_ifs with he hx hx
      · rw [he, List.nil_append]
      · rfl
      · rw [ranges, List.map_cons, view_cons, if_pos hx]
        rfl
      · rw [ranges, List.map_cons, view_cons, if_neg hx]
        rfl

/-- The loop of `remove` stops early only past the last range that can hold
the iterator. -/
theorem removeLoop_eq_dropIt {it gidE gid : Nat} {m : RangeMap} (h : WF m)
    (hn : ∀ p, p ∈ m → it ∈ p.2.its → p.2.gidB < gidE)
    (hgid : gid ≤ gidE ∨ ∀ p, p ∈ m → gidE ≤ p.2.gidB) :
    removeLoop it gidE gid m = dropIt it m := by
  induction m generalizing gid with
  | nil => rfl
  | cons p m ih =>
      have htail := h.sublist (List.sublist_cons_self p m)
      have hpm := (List.pairwise_cons.1 h.pairwise).1
      have hpv := h.valid List.mem_cons_self
      by_cases hle : gid ≤ gidE
      · have hrest : removeLoop it gidE ((p.2.gidE + 1) % u64) m = dropIt it m := ih htail
          (fun q hq => hn q (List.mem_cons_of_mem _ hq))
          (by
            by_cases hwrap : p.2.gidE + 1 < u64
            · rw [Nat.mod_eq_of_lt hwrap]
              by_cases hend : p.2.gidE + 1 ≤ gidE
              · exact .inl hend
              · refine .inr fun q hq => ?_
                have hq' := hpm q hq
                omega
            · have heq : p.2.gidE + 1 = u64 := by
                have hf := hpv.fits
                omega
              exact .inl (by rw [heq, Nat.mod_self]; exact Nat.zero_le _))
        rw [removeLoop, if_pos hle, hrest, dropIt_cons]
      · have hall := hgid.resolve_left hle
        rw [removeLoop, if_neg hle, dropIt_eq_self (fun q hq => h.valid hq)]
        intro q hq hit
        exact absurd (hn q hq hit) (not_lt.2 (hall q hq))

/-- `remove` forgets the iterator of a diff wherever it was recorded. -/
theorem remove_spec {m : RangeMap} (h : WF m) {it : Nat} {d : MetaDiff} (hd : d.Valid)
    (hit : ∀ x, it ∈ view (ranges m) x → d.snapB.gidB ≤ x ∧ x < d.snapE.gidB) :
    WF (remove m it d) ∧ ∀ x, view (ranges (remove m it d)) x =
      (view (ranges m) x).filter (fun i => decide (i ≠ it)) := by
  have hlt := hd.progressB
  have hfits := hd.gidB_lt
  have hin : ∀ p, p ∈ m → it ∈ p.2.its → d.snapB.gidB ≤ p.2.gidB ∧ p.2.gidB < d.snapE.gidB :=
    fun p hp hi => hit p.2.gidB
      (mem_view.2 ⟨p.2, List.mem_map_of_mem hp, ⟨le_rfl, (h.valid hp).lt⟩, hi⟩)
  have hremove : remove m it d = dropIt it m := by
    have hmod : (d.snapB.gidB + 1) % u64 = d.snapB.gidB + 1 :=
      Nat.mod_eq_of_lt (by omega)
    have hpre : dropIt it (KeyedList.before Prod.fst (d.snapB.gidB + 1) m) =
        KeyedList.before Prod.fst (d.snapB.gidB + 1) m := by
      refine dropIt_eq_self (fun p hp => h.valid ((KeyedList.mem_before h.sorted).1 hp).1) ?_
      intro p hp hi
      obtain ⟨hp, hkey⟩ := (KeyedList.mem_before h.sorted).1 hp
      have hB := (hin p hp hi).1
      have hv := (h.valid hp).lt
      rw [h.keyed p hp] at hkey
      omega
    have hloop : removeLoop it d.snapE.gidB (d.snapB.gidB + 1)
        (KeyedList.lowerBound Prod.fst (d.snapB.gidB + 1) m) =
        dropIt it (KeyedList.lowerBound Prod.fst (d.snapB.gidB + 1) m) :=
      removeLoop_eq_dropIt (h.sublist (List.dropWhile_sublist _))
        (fun p hp hi => (hin p ((KeyedList.mem_lowerBound h.sorted).1 hp).1 hi).2) (.inl hlt)
    rw [remove, hmod, hloop, ← hpre, ← dropIt_append, KeyedList.before_append_lowerBound]
  rw [hremove]
  exact ⟨h.dropIt it, view_dropIt it m⟩

end WalbTools.GidRangeManager
