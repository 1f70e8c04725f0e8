import Mathlib

namespace WalbTools.GreedyCover

variable {ι κ : Type} [LinearOrder κ] (lo hi : ι → κ) (S : Set ι)

/-- Some interval `[lo i, hi i)` of the family contains the point. -/
def Covered (x : κ) : Prop := ∃ i ∈ S, lo i ≤ x ∧ x < hi i

/-- The greedy step: the farthest end among the intervals that contain `x`. -/
def Next (x y : κ) : Prop :=
  (∃ i ∈ S, (lo i ≤ x ∧ x < hi i) ∧ hi i = y) ∧ ∀ i ∈ S, lo i ≤ x → x < hi i → hi i ≤ y

/-- The points a greedy walk from `x` visits. -/
def Path : κ → List κ → Prop
  | _, [] => True
  | x, y :: ps => Next lo hi S x y ∧ Path y ps

/-- A walk that takes any interval that contains the point. -/
def Walk : κ → List ι → Prop
  | _, [] => True
  | x, i :: is => i ∈ S ∧ (lo i ≤ x ∧ x < hi i) ∧ Walk (hi i) is

variable {lo hi S}

theorem Next.lt {x y : κ} (h : Next lo hi S x y) : x < y := by
  obtain ⟨⟨i, -, ⟨-, hlt⟩, rfl⟩, -⟩ := h
  exact hlt

theorem Next.unique {x y z : κ} (h : Next lo hi S x y) (h' : Next lo hi S x z) : y = z := by
  obtain ⟨⟨i, hi, ⟨hl, hlt⟩, rfl⟩, hmax⟩ := h
  obtain ⟨⟨j, hj, ⟨hl', hlt'⟩, rfl⟩, hmax'⟩ := h'
  exact le_antisymm (hmax' i hi hl hlt) (hmax j hj hl' hlt')

theorem Next.covered {x y z : κ} (h : Next lo hi S x y) (hx : x ≤ z) (hz : z < y) :
    Covered lo hi S z := by
  obtain ⟨⟨i, hi, ⟨hl, -⟩, rfl⟩, -⟩ := h
  exact ⟨i, hi, hl.trans hx, hz⟩

omit [LinearOrder κ] in
theorem getLastD_append (ps qs : List κ) (x : κ) :
    (ps ++ qs).getLastD x = qs.getLastD (ps.getLastD x) := by
  induction ps generalizing x with
  | nil => rfl
  | cons y ps ih => rw [List.cons_append, List.getLastD_cons, List.getLastD_cons, ih]

theorem Path.append {x : κ} {ps qs : List κ} :
    Path lo hi S x (ps ++ qs) ↔ Path lo hi S x ps ∧ Path lo hi S (ps.getLastD x) qs := by
  induction ps generalizing x with
  | nil => simp [Path]
  | cons y ps ih => rw [List.cons_append, Path, Path, ih, List.getLastD_cons, and_assoc]

theorem Path.lt {x y : κ} {ps : List κ} (h : Path lo hi S x ps) (hy : y ∈ ps) : x < y := by
  induction ps generalizing x with
  | nil => exact absurd hy List.not_mem_nil
  | cons z ps ih =>
      rcases List.mem_cons.1 hy with rfl | hy
      · exact h.1.lt
      · exact h.1.lt.trans (ih h.2 hy)

theorem Path.le_last {x : κ} {ps : List κ} (h : Path lo hi S x ps) : x ≤ ps.getLastD x := by
  induction ps generalizing x with
  | nil => exact le_rfl
  | cons y ps ih =>
      rw [List.getLastD_cons]
      exact h.1.lt.le.trans (ih h.2)

theorem Path.pairwise {x : κ} {ps : List κ} (h : Path lo hi S x ps) : ps.Pairwise (· < ·) := by
  induction ps generalizing x with
  | nil => exact List.Pairwise.nil
  | cons y ps ih => exact List.pairwise_cons.2 ⟨fun z hz => h.2.lt hz, ih h.2⟩

theorem Path.covered {x z : κ} {ps : List κ} (h : Path lo hi S x ps) (hx : x ≤ z)
    (hz : z < ps.getLastD x) : Covered lo hi S z := by
  induction ps generalizing x with
  | nil => exact absurd hz (not_lt.2 hx)
  | cons y ps ih =>
      rw [List.getLastD_cons] at hz
      rcases lt_or_ge z y with hzy | hyz
      · exact h.1.covered hx hzy
      · exact ih h.2 hyz hz

theorem Path.last_eq {x y : κ} {ps : List κ} (h : Path lo hi S x ps)
    (hend : ¬Covered lo hi S (ps.getLastD x)) (hxy : x ≤ y)
    (hcov : ∀ z, x ≤ z → z < y → Covered lo hi S z) (hy : ¬Covered lo hi S y) :
    ps.getLastD x = y := by
  rcases lt_trichotomy (ps.getLastD x) y with hlt | heq | hgt
  · exact absurd (hcov _ h.le_last hlt) hend
  · exact heq
  · exact absurd (h.covered hxy hgt) hy

theorem Path.prefix_or {x : κ} {ps qs : List κ} (h : Path lo hi S x ps) (h' : Path lo hi S x qs) :
    ps <+: qs ∨ qs <+: ps := by
  induction ps generalizing x qs with
  | nil => exact .inl List.nil_prefix
  | cons y ps ih =>
      cases qs with
      | nil => exact .inr List.nil_prefix
      | cons z qs =>
          obtain rfl := h.1.unique h'.1
          rcases ih h.2 h'.2 with hp | hp
          · exact .inl (List.cons_prefix_cons.2 ⟨rfl, hp⟩)
          · exact .inr (List.cons_prefix_cons.2 ⟨rfl, hp⟩)

/-- A walk that stays below `bound` as long as it can ends like every other
such walk. -/
theorem Path.eq_of_bound {x bound : κ} {ps qs : List κ} (h : Path lo hi S x ps)
    (h' : Path lo hi S x qs) (hps : ∀ y ∈ ps, y ≤ bound) (hqs : ∀ y ∈ qs, y ≤ bound)
    (hstop : ∀ y, Next lo hi S (ps.getLastD x) y → bound < y)
    (hstop' : ∀ y, Next lo hi S (qs.getLastD x) y → bound < y) : ps = qs := by
  -- the longer walk would take a step past the bound
  have key : ∀ {us vs : List κ}, us <+: vs → Path lo hi S x vs → (∀ y ∈ vs, y ≤ bound) →
      (∀ y, Next lo hi S (us.getLastD x) y → bound < y) → us = vs := by
    rintro us _ ⟨ws, rfl⟩ hvs hle hst
    cases ws with
    | nil => rw [List.append_nil]
    | cons w ws =>
        have hw := (Path.append.1 hvs).2.1
        exact absurd (hle w (by simp)) (not_le.2 (hst w hw))
  rcases h.prefix_or h' with hp | hp
  · exact key hp h' hqs hstop
  · exact (key hp h hps hstop').symm

/-- A walk is untouched by a change of the family that keeps its intervals and
adds none reaching back to the points it leaves from. -/
theorem Path.of_next {T : Set ι} {x : κ} {ps : List κ} (h : Path lo hi S x ps)
    (hT : ∀ z ∈ (x :: ps).dropLast, ∀ y, Next lo hi S z y → Next lo hi T z y) :
    Path lo hi T x ps := by
  induction ps generalizing x with
  | nil => trivial
  | cons y ps ih =>
      refine ⟨hT x (by simp) y h.1, ih h.2 fun z hz w hw => hT z ?_ w hw⟩
      rw [List.dropLast_cons_of_ne_nil (List.cons_ne_nil _ _)]
      exact List.mem_cons_of_mem _ hz

/-- The greedy walk stays ahead: from a point that is not behind, it goes at least
as far as any walk, and it is not longer when both end at one point. -/
theorem Path.ahead {x y : κ} {ps : List κ} {is : List ι} (h : Path lo hi S x ps)
    (hend : ¬Covered lo hi S (ps.getLastD x)) (hw : Walk lo hi S y is) (hyx : y ≤ x) :
    (is.map hi).getLastD y ≤ ps.getLastD x ∧ ((is.map hi).getLastD y = ps.getLastD x →
      ps.length ≤ is.length) := by
  induction is generalizing x y ps with
  | nil =>
      refine ⟨hyx.trans h.le_last, fun he => ?_⟩
      cases ps with
      | nil => exact le_rfl
      | cons z ps =>
          rw [List.getLastD_cons] at he
          have hlt := h.1.lt.trans_le h.2.le_last
          exact absurd (he.symm.le.trans hyx) (not_le.2 hlt)
  | cons i is ih =>
      obtain ⟨hi', ⟨hl, -⟩, hw⟩ := hw
      rw [List.map_cons, List.getLastD_cons]
      by_cases hix : hi i ≤ x
      · obtain ⟨hle, hlen⟩ := ih h hend hw hix
        exact ⟨hle, fun he => (hlen he).trans (Nat.le_succ _)⟩
      · -- The interval contains the point of the greedy walk, which then takes a step, too.
        have hcov : lo i ≤ x ∧ x < hi i := ⟨hl.trans hyx, not_le.1 hix⟩
        cases ps with
        | nil => exact absurd ⟨i, hi', hcov⟩ hend
        | cons z ps =>
            rw [List.getLastD_cons] at hend ⊢
            obtain ⟨hle, hlen⟩ := ih h.2 hend hw (h.1.2 i hi' hcov.1 hcov.2)
            exact ⟨hle, fun he => Nat.succ_le_succ (hlen he)⟩

theorem Path.le_of_mem {x y : κ} {ps : List κ} (h : Path lo hi S x ps) (hy : y ∈ ps) :
    y ≤ ps.getLastD x := by
  induction ps generalizing x with
  | nil => exact absurd hy List.not_mem_nil
  | cons z ps ih =>
      rw [List.getLastD_cons]
      rcases List.mem_cons.1 hy with rfl | hy
      · exact h.2.le_last
      · exact ih h.2 hy

/-- An interval that reaches back to a visited point ends before the next one. -/
theorem Path.hi_le {x y z : κ} {ps : List κ} (h : Path lo hi S x ps) {i : ι} (hiS : i ∈ S)
    (hl : lo i ≤ z)
    (hz : z ∈ x :: ps) (hy : y ∈ ps) (hzy : z < y) : hi i ≤ y := by
  induction ps generalizing x with
  | nil => exact absurd hy List.not_mem_nil
  | cons w ps ih =>
      have hwy : w ≤ y := by
        rcases List.mem_cons.1 hy with rfl | hy
        · exact le_rfl
        · exact (h.2.lt hy).le
      rcases List.mem_cons.1 hz with rfl | hz
      · rcases le_or_gt (hi i) z with hiz | hzi
        · exact hiz.trans hzy.le
        · exact (h.1.2 i hiS hl hzi).trans hwy
      · have hy' : y ∈ ps := by
          rcases List.mem_cons.1 hy with rfl | hy
          · rcases List.mem_cons.1 hz with rfl | hz
            · exact absurd hzy (lt_irrefl _)
            · exact absurd (h.2.lt hz) hzy.asymm
          · exact hy
        exact ih h.2 hz hy'

theorem Path.mem_of_not_inside {x y : κ} {ps : List κ} (h : Path lo hi S x ps)
    (hin : ∀ i ∈ S, ¬(lo i < y ∧ y < hi i)) (hx : x < y) (hy : y ≤ ps.getLastD x) : y ∈ ps := by
  induction ps generalizing x with
  | nil => exact absurd hy (not_le.2 hx)
  | cons w ps ih =>
      rw [List.getLastD_cons] at hy
      obtain ⟨⟨i, hiS, ⟨hl, -⟩, hw⟩, -⟩ := h.1
      have hle : w ≤ y := by
        by_contra hlt
        exact hin i hiS ⟨hl.trans_lt hx, hw ▸ not_le.1 hlt⟩
      rcases hle.eq_or_lt with rfl | hlt
      · exact List.mem_cons_self
      · exact List.mem_cons_of_mem _ (ih h.2 hlt hy)

section Marks

variable {mark : ι → Prop}

/-- No interval passes over the begin of a marked one. -/
def Unhidden (lo hi : ι → κ) (S : Set ι) (mark : ι → Prop) : Prop :=
  ∀ i ∈ S, mark i → ∀ j ∈ S, ¬(lo j < lo i ∧ lo i < hi j)

theorem Unhidden.mem_path (hu : Unhidden lo hi S mark) {x : κ} {ps : List κ} (h : Path lo hi S x ps)
    {i : ι} (hiS : i ∈ S)
    (hm : mark i) (hx : x < lo i) (hl : lo i ≤ ps.getLastD x) : lo i ∈ ps :=
  h.mem_of_not_inside (hu i hiS hm) hx hl

/-- A marked interval that a walk can take begins at the point it is taken from. -/
theorem Unhidden.lo_eq (hu : Unhidden lo hi S mark) {x y : κ} {ps : List κ} (h : Path lo hi S x ps)
    {i : ι} (hiS : i ∈ S)
    (hm : mark i) (hy : y ∈ ps) (hl : lo i ≤ y) (hlt : y < hi i) : lo i = y := by
  by_contra hne
  have hly := lt_of_le_of_ne hl hne
  rcases lt_or_ge x (lo i) with hx | hx
  · have hmem := hu.mem_path h hiS hm hx (hl.trans (h.le_of_mem hy))
    exact absurd hlt (h.hi_le hiS le_rfl (List.mem_cons_of_mem _ hmem) hy hly).not_gt
  · exact absurd hlt (h.hi_le hiS hx List.mem_cons_self hy (h.lt hy)).not_gt

/-- Of the intervals that begin at a point a marked one goes farthest. -/
def Shown (lo hi : ι → κ) (S : Set ι) (mark : ι → Prop) (x : κ) : Prop :=
  ∃ i ∈ S, mark i ∧ lo i = x ∧ ∀ j ∈ S, lo j = x → hi j ≤ hi i

/-- One interval that stands for the intervals of `V`, the first of which goes
farthest of all that begin there. -/
structure Joins (lo hi : ι → κ) (S : Set ι) (mark : ι → Prop) (V : Set ι) (m : ι) : Prop where
  subset : V ⊆ S
  covers : ∀ x, (lo m ≤ x ∧ x < hi m) ↔ Covered lo hi V x
  mark_of_mem : ∀ i ∈ V, mark i → lo i = lo m
  first : ∃ i ∈ V, lo i = lo m ∧ (mark i ↔ mark m) ∧ hi i < hi m ∧ ∀ j ∈ S, lo j = lo m → hi j ≤ hi i

variable {V T : Set ι} {m : ι}

theorem Joins.covered_iff (hj : Joins lo hi S mark V m) (hT : ∀ i, i ∈ T ↔ i = m ∨ (i ∈ S ∧ i ∉ V))
    (x : κ) :
    Covered lo hi T x ↔ Covered lo hi S x := by
  constructor
  · rintro ⟨i, hi, hc⟩
    rcases (hT i).1 hi with rfl | ⟨hi, -⟩
    · obtain ⟨j, hjV, hc⟩ := (hj.covers x).1 hc
      exact ⟨j, hj.subset hjV, hc⟩
    · exact ⟨i, hi, hc⟩
  · rintro ⟨i, hi, hc⟩
    by_cases hiV : i ∈ V
    · exact ⟨m, (hT m).2 (.inl rfl), (hj.covers x).2 ⟨i, hiV, hc⟩⟩
    · exact ⟨i, (hT i).2 (.inr ⟨hi, hiV⟩), hc⟩

/-- Where a marked interval begins, those of `V` that begin there are marked, too. -/
def Agree (lo : ι → κ) (S : Set ι) (mark : ι → Prop) (V : Set ι) : Prop :=
  ∀ i ∈ S, mark i → ∀ j ∈ V, lo j = lo i → mark j

theorem Joins.shown_iff (hj : Joins lo hi S mark V m) (hT : ∀ i, i ∈ T ↔ i = m ∨ (i ∈ S ∧ i ∉ V))
    (hagree : Agree lo S mark V) (x : κ) : Shown lo hi T mark x ↔ Shown lo hi S mark x := by
  obtain ⟨k, hkV, hlk, hmk, hlt, hfar⟩ := hj.first
  have hmT : m ∈ T := (hT m).2 (.inl rfl)
  constructor
  · rintro ⟨i, hiT, hm, rfl, hmax⟩
    rcases (hT i).1 hiT with rfl | ⟨hiS, -⟩
    · exact ⟨k, hj.subset hkV, hmk.2 hm, hlk, hfar⟩
    · -- an interval of `V` that begins there would be marked, so that `m` begins there
      have hne : lo i ≠ lo m := fun heq =>
        absurd ((hmax m hmT heq.symm).trans (hfar i hiS heq)) hlt.not_ge
      refine ⟨i, hiS, hm, rfl, fun j hjS hl => hmax j ((hT j).2 (.inr ⟨hjS, fun hjV => hne ?_⟩)) hl⟩
      exact hl.symm.trans (hj.mark_of_mem j hjV (hagree i hiS hm j hjV hl))
  · rintro ⟨i, hiS, hm, rfl, hmax⟩
    by_cases heq : lo i = lo m
    · refine ⟨m, hmT, hmk.1 (hagree i hiS hm k hkV (hlk.trans heq.symm)), heq.symm, fun j hjT hl => ?_⟩
      rcases (hT j).1 hjT with rfl | ⟨hjS, -⟩
      · exact le_rfl
      · exact (hfar j hjS (hl.trans heq)).trans hlt.le
    · refine ⟨i, (hT i).2 (.inr ⟨hiS, fun hiV => heq (hj.mark_of_mem i hiV hm)⟩), hm, rfl,
        fun j hjT hl => ?_⟩
      rcases (hT j).1 hjT with rfl | ⟨hjS, -⟩
      · exact absurd hl.symm heq
      · exact hmax j hjS hl

theorem Joins.unhidden (hj : Joins lo hi S mark V m) (hT : ∀ i, i ∈ T ↔ i = m ∨ (i ∈ S ∧ i ∉ V))
    (hagree : Agree lo S mark V) (hu : Unhidden lo hi S mark) : Unhidden lo hi T mark := by
  rintro i hiT hm j hjT ⟨hl, hlt⟩
  -- The begin of a marked interval of `T` is one of a marked interval of `S`.
  obtain ⟨k, hkS, hmk, hlk⟩ : ∃ k ∈ S, mark k ∧ lo k = lo i := by
    rcases (hT i).1 hiT with rfl | ⟨hiS, -⟩
    · obtain ⟨k, hkV, hlk, hmk, -⟩ := hj.first
      exact ⟨k, hj.subset hkV, hmk.2 hm, hlk⟩
    · exact ⟨i, hiS, hm, rfl⟩
  rw [← hlk] at hl hlt
  rcases (hT j).1 hjT with rfl | ⟨hjS, -⟩
  · obtain ⟨v, hvV, hlv, hltv⟩ := (hj.covers (lo k)).1 ⟨hl.le, hlt⟩
    have heq : lo v = lo k := by
      by_contra hne
      exact hu k hkS hmk v (hj.subset hvV) ⟨lt_of_le_of_ne hlv hne, hltv⟩
    exact hl.ne' (heq.symm.trans (hj.mark_of_mem v hvV (hagree k hkS hmk v hvV heq)))
  · exact hu k hkS hmk j hjS ⟨hl, hlt⟩

end Marks

end WalbTools.GreedyCover
