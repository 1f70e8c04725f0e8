import WalbTools.KeyedList

namespace WalbTools.Tasks

open KeyedList
open scoped List

abbrev TimePoint := Int

/-- `Clock::now() + MilliSeconds(delayMs)` in 64 signed bits: a delay that is too long wraps. -/
def delayed (now : TimePoint) (delayMs : Nat) : TimePoint := (now + delayMs * 10 ^ 6).bmod (2 ^ 64)

/-- `map` is in the order of the tasks, `rmap` in that of the times. -/
structure TaskQueue (Task : Type) where
  map : List (Task × TimePoint)
  rmap : List (TimePoint × Task)
  isStopped : Bool

variable {Task : Type} [LinearOrder Task]

def eraseFromRmap (task : Task) (ts : TimePoint) (rmap : List (TimePoint × Task)) :
    List (TimePoint × Task) :=
  before Prod.fst ts rmap ++ (equalRange Prod.fst ts rmap).eraseP (fun e => e.2 = task) ++
    (lowerBound Prod.fst ts rmap).dropWhile fun e => decide (e.1 ≤ ts)

/-- `itr` walks the map while the entries are erased behind it. -/
def removeLoop (pred : Task → Bool) :
    List (Task × TimePoint) → List (TimePoint × Task) → List (Task × TimePoint) × List (TimePoint × Task)
  | [], rmap => ([], rmap)
  | (task, ts) :: map, rmap =>
      if pred task then removeLoop pred map (eraseFromRmap task ts rmap)
      else ((task, ts) :: (removeLoop pred map rmap).1, (removeLoop pred map rmap).2)

namespace TaskQueue

def init : TaskQueue Task := ⟨[], [], false⟩

def find (q : TaskQueue Task) (task : Task) : Option TimePoint :=
  (q.map.find? fun p => p.1 = task).map Prod.snd

def push (q : TaskQueue Task) (now : TimePoint) (task : Task) (delayMs : Nat) : TaskQueue Task :=
  if q.isStopped then q
  else
    let ts := delayed now delayMs
    let maked := (q.find task).isNone
    { q with
      map := insert Prod.fst (task, ts) q.map
      rmap := if maked then emplace Prod.fst (ts, task) q.rmap else q.rmap }

def pushForce (q : TaskQueue Task) (now : TimePoint) (task : Task) (delayMs : Nat) : TaskQueue Task :=
  if q.isStopped then q
  else
    let ts := delayed now delayMs
    match q.find task with
    | some ts' =>
        { q with
          map := q.map.map fun p => if p.1 = task then (task, ts) else p
          rmap := emplace Prod.fst (ts, task) (eraseFromRmap task ts' q.rmap) }
    | none =>
        { q with
          map := insert Prod.fst (task, ts) q.map
          rmap := emplace Prod.fst (ts, task) q.rmap }

def pop (q : TaskQueue Task) (now : TimePoint) : Option Task × TaskQueue Task :=
  match q.rmap with
  | [] => (none, q)
  | (ts, task) :: rmap =>
      if !q.isStopped && decide (now < ts) then (none, q)
      else (some task, { q with map := q.map.filter fun p => decide (p.1 ≠ task), rmap := rmap })

def quit (q : TaskQueue Task) : TaskQueue Task := { q with isStopped := true }

def remove (q : TaskQueue Task) (pred : Task → Bool) : TaskQueue Task :=
  { q with map := (removeLoop pred q.map q.rmap).1, rmap := (removeLoop pred q.map q.rmap).2 }

end TaskQueue

inductive Call (Task : Type) where
  | push (task : Task) (delayMs : Nat)
  | pushForce (task : Task) (delayMs : Nat)
  | pop
  | remove (pred : Task → Bool)
  | quit

namespace TaskQueue

/-- A call at the time that the clock shows, and the task that it pops. -/
def step (q : TaskQueue Task) (now : TimePoint) : Call Task → Option Task × TaskQueue Task
  | .push task delayMs => (none, q.push now task delayMs)
  | .pushForce task delayMs => (none, q.pushForce now task delayMs)
  | .pop => q.pop now
  | .remove pred => (none, q.remove pred)
  | .quit => (none, q.quit)

def run (q : TaskQueue Task) (calls : List (TimePoint × Call Task)) : TaskQueue Task :=
  calls.foldl (fun q c => (q.step c.1 c.2).2) q

end TaskQueue

structure Schedule (Task : Type) where
  time : Task → Option TimePoint
  isStopped : Bool

namespace Schedule

def Earliest (s : Schedule Task) (t : TimePoint) : Prop := ∀ task t', s.time task = some t' → t ≤ t'

def set (s : Schedule Task) (task : Task) (t : Option TimePoint) : Schedule Task :=
  { s with time := Function.update s.time task t }

/-- What a call at the time `now` may do, and the task that it may pop. -/
def Allows (s : Schedule Task) (now : TimePoint) : Call Task → Option Task → Schedule Task → Prop
  | .push task delayMs, popped, s' =>
      popped = none ∧ s' = if s.isStopped ∨ (s.time task).isSome then s
        else s.set task (delayed now delayMs)
  | .pushForce task delayMs, popped, s' =>
      popped = none ∧ s' = if s.isStopped then s else s.set task (delayed now delayMs)
  | .pop, none, s' => s' = s ∧ ∀ task t, s.time task = some t → s.isStopped = false ∧ now < t
  | .pop, some task, s' =>
      ∃ t, s.time task = some t ∧ s.Earliest t ∧ (s.isStopped = true ∨ t ≤ now) ∧ s' = s.set task none
  | .remove pred, popped, s' =>
      popped = none ∧ s' = { s with time := fun task => if pred task then none else s.time task }
  | .quit, popped, s' => popped = none ∧ s' = { s with isStopped := true }

theorem Allows.lost {s s' : Schedule Task} {now : TimePoint} {call : Call Task} {popped : Option Task}
    (h : s.Allows now call popped s') {task : Task} (hs : s.time task ≠ none)
    (hs' : s'.time task = none) :
    (call = .pop ∧ popped = some task) ∨ ∃ pred, call = .remove pred ∧ pred task = true := by
  cases call with
  | push task' delayMs =>
      obtain ⟨-, rfl⟩ := h
      split_ifs at hs'
      · exact absurd hs' hs
      · by_cases ht : task = task'
        · subst ht
          simp [set] at hs'
        · exact absurd (by simpa [set, ht] using hs') hs
  | pushForce task' delayMs =>
      obtain ⟨-, rfl⟩ := h
      split_ifs at hs'
      · exact absurd hs' hs
      · by_cases ht : task = task'
        · subst ht
          simp [set] at hs'
        · exact absurd (by simpa [set, ht] using hs') hs
  | pop =>
      cases popped with
      | none =>
          obtain ⟨rfl, -⟩ := h
          exact absurd hs' hs
      | some task' =>
          obtain ⟨t, -, -, -, rfl⟩ := h
          by_cases ht : task = task'
          · exact .inl ⟨rfl, ht ▸ rfl⟩
          · exact absurd (by simpa [set, ht] using hs') hs
  | remove pred =>
      obtain ⟨-, rfl⟩ := h
      refine .inr ⟨pred, rfl, ?_⟩
      by_contra hp
      exact hs (by simpa [hp] using hs')
  | quit =>
      obtain ⟨-, rfl⟩ := h
      exact absurd hs' hs

end Schedule

namespace TaskQueue

def schedule (q : TaskQueue Task) : Schedule Task := ⟨q.find, q.isStopped⟩

/-- The map and the index hold the same pairs, and each task once. -/
structure Consistent (q : TaskQueue Task) : Prop where
  map_sorted : Sorted Prod.fst q.map
  nodup : (q.map.map Prod.fst).Nodup
  rmap_sorted : Sorted Prod.fst q.rmap
  same : q.rmap.Perm (q.map.map Prod.swap)

variable {q : TaskQueue Task} {task : Task} {ts : TimePoint}

theorem find_eq_some_iff (hn : (q.map.map Prod.fst).Nodup) :
    q.find task = some ts ↔ (task, ts) ∈ q.map := by
  unfold find
  generalize q.map = l at hn
  induction l with
  | nil => simp
  | cons p l ih =>
      obtain ⟨hp, hl⟩ := List.nodup_cons.mp hn
      by_cases h : p.1 = task
      · subst h
        have hnot : ∀ t, (p.1, t) ∉ l := fun t ht => hp (List.mem_map.mpr ⟨_, ht, rfl⟩)
        simp [hnot, Prod.ext_iff, eq_comm]
      · simp [h, ih hl, Prod.ext_iff, Ne.symm h]

theorem find_eq_none_iff : q.find task = none ↔ ∀ p ∈ q.map, p.1 ≠ task := by
  simp [find]

theorem schedule_eq (hn : (q.map.map Prod.fst).Nodup) {s : Schedule Task}
    (hst : q.isStopped = s.isStopped)
    (h : ∀ task t, (task, t) ∈ q.map ↔ s.time task = some t) : q.schedule = s := by
  obtain ⟨time, isStopped⟩ := s
  rw [schedule, Schedule.mk.injEq]
  refine ⟨?_, hst⟩
  funext task
  ext t
  rw [find_eq_some_iff hn, h]

theorem Consistent.mem_rmap (C : Consistent q) : (ts, task) ∈ q.rmap ↔ (task, ts) ∈ q.map := by
  rw [C.same.mem_iff, List.mem_map]
  constructor
  · rintro ⟨p, hp, heq⟩
    rw [← Prod.swap_swap p, heq] at hp
    exact hp
  · intro h
    exact ⟨_, h, rfl⟩

theorem Consistent.of_mem (hmap : Sorted Prod.fst q.map) (hn : (q.map.map Prod.fst).Nodup)
    (hrmap : Sorted Prod.fst q.rmap)
    (hn' : (q.rmap.map Prod.snd).Nodup) (h : ∀ task t, (t, task) ∈ q.rmap ↔ (task, t) ∈ q.map) :
    Consistent q := by
  refine ⟨hmap, hn, hrmap, (List.perm_ext_iff_of_nodup hn'.of_map
    (hn.of_map.map Prod.swap_injective)).mpr ?_⟩
  rintro ⟨t, task⟩
  rw [h]
  exact ⟨fun hm => List.mem_map.mpr ⟨_, hm, rfl⟩, fun hm => by simpa using hm⟩

theorem Consistent.rmap_nodup (C : Consistent q) : (q.rmap.map Prod.snd).Nodup := by
  have h := C.same.map Prod.snd
  rw [List.map_map] at h
  exact h.nodup_iff.mpr C.nodup

end TaskQueue

variable {task : Task} {ts : TimePoint} {rmap : List (TimePoint × Task)}

theorem eraseP_eq_filter (hn : (rmap.map Prod.snd).Nodup) :
    (rmap.eraseP fun e => decide (e.2 = task)) = rmap.filter fun e => decide (e.2 ≠ task) := by
  induction rmap with
  | nil => rfl
  | cons e rmap ih =>
      obtain ⟨he, hl⟩ := List.nodup_cons.mp hn
      by_cases h : e.2 = task
      · rw [List.eraseP_cons_of_pos (by simpa using h), List.filter_cons_of_neg (by simpa using h)]
        symm
        rw [List.filter_eq_self]
        intro e' he'
        rw [decide_eq_true_eq]
        intro heq
        exact he (List.mem_map.mpr ⟨e', he', heq.trans h.symm⟩)
      · rw [List.eraseP_cons_of_neg (by simpa using h), List.filter_cons_of_pos (by simpa using h),
          ih hl]

theorem eraseFromRmap_eq_filter (hn : (rmap.map Prod.snd).Nodup) (h : Sorted Prod.fst rmap)
    (hm : (ts, task) ∈ rmap) :
    eraseFromRmap task ts rmap = rmap.filter fun e => decide (e.2 ≠ task) := by
  have hrange : (ts, task) ∈ equalRange Prod.fst ts rmap := (mem_equalRange h).mpr ⟨hm, rfl⟩
  have hparts : before Prod.fst ts rmap ++ (equalRange Prod.fst ts rmap ++
      (lowerBound Prod.fst ts rmap).dropWhile fun e => decide (e.1 ≤ ts)) = rmap := by
    rw [equalRange, List.takeWhile_append_dropWhile, before_append_lowerBound]
  have hinj : ∀ e ∈ rmap, e.2 = task → e = (ts, task) :=
    fun e he heq => List.inj_on_of_nodup_map hn he hm heq
  have hdup := hn.of_map
  rw [eraseFromRmap]
  generalize before Prod.fst ts rmap = A at hparts
  generalize equalRange Prod.fst ts rmap = B at hparts hrange
  generalize (lowerBound Prod.fst ts rmap).dropWhile (fun e => decide (e.1 ≤ ts)) = C at hparts
  subst hparts
  obtain ⟨-, hBC, hA⟩ := List.nodup_append.mp hdup
  obtain ⟨-, -, hC⟩ := List.nodup_append.mp hBC
  have hAne : ∀ e ∈ A, decide (e.2 ≠ task) = true := by
    intro e he
    rw [decide_eq_true_eq]
    intro heq
    exact hA e he (ts, task) (List.mem_append_left _ hrange) (hinj e (List.mem_append_left _ he) heq)
  have hCne : ∀ e ∈ C, decide (e.2 ≠ task) = true := by
    intro e he
    rw [decide_eq_true_eq]
    intro heq
    exact hC (ts, task) hrange e he (hinj e (List.mem_append_right _ (List.mem_append_right _ he))
      heq).symm
  have hB : (B.map Prod.snd).Nodup := by
    rw [List.map_append, List.map_append] at hn
    exact hn.of_append_right.of_append_left
  rw [eraseP_eq_filter hB, List.filter_append, List.filter_append, List.filter_eq_self.mpr hAne,
    List.filter_eq_self.mpr hCne, List.append_assoc]

theorem eraseFromRmap_spec (hn : (rmap.map Prod.snd).Nodup) (h : Sorted Prod.fst rmap)
    (hm : (ts, task) ∈ rmap) :
    ((eraseFromRmap task ts rmap).map Prod.snd).Nodup ∧ Sorted Prod.fst (eraseFromRmap task ts rmap) ∧
      ∀ e, e ∈ eraseFromRmap task ts rmap ↔ e ∈ rmap ∧ e.2 ≠ task := by
  rw [eraseFromRmap_eq_filter hn h hm]
  refine ⟨hn.sublist (List.filter_sublist.map _), h.sublist List.filter_sublist, fun e => ?_⟩
  rw [List.mem_filter, decide_eq_true_eq]

/-- The walk over the map leaves the tasks that are not removed, in the map and in the index. -/
theorem removeLoop_spec (pred : Task → Bool) {map : List (Task × TimePoint)}
    (hmap : (map.map Prod.fst).Nodup)
    (hn : (rmap.map Prod.snd).Nodup) (h : Sorted Prod.fst rmap) (hm : ∀ p ∈ map, p.swap ∈ rmap) :
    (removeLoop pred map rmap).1 = map.filter (fun p => !pred p.1) ∧
      (removeLoop pred map rmap).2 = rmap.filter fun e => !map.any fun p => decide (p.1 = e.2) &&
      pred p.1 := by
  induction map generalizing rmap with
  | nil => simp [removeLoop]
  | cons p map ih =>
      obtain ⟨task, ts⟩ := p
      obtain ⟨hp, hmap⟩ := List.nodup_cons.mp hmap
      obtain ⟨hmem, hrest⟩ := List.forall_mem_cons.mp hm
      rw [removeLoop]
      split_ifs with hpred
      · obtain ⟨hn', h', hiff⟩ := eraseFromRmap_spec hn h hmem
        have hstay : ∀ p ∈ map, p.swap ∈ eraseFromRmap task ts rmap := by
          intro p hpm
          refine (hiff _).mpr ⟨hrest p hpm, fun heq => ?_⟩
          exact hp (List.mem_map.mpr ⟨p, hpm, heq⟩)
        obtain ⟨h₁, h₂⟩ := ih hmap hn' h' hstay
        refine ⟨by simp [h₁, hpred], ?_⟩
        rw [h₂, eraseFromRmap_eq_filter hn h hmem, List.filter_filter]
        refine List.filter_congr fun e _ => ?_
        by_cases he : e.2 = task
        · simp [he, hpred]
        · simp [he, Ne.symm he]
      · obtain ⟨h₁, h₂⟩ := ih hmap hn h hrest
        exact ⟨by simp [h₁, hpred], by simp [h₂, hpred]⟩

namespace TaskQueue

variable {q : TaskQueue Task}

theorem consistent_init : Consistent (init : TaskQueue Task) := ⟨.nil, List.nodup_nil, .nil, .refl _⟩

theorem Consistent.add (C : Consistent q) (ts : TimePoint) (hnew : ∀ p ∈ q.map, p.1 ≠ task) :
    Consistent { q with
      map := insert Prod.fst (task, ts) q.map, rmap := emplace Prod.fst (ts, task) q.rmap } ∧
      schedule { q with
        map := insert Prod.fst (task, ts) q.map, rmap := emplace Prod.fst (ts, task) q.rmap } =
        q.schedule.set task ts := by
  have hperm : (insert Prod.fst (task, ts) q.map).Perm _ := insert_perm (task, ts) hnew
  have hnodup : ((insert Prod.fst (task, ts) q.map).map Prod.fst).Nodup := by
    rw [(hperm.map _).nodup_iff, List.map_cons, List.nodup_cons]
    refine ⟨fun hm => ?_, C.nodup⟩
    obtain ⟨p, hp, heq⟩ := List.mem_map.mp hm
    exact hnew p hp heq
  refine ⟨⟨C.map_sorted.insert _ hnew, hnodup, C.rmap_sorted.emplace _, ?_⟩, ?_⟩
  · calc emplace Prod.fst (ts, task) q.rmap
      ~ (ts, task) :: q.rmap := emplace_perm _ _
      _ ~ (ts, task) :: q.map.map Prod.swap := C.same.cons _
      _ ~ (insert Prod.fst (task, ts) q.map).map Prod.swap := (hperm.map Prod.swap).symm
  · apply schedule_eq hnodup rfl
    intro task' t
    rw [hperm.mem_iff, List.mem_cons, Prod.mk.injEq, ← find_eq_some_iff C.nodup]
    by_cases ht : task' = task
    · subst ht
      simp [Schedule.set, find_eq_none_iff.mpr hnew, eq_comm]
    · simp [Schedule.set, schedule, ht]

theorem consistent_push (C : Consistent q) (now : TimePoint) (task : Task) (delayMs : Nat) :
    Consistent (q.push now task delayMs) ∧
      q.schedule.Allows now (.push task delayMs) none (q.push now task delayMs).schedule := by
  rw [push]
  by_cases hst : q.isStopped = true
  · rw [if_pos hst]
    exact ⟨C, rfl, (if_pos (.inl hst)).symm⟩
  · rw [if_neg hst]
    dsimp only
    by_cases hf : q.find task = none
    · have hnew := find_eq_none_iff.mp hf
      rw [hf, Option.isNone_none, if_pos rfl]
      obtain ⟨C', hs⟩ := C.add (delayed now delayMs) hnew
      refine ⟨C', rfl, ?_⟩
      rw [hs, if_neg]
      simp [schedule, hst, hf]
    · obtain ⟨t, ht⟩ := Option.ne_none_iff_exists'.mp hf
      have hmem := (find_eq_some_iff C.nodup).mp ht
      rw [ht, insert_of_mem C.map_sorted hmem (by rfl), if_neg (by simp)]
      exact ⟨C, rfl, (if_pos (.inr (by simp [schedule, ht]))).symm⟩

theorem Consistent.replace (C : Consistent q) {ts' : TimePoint} (hq : (task, ts') ∈ q.map)
    (ts : TimePoint) :
    let q' : TaskQueue Task := { q with
      map := q.map.map fun p => if p.1 = task then (task, ts) else p
      rmap := emplace Prod.fst (ts, task) (eraseFromRmap task ts' q.rmap) }
    Consistent q' ∧ q'.schedule = q.schedule.set task ts := by
  intro q'
  obtain ⟨hn, hs, herase⟩ := eraseFromRmap_spec C.rmap_nodup C.rmap_sorted (C.mem_rmap.mpr hq)
  have hkey : ∀ p : Task × TimePoint, (if p.1 = task then (task, ts) else p).1 = p.1 := by
    intro p
    split_ifs with h
    · exact h.symm
    · rfl
  have hkeys : q'.map.map Prod.fst = q.map.map Prod.fst := by
    rw [List.map_map]
    exact List.map_congr_left fun p _ => hkey p
  have hnodup : (q'.map.map Prod.fst).Nodup := hkeys ▸ C.nodup
  have hsorted : Sorted Prod.fst q'.map := by
    have h := C.map_sorted
    rw [Sorted, ← List.pairwise_map] at h ⊢
    rwa [hkeys]
  have hmem : ∀ task' t, (task', t) ∈ q'.map ↔ if task' = task then t = ts else (task', t) ∈ q.map := by
    intro task' t
    rw [List.mem_map]
    split_ifs with h
    · subst h
      constructor
      · rintro ⟨p, -, hp⟩
        have hp' := (hkey p).symm.trans (congrArg Prod.fst hp)
        rw [if_pos hp'] at hp
        exact (congrArg Prod.snd hp).symm
      · rintro rfl
        exact ⟨_, hq, if_pos rfl⟩
    · constructor
      · rintro ⟨p, hpm, hp⟩
        have hp' := (hkey p).symm.trans (congrArg Prod.fst hp)
        rw [if_neg (hp'.trans_ne h)] at hp
        exact hp ▸ hpm
      · intro hpm
        exact ⟨_, hpm, if_neg h⟩
  have hperm : (emplace Prod.fst (ts, task) (eraseFromRmap task ts' q.rmap)).Perm _ := emplace_perm _ _
  have hrnodup : (q'.rmap.map Prod.snd).Nodup := by
    rw [(hperm.map Prod.snd).nodup_iff, List.map_cons, List.nodup_cons]
    refine ⟨fun hm => ?_, hn⟩
    obtain ⟨e, he, heq⟩ := List.mem_map.mp hm
    exact ((herase e).mp he).2 heq
  refine ⟨.of_mem hsorted hnodup (hs.emplace _) hrnodup fun task' t => ?_,
    schedule_eq hnodup rfl fun task' t => ?_⟩
  · rw [hperm.mem_iff, List.mem_cons, Prod.mk.injEq, herase, C.mem_rmap, hmem]
    split_ifs with h
    · simp [h]
    · simp [h]
  · rw [hmem]
    split_ifs with h
    · simp [Schedule.set, h, eq_comm]
    · simp [Schedule.set, schedule, h, find_eq_some_iff C.nodup]

theorem consistent_pushForce (C : Consistent q) (now : TimePoint) (task : Task) (delayMs : Nat) :
    Consistent (q.pushForce now task delayMs) ∧
      q.schedule.Allows now (.pushForce task delayMs) none (q.pushForce now task delayMs).schedule := by
  rw [pushForce]
  by_cases hst : q.isStopped = true
  · rw [if_pos hst]
    exact ⟨C, rfl, (if_pos hst).symm⟩
  · rw [if_neg hst]
    cases hf : q.find task with
    | some ts' =>
        obtain ⟨C', hs⟩ := C.replace ((find_eq_some_iff C.nodup).mp hf) (delayed now delayMs)
        exact ⟨C', rfl, hs.trans (if_neg hst).symm⟩
    | none =>
        obtain ⟨C', hs⟩ := C.add (delayed now delayMs) (find_eq_none_iff.mp hf)
        exact ⟨C', rfl, hs.trans (if_neg hst).symm⟩

theorem Consistent.filter (C : Consistent q) {p : Task → Bool} {map : List (Task × TimePoint)}
    {rmap : List (TimePoint × Task)}
    (hmap : map = q.map.filter fun e => p e.1) (hrmap : rmap = q.rmap.filter fun e => p e.2) :
    Consistent { q with map := map, rmap := rmap } ∧
      schedule { q with map := map, rmap := rmap } =
        { q.schedule with time := fun task => if p task then q.schedule.time task else none } := by
  subst hmap hrmap
  have hnodup : ((q.map.filter fun e => p e.1).map Prod.fst).Nodup :=
    C.nodup.sublist (List.filter_sublist.map _)
  refine ⟨.of_mem (C.map_sorted.sublist List.filter_sublist) hnodup
    (C.rmap_sorted.sublist List.filter_sublist)
    (C.rmap_nodup.sublist (List.filter_sublist.map _)) fun task t => ?_,
      schedule_eq hnodup rfl fun task t => ?_⟩
  · rw [List.mem_filter, List.mem_filter, C.mem_rmap]
  · rw [List.mem_filter, ← find_eq_some_iff C.nodup]
    dsimp only [schedule]
    split_ifs with h
    · simp [h]
    · simp [h]

theorem consistent_pop (C : Consistent q) (now : TimePoint) :
    Consistent (q.pop now).2 ∧ q.schedule.Allows now Call.pop (q.pop now).1 (q.pop now).2.schedule := by
  have htime : ∀ task t, q.schedule.time task = some t ↔ (t, task) ∈ q.rmap := fun task t =>
    (find_eq_some_iff C.nodup).trans C.mem_rmap.symm
  rw [pop]
  cases hr : q.rmap with
  | nil =>
      refine ⟨C, rfl, fun task t ht => ?_⟩
      rw [htime, hr] at ht
      exact absurd ht List.not_mem_nil
  | cons e rmap =>
      obtain ⟨ts, task⟩ := e
      have hsorted := C.rmap_sorted
      have hnodup := C.rmap_nodup
      rw [hr] at hsorted hnodup
      obtain ⟨hfirst, -⟩ := List.pairwise_cons.mp hsorted
      obtain ⟨hother, -⟩ := List.nodup_cons.mp hnodup
      have hle : q.schedule.Earliest ts := by
        intro task' t' ht'
        rw [htime, hr] at ht'
        rcases List.mem_cons.mp ht' with heq | hm
        · exact (congrArg Prod.fst heq).ge
        · exact hfirst _ hm
      dsimp only
      split_ifs with hwait
      · rw [Bool.and_eq_true, Bool.not_eq_true', decide_eq_true_eq] at hwait
        exact ⟨C, rfl, fun task' t' ht' => ⟨hwait.1, hwait.2.trans_le (hle task' t' ht')⟩⟩
      · have hrmap : rmap = q.rmap.filter fun e => decide (e.2 ≠ task) := by
          rw [hr, List.filter_cons_of_neg (by simp), List.filter_eq_self.mpr]
          intro e he
          rw [decide_eq_true_eq]
          exact fun heq => hother (List.mem_map.mpr ⟨e, he, heq⟩)
        obtain ⟨C', hs⟩ := C.filter (p := fun t => decide (t ≠ task)) rfl hrmap
        refine ⟨C', ts, (htime _ _).mpr (hr ▸ List.mem_cons_self), hle, ?_, hs.trans ?_⟩
        · by_contra hc
          rw [not_or, not_le, Bool.not_eq_true] at hc
          exact hwait (by simp [show q.isStopped = false from hc.1, hc.2])
        · rw [Schedule.set, Schedule.mk.injEq]
          refine ⟨?_, rfl⟩
          funext t
          by_cases h : t = task
          · simp [h]
          · simp [h]

theorem consistent_remove (C : Consistent q) (now : TimePoint) (pred : Task → Bool) :
    Consistent (q.remove pred) ∧ q.schedule.Allows now (.remove pred) none (q.remove pred).schedule := by
  obtain ⟨hmap, hrmap⟩ := removeLoop_spec pred C.nodup C.rmap_nodup C.rmap_sorted fun p hp =>
    C.mem_rmap.mpr (by simpa using hp)
  have hrmap' : (removeLoop pred q.map q.rmap).2 = q.rmap.filter fun e => !pred e.2 := by
    rw [hrmap]
    refine List.filter_congr fun e he => ?_
    have hmem : (e.2, e.1) ∈ q.map := C.mem_rmap.mp he
    cases hp : pred e.2 with
    | true =>
        rw [Bool.not_eq_eq_eq_not, Bool.not_not, List.any_eq_true]
        exact ⟨_, hmem, by simp [hp]⟩
    | false =>
        rw [Bool.not_eq_eq_eq_not, Bool.not_not, List.any_eq_false]
        intro p hpm
        by_cases h : p.1 = e.2
        · simp [h, hp]
        · simp [h]
  obtain ⟨C', hs⟩ := C.filter (p := fun t => !pred t) hmap hrmap'
  refine ⟨C', rfl, hs.trans ?_⟩
  rw [Schedule.mk.injEq]
  refine ⟨?_, rfl⟩
  funext task
  cases pred task <;> rfl

theorem consistent_quit (C : Consistent q) (now : TimePoint) :
    Consistent q.quit ∧ q.schedule.Allows now Call.quit none q.quit.schedule :=
  ⟨⟨C.map_sorted, C.nodup, C.rmap_sorted, C.same⟩, rfl, rfl⟩

theorem Consistent.step (C : Consistent q) (now : TimePoint) (call : Call Task) :
    Consistent (q.step now call).2 ∧ q.schedule.Allows now call (q.step now call).1
      (q.step now call).2.schedule := by
  cases call with
  | push task delayMs => exact consistent_push C now task delayMs
  | pushForce task delayMs => exact consistent_pushForce C now task delayMs
  | pop => exact consistent_pop C now
  | remove pred => exact consistent_remove C now pred
  | quit => exact consistent_quit C now

theorem Consistent.run (C : Consistent q) (calls : List (TimePoint × Call Task)) :
    Consistent (q.run calls) := by
  induction calls generalizing q with
  | nil => exact C
  | cons c calls ih => exact ih (C.step c.1 c.2).1

/-- In every run the two containers hold the same pairs, every call does what the schedule
allows, and a task is gone only when it was popped or removed. -/
theorem run_keeps_tasks (calls : List (TimePoint × Call Task)) (now : TimePoint) (call : Call Task) :
    let q : TaskQueue Task := init.run calls
    Consistent q ∧ q.schedule.Allows now call (q.step now call).1 (q.step now call).2.schedule ∧
      ∀ task, q.schedule.time task ≠ none → (q.step now call).2.schedule.time task = none →
        (call = .pop ∧ (q.step now call).1 = some task) ∨ ∃ pred, call = .remove pred ∧
        pred task = true := by
  intro q
  have C : Consistent q := consistent_init.run calls
  obtain ⟨-, hallows⟩ := C.step now call
  exact ⟨C, hallows, fun task h h' => hallows.lost h h'⟩

end TaskQueue

end WalbTools.Tasks
