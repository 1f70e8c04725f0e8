import WalbTools.Overlay

namespace WalbTools.AioUtil

open Overlay

variable {α γ : Type}

/-- A submitted IO: what it writes to the target, which is the device or, for a read, the
buffer, and whether it has been carried out. -/
structure AioData (α γ : Type) where
  key : Nat
  effect : α → Option γ
  executed : Bool

/-- What happens while the program waits: an IO is carried out, or it is reported. -/
inductive Completion where
  | execute (key : Nat)
  | report (key : Nat)

/-- `schedule` says what happens during each call of `io_getevents`. -/
structure Aio (α γ : Type) where
  queueSize : Nat
  nextKey : Nat
  pendingIOs : List (AioData α γ)
  completedIOs : List Nat
  target : α → γ
  schedule : Nat → List Completion
  time : Nat

namespace Aio

def MAX_AIO_REQ_NR : Nat := 1024

def init (queueSize : Nat) (target : α → γ) (schedule : Nat → List Completion) : Aio α γ :=
  ⟨min MAX_AIO_REQ_NR queueSize, 1, [], [], target, schedule, 0⟩

def queueUsage (a : Aio α γ) : Nat := a.pendingIOs.length

def isQueueFull (a : Aio α γ) : Bool := a.queueSize ≤ a.queueUsage

/-- `prepareWrite` or `prepareRead`, and `submit`: nothing happens in between. -/
def prepare (a : Aio α γ) (effect : α → Option γ) : Nat × Aio α γ :=
  if a.isQueueFull then (0, a)
  else (a.nextKey, { a with
    nextKey := a.nextKey + 1
    pendingIOs := a.pendingIOs ++ [⟨a.nextKey, effect, false⟩] })

def execute (a : Aio α γ) (key : Nat) : Aio α γ :=
  match a.pendingIOs.find? (fun d => d.key = key && !d.executed) with
  | none => a
  | some d =>
      { a with
        target := write d.effect a.target
        pendingIOs := a.pendingIOs.map fun d' => if d'.key = key then { d' with executed := true }
          else d' }

def report (a : Aio α γ) (key : Nat) : Aio α γ :=
  if key ∈ a.pendingIOs.map AioData.key then
    { a.execute key with
      pendingIOs := (a.execute key).pendingIOs.filter fun d => d.key ≠ key
      completedIOs := a.completedIOs ++ [key] }
  else a

def happen (a : Aio α γ) : Completion → Aio α γ
  | .execute key => a.execute key
  | .report key => a.report key

/-- `wait_(1)`: without a pending IO it does not return. -/
def wait_ (a : Aio α γ) : Option (Aio α γ) :=
  match a.pendingIOs with
  | [] => none
  | d :: _ =>
      let a' := (a.schedule a.time).foldl happen { a with time := a.time + 1 }
      if a'.pendingIOs.length < a.pendingIOs.length then some a' else some (a'.report d.key)

def waitForLoop (key : Nat) : Nat → Aio α γ → Option (Aio α γ)
  | 0, _ => none
  | fuel + 1, a =>
      if key ∈ a.completedIOs then some { a with completedIOs := a.completedIOs.erase key }
      else a.wait_.bind (waitForLoop key fuel)

/-- An unknown key is an error. -/
def waitFor (a : Aio α γ) (key : Nat) : Option (Aio α γ) :=
  if key ∈ a.completedIOs ∨ key ∈ a.pendingIOs.map AioData.key then
    waitForLoop key (a.pendingIOs.length + 1) a
  else none

def waitOneOrMore (a : Aio α γ) : Option (List Nat × Aio α γ) :=
  (if a.completedIOs = [] then a.wait_ else some a).map fun a' =>
    (a'.completedIOs, { a' with completedIOs := [] })

end Aio

def Settled (f : α → Option γ) (img : α → γ) : Prop := write f img = img

theorem settled_write (f : α → Option γ) (img : α → γ) : Settled f (write f img) := by
  funext a
  rw [write, write]
  cases f a <;> rfl

theorem Settled.write_of_disjoint {f g : α → Option γ} {img : α → γ} (h : Settled f img)
    (hd : Disjoint f g) :
    Settled f (write g img) := by
  unfold Settled at h ⊢
  rw [write_write, cover_comm hd, ← write_write, h]

namespace Aio

def keys (a : Aio α γ) : List Nat := a.pendingIOs.map AioData.key ++ a.completedIOs

/-- `owes` is what the IO of each key writes; `done` are the keys that were reported to
the program, which has not forgotten them yet. -/
structure Ok (a : Aio α γ) (owes : Nat → α → Option γ) (done : List Nat) : Prop where
  nodup : (a.keys ++ done).Nodup
  fresh : ∀ k ∈ a.keys ++ done, k < a.nextKey
  effect : ∀ d ∈ a.pendingIOs, d.effect = owes d.key
  executed : ∀ d ∈ a.pendingIOs, d.executed = true → Settled (owes d.key) a.target
  completed : ∀ k ∈ a.completedIOs ++ done, Settled (owes k) a.target
  disjoint : ∀ k ∈ a.keys ++ done, ∀ k' ∈ a.keys ++ done, k ≠ k' → Disjoint (owes k) (owes k')

/-- What an engine does by itself: it carries out IOs and reports them. -/
structure Moves (a a' : Aio α γ) : Prop where
  keys : a'.keys.Perm a.keys
  pending : ∀ d ∈ a'.pendingIOs, d.key ∈ a.pendingIOs.map AioData.key
  length : a'.pendingIOs.length ≤ a.pendingIOs.length
  frame : ∀ x, (∀ d ∈ a.pendingIOs, d.effect x = none) → a'.target x = a.target x
  effects : ∀ d ∈ a'.pendingIOs, ∃ d₀ ∈ a.pendingIOs, d₀.effect = d.effect
  queueSize : a'.queueSize = a.queueSize
  nextKey : a'.nextKey = a.nextKey

theorem Moves.refl (a : Aio α γ) : Moves a a :=
  ⟨.refl _, fun _ hd => List.mem_map_of_mem hd, le_rfl, fun _ _ => rfl, fun d hd => ⟨d, hd, rfl⟩,
    rfl, rfl⟩

theorem Moves.trans {a b c : Aio α γ} (hab : Moves a b) (hbc : Moves b c) : Moves a c where
  keys := hbc.keys.trans hab.keys
  pending d hd := by
    obtain ⟨d', hd', heq⟩ := List.mem_map.mp (hbc.pending d hd)
    rw [← heq]
    exact hab.pending d' hd'
  length := hbc.length.trans hab.length
  frame x hx := by
    rw [hbc.frame x, hab.frame x hx]
    intro d hd
    obtain ⟨d₀, hd₀, heq⟩ := hab.effects d hd
    rw [← heq]
    exact hx d₀ hd₀
  effects d hd := by
    obtain ⟨d₁, hd₁, heq₁⟩ := hbc.effects d hd
    obtain ⟨d₀, hd₀, heq₀⟩ := hab.effects d₁ hd₁
    exact ⟨d₀, hd₀, heq₀.trans heq₁⟩
  queueSize := hbc.queueSize.trans hab.queueSize
  nextKey := hbc.nextKey.trans hab.nextKey

variable {a a' : Aio α γ} {owes : Nat → α → Option γ} {done : List Nat} {key : Nat}

theorem execute_moves (a : Aio α γ) (key : Nat) : Moves a (a.execute key) := by
  unfold execute
  split
  next => exact .refl a
  next d hfind =>
    have hd : d ∈ a.pendingIOs := List.mem_of_find?_eq_some hfind
    have hkeys : (a.pendingIOs.map fun d' => if d'.key = key then { d' with executed := true }
        else d').map
          AioData.key = a.pendingIOs.map AioData.key := by
      rw [List.map_map]
      apply List.map_congr_left
      intro d' _
      rw [Function.comp]
      split <;> rfl
    refine ⟨?_, ?_, ?_, ?_, ?_, rfl, rfl⟩
    · rw [keys, hkeys, keys]
    · intro d' hd'
      rw [← hkeys]
      exact List.mem_map_of_mem hd'
    · rw [List.length_map]
    · intro x hx
      exact write_of_none (hx d hd)
    · intro d' hd'
      obtain ⟨d₀, hd₀, rfl⟩ := List.mem_map.mp hd'
      refine ⟨d₀, hd₀, ?_⟩
      split <;> rfl

theorem mem_keys_of_pending {d : AioData α γ} (hd : d ∈ a.pendingIOs) : d.key ∈ a.keys ++ done :=
  List.mem_append_left _ (List.mem_append_left _ (List.mem_map_of_mem hd))

theorem mem_keys_of_completed {k : Nat} (hk : k ∈ a.completedIOs ++ done) : k ∈ a.keys ++ done := by
  rw [keys, List.append_assoc]
  exact List.mem_append_right _ hk

theorem Ok.nodup_pending (h : Ok a owes done) : (a.pendingIOs.map AioData.key).Nodup := by
  have hn := h.nodup
  rw [keys, List.append_assoc] at hn
  exact hn.of_append_left

theorem Ok.completed_ne_pending (h : Ok a owes done) {d : AioData α γ} {k : Nat} (hd : d ∈ a.pendingIOs)
    (hk : k ∈ a.completedIOs ++ done) : k ≠ d.key := by
  have hn := h.nodup
  rw [keys, List.append_assoc] at hn
  rintro rfl
  exact List.disjoint_of_nodup_append hn (List.mem_map_of_mem hd) hk

theorem Ok.execute (h : Ok a owes done) (key : Nat) : Ok (a.execute key) owes done := by
  have hm := execute_moves a key
  have hperm := hm.keys.append_right done
  refine ⟨hperm.nodup_iff.mpr h.nodup, ?_, ?_, ?_, ?_, ?_⟩
  · intro k hk
    rw [hm.nextKey]
    exact h.fresh k (hperm.mem_iff.mp hk)
  · unfold Aio.execute
    split
    next => exact h.effect
    next d hfind =>
      intro d' hd'
      obtain ⟨d₀, hd₀, rfl⟩ := List.mem_map.mp hd'
      split <;> exact h.effect d₀ hd₀
  · unfold Aio.execute
    split
    next => exact h.executed
    next d hfind =>
      have hd : d ∈ a.pendingIOs := List.mem_of_find?_eq_some hfind
      have hkey : d.key = key := by
        have := List.find?_some hfind
        simp only [Bool.and_eq_true, decide_eq_true_eq] at this
        exact this.1
      intro d' hd' hex
      obtain ⟨d₀, hd₀, rfl⟩ := List.mem_map.mp hd'
      rw [h.effect d hd]
      by_cases hk : d₀.key = key
      · rw [if_pos hk, hk, hkey]
        exact settled_write _ _
      · rw [if_neg hk] at hex ⊢
        apply (h.executed d₀ hd₀ hex).write_of_disjoint
        apply h.disjoint _ (mem_keys_of_pending hd₀) _ (mem_keys_of_pending hd)
        rwa [hkey]
  · unfold Aio.execute
    split
    next => exact h.completed
    next d hfind =>
      have hd : d ∈ a.pendingIOs := List.mem_of_find?_eq_some hfind
      intro k hk
      rw [h.effect d hd]
      apply (h.completed k hk).write_of_disjoint
      exact h.disjoint _ (mem_keys_of_completed hk) _ (mem_keys_of_pending hd)
        (h.completed_ne_pending hd hk)
  · intro k hk k' hk'
    exact h.disjoint k (hperm.mem_iff.mp hk) k' (hperm.mem_iff.mp hk')

theorem execute_executed (a : Aio α γ) (key : Nat) :
    ∀ d ∈ (a.execute key).pendingIOs, d.key = key → d.executed = true := by
  unfold execute
  split
  next hfind =>
    intro d hd hk
    have := List.find?_eq_none.mp hfind d hd
    simpa [hk] using this
  next d₁ hfind =>
    intro d hd hk
    obtain ⟨d₀, hd₀, rfl⟩ := List.mem_map.mp hd
    by_cases hk₀ : d₀.key = key
    · rw [if_pos hk₀]
    · rw [if_neg hk₀] at hk
      exact absurd hk hk₀

theorem execute_keys (a : Aio α γ) (key : Nat) :
    (a.execute key).pendingIOs.map AioData.key = a.pendingIOs.map AioData.key := by
  unfold execute
  split
  · rfl
  · rw [List.map_map]
    apply List.map_congr_left
    intro d' _
    rw [Function.comp]
    split <;> rfl

theorem execute_completedIOs (a : Aio α γ) (key : Nat) :
    (a.execute key).completedIOs = a.completedIOs := by
  unfold execute
  split <;> rfl

theorem report_pendingIOs (hk : key ∈ a.pendingIOs.map AioData.key) :
    (a.report key).pendingIOs = (a.execute key).pendingIOs.filter fun d => d.key ≠ key := by
  rw [report, if_pos hk]

theorem Ok.report_moves (h : Ok a owes done) (hk : key ∈ a.pendingIOs.map AioData.key) :
    Moves a (a.report key) ∧ (a.report key).pendingIOs.length < a.pendingIOs.length := by
  have hm := execute_moves a key
  have hn := h.nodup_pending
  have hrest : (a.report key).pendingIOs.map AioData.key = (a.pendingIOs.map AioData.key).erase key := by
    rw [report_pendingIOs hk, hn.erase_eq_filter, ← execute_keys a key, List.filter_map]
    congr 1
    apply List.filter_congr
    intro d _
    by_cases hd : d.key = key <;> simp [hd]
  have hlen : (a.report key).pendingIOs.length + 1 = a.pendingIOs.length := by
    have h := List.length_erase_add_one hk
    rwa [← hrest, List.length_map, List.length_map] at h
  rw [report, if_pos hk] at *
  have hsub : ∀ d ∈ (a.execute key).pendingIOs.filter (fun d => d.key ≠ key),
      d ∈ (a.execute key).pendingIOs :=
    fun d hd => List.mem_of_mem_filter hd
  refine ⟨⟨?_, ?_, ?_, hm.frame, ?_, hm.queueSize, hm.nextKey⟩, ?_⟩
  · have hperm := (List.perm_cons_erase hk).symm
    rw [keys, hrest, keys]
    calc ((a.pendingIOs.map AioData.key).erase key ++ (a.completedIOs ++ [key])).Perm
          (key :: ((a.pendingIOs.map AioData.key).erase key ++ a.completedIOs)) := by
            rw [← List.append_assoc]
            exact List.perm_append_singleton _ _
      _ |>.Perm (a.pendingIOs.map AioData.key ++ a.completedIOs) := hperm.append_right _
  · intro d hd
    exact hm.pending d (hsub d hd)
  · omega
  · intro d hd
    exact hm.effects d (hsub d hd)
  · omega

theorem Ok.report (h : Ok a owes done) (hk : key ∈ a.pendingIOs.map AioData.key) :
    Ok (a.report key) owes done := by
  have hm := (h.report_moves hk).1
  have hex := h.execute key
  have hperm := hm.keys.append_right done
  have hkey : Settled (owes key) (a.execute key).target := by
    rw [← execute_keys a key] at hk
    obtain ⟨d, hd, rfl⟩ := List.mem_map.mp hk
    exact hex.executed d hd (execute_executed a d.key d hd rfl)
  refine ⟨hperm.nodup_iff.mpr h.nodup, ?_, ?_, ?_, ?_, ?_⟩
  · intro k hk'
    rw [hm.nextKey]
    exact h.fresh k (hperm.mem_iff.mp hk')
  · rw [report_pendingIOs hk]
    intro d hd
    exact hex.effect d (List.mem_of_mem_filter hd)
  · rw [report_pendingIOs hk, Aio.report, if_pos hk]
    intro d hd
    exact hex.executed d (List.mem_of_mem_filter hd)
  · rw [Aio.report, if_pos hk]
    intro k hk'
    have hcase : k ∈ (a.execute key).completedIOs ++ done ∨ k = key := by
      rw [execute_completedIOs]
      simp only [List.mem_append, List.mem_singleton] at hk' ⊢
      tauto
    rcases hcase with hk' | rfl
    · exact hex.completed k hk'
    · exact hkey
  · intro k hk₁ k' hk₂
    exact h.disjoint k (hperm.mem_iff.mp hk₁) k' (hperm.mem_iff.mp hk₂)

theorem Ok.happen (h : Ok a owes done) (c : Completion) :
    Ok (a.happen c) owes done ∧ Moves a (a.happen c) := by
  cases c with
  | execute key => exact ⟨h.execute key, execute_moves a key⟩
  | report key =>
      by_cases hk : key ∈ a.pendingIOs.map AioData.key
      · exact ⟨h.report hk, (h.report_moves hk).1⟩
      · rw [Aio.happen, Aio.report, if_neg hk]
        exact ⟨h, .refl a⟩

theorem Ok.foldl_happen (h : Ok a owes done) (cs : List Completion) :
    Ok (cs.foldl Aio.happen a) owes done ∧ Moves a (cs.foldl Aio.happen a) := by
  induction cs generalizing a with
  | nil => exact ⟨h, .refl a⟩
  | cons c cs ih =>
      obtain ⟨h₁, hm₁⟩ := h.happen c
      obtain ⟨h₂, hm₂⟩ := ih h₁
      exact ⟨h₂, hm₁.trans hm₂⟩

theorem Ok.wait_ (h : Ok a owes done) (hne : a.pendingIOs ≠ []) :
    ∃ a', a.wait_ = some a' ∧ Ok a' owes done ∧ Moves a a' ∧
      a'.pendingIOs.length < a.pendingIOs.length := by
  obtain ⟨d, ds, hds⟩ := List.exists_cons_of_ne_nil hne
  have htick : Ok { a with time := a.time + 1 } owes done := ⟨h.1, h.2, h.3, h.4, h.5, h.6⟩
  obtain ⟨hok, hm⟩ := htick.foldl_happen (a.schedule a.time)
  have hm' : Moves a ((a.schedule a.time).foldl Aio.happen { a with time := a.time + 1 }) :=
    ⟨hm.1, hm.2, hm.3, hm.4, hm.5, hm.6, hm.7⟩
  rw [Aio.wait_]
  split
  next hnil => exact absurd hnil hne
  next d' ds' hd' =>
    dsimp only
    split
    next hlt => exact ⟨_, rfl, hok, hm', hlt⟩
    next hge =>
      -- nothing was reported, so the first IO is still there
      have hlen := hm'.length
      have hmem : d'.key ∈ ((a.schedule a.time).foldl Aio.happen
          { a with time := a.time + 1 }).pendingIOs.map
            AioData.key := by
        have hsub := (hok.nodup_pending).subperm fun k hk => by
          obtain ⟨e, he, rfl⟩ := List.mem_map.mp hk
          exact hm'.pending e he
        apply (hsub.perm_of_length_le _).mem_iff.mpr
        · rw [hd', List.map_cons]
          exact List.mem_cons_self
        · rw [List.length_map, List.length_map]
          exact Nat.not_lt.mp hge
      obtain ⟨hr, hlt⟩ := hok.report_moves hmem
      exact ⟨_, rfl, hok.report hmem, hm'.trans hr, hlt.trans_le hlen⟩

structure Waited (a a' : Aio α γ) (key : Nat) : Prop where
  keys : a.keys.Perm (key :: a'.keys)
  frame : ∀ x, (∀ d ∈ a.pendingIOs, d.effect x = none) → a'.target x = a.target x
  queueSize : a'.queueSize = a.queueSize
  nextKey : a'.nextKey = a.nextKey

theorem Ok.waitForLoop (h : Ok a owes done) {fuel : Nat} (hfuel : a.pendingIOs.length < fuel)
    (hkey : key ∈ a.keys) :
    ∃ a', Aio.waitForLoop key fuel a = some a' ∧ Ok a' owes (key :: done) ∧ Waited a a' key := by
  induction fuel generalizing a with
  | zero => exact absurd hfuel (Nat.not_lt_zero _)
  | succ fuel ih =>
      rw [Aio.waitForLoop]
      by_cases hc : key ∈ a.completedIOs
      · rw [if_pos hc]
        have hperm : a.keys.Perm (key :: (a.pendingIOs.map AioData.key ++ a.completedIOs.erase key)) :=
          ((List.perm_cons_erase hc).append_left _).trans List.perm_middle
        have hall : (a.keys ++ done).Perm
            (a.pendingIOs.map AioData.key ++ a.completedIOs.erase key ++ key :: done) :=
          (hperm.append_right done).trans List.perm_middle.symm
        refine ⟨_, rfl, ⟨?_, ?_, h.effect, h.executed, ?_, ?_⟩, ⟨hperm, fun _ _ => rfl, rfl, rfl⟩⟩
        · exact hall.nodup_iff.mp h.nodup
        · intro k hk
          exact h.fresh k (hall.mem_iff.mpr hk)
        · intro k hk
          apply h.completed
          have hk' := List.mem_append.mp hk
          rw [List.mem_cons] at hk'
          rcases hk' with hk' | rfl | hk'
          · exact List.mem_append_left _ (List.mem_of_mem_erase hk')
          · exact List.mem_append_left _ hc
          · exact List.mem_append_right _ hk'
        · intro k hk k' hk'
          exact h.disjoint k (hall.mem_iff.mpr hk) k' (hall.mem_iff.mpr hk')
      · rw [if_neg hc]
        have hne : a.pendingIOs ≠ [] := by
          rintro hnil
          rw [keys, hnil] at hkey
          exact hc hkey
        obtain ⟨a₁, h₁, hok₁, hm₁, hlt⟩ := h.wait_ hne
        obtain ⟨a', h', hok', hw⟩ := ih hok₁ (by omega) (hm₁.keys.mem_iff.mpr hkey)
        refine ⟨a', by rw [h₁, Option.bind_some, h'], hok', ⟨hm₁.keys.symm.trans hw.keys, ?_, ?_, ?_⟩⟩
        · intro x hx
          rw [hw.frame x, hm₁.frame x hx]
          intro d hd
          obtain ⟨d₀, hd₀, heq⟩ := hm₁.effects d hd
          rw [← heq]
          exact hx d₀ hd₀
        · exact hw.queueSize.trans hm₁.queueSize
        · exact hw.nextKey.trans hm₁.nextKey

theorem Ok.waitFor (h : Ok a owes done) (hkey : key ∈ a.keys) :
    ∃ a', a.waitFor key = some a' ∧ Ok a' owes (key :: done) ∧ Waited a a' key := by
  rw [Aio.waitFor, if_pos]
  · exact h.waitForLoop (Nat.lt_succ_self _) hkey
  · exact (List.mem_append.mp hkey).symm

theorem Ok.waitOneOrMore (h : Ok a owes done) (hne : a.keys ≠ []) :
    ∃ ks a', a.waitOneOrMore = some (ks, a') ∧ Ok a' owes (ks ++ done) ∧
      a.keys.Perm (ks ++ a'.keys) ∧ ks ≠ [] ∧
      a'.pendingIOs.length ≤ a.pendingIOs.length ∧ a'.completedIOs = [] ∧
      (∀ x, (∀ d ∈ a.pendingIOs, d.effect x = none) → a'.target x = a.target x) ∧
      a'.queueSize = a.queueSize ∧ a'.nextKey = a.nextKey := by
  have hgot : ∃ a₁, (if a.completedIOs = [] then a.wait_ else some a) = some a₁ ∧ Ok a₁ owes done ∧
      Moves a a₁ ∧
        a₁.completedIOs ≠ [] := by
    by_cases hc : a.completedIOs = []
    · rw [if_pos hc]
      have hp : a.pendingIOs ≠ [] := by
        rintro hp
        rw [keys, hp, hc] at hne
        exact hne rfl
      obtain ⟨a₁, h₁, hok₁, hm₁, hlt⟩ := h.wait_ hp
      refine ⟨a₁, h₁, hok₁, hm₁, ?_⟩
      intro hc₁
      have hlen := hm₁.keys.length_eq
      rw [keys, keys, hc, hc₁] at hlen
      simp at hlen
      omega
    · rw [if_neg hc]
      exact ⟨a, rfl, h, .refl a, hc⟩
  obtain ⟨a₁, h₁, hok, hm, hc⟩ := hgot
  have hkeys : a₁.keys.Perm (a₁.completedIOs ++ a₁.pendingIOs.map AioData.key) := List.perm_append_comm
  have hall : (a₁.pendingIOs.map AioData.key ++ [] ++ (a₁.completedIOs ++ done)).Perm
      (a₁.keys ++ done) := by
    rw [List.append_nil, ← List.append_assoc, keys]
  refine ⟨a₁.completedIOs, { a₁ with completedIOs := [] }, ?_, ?_, ?_, hc, hm.length, rfl, hm.frame,
    hm.queueSize,
    hm.nextKey⟩
  · rw [Aio.waitOneOrMore, h₁, Option.map_some]
  · refine ⟨hall.nodup_iff.mpr hok.nodup, ?_, hok.effect, hok.executed, ?_, ?_⟩
    · intro k hk
      exact hok.fresh k (hall.mem_iff.mp hk)
    · intro k hk
      exact hok.completed k hk
    · intro k hk k' hk'
      exact hok.disjoint k (hall.mem_iff.mp hk) k' (hall.mem_iff.mp hk')
  · have hrest : Aio.keys { a₁ with completedIOs := [] } = a₁.pendingIOs.map AioData.key :=
      List.append_nil _
    rw [hrest]
    exact hm.keys.symm.trans hkeys

theorem Ok.init (queueSize : Nat) (target : α → γ) (schedule : Nat → List Completion)
    (owes : Nat → α → Option γ) : Ok (init queueSize target schedule) owes [] :=
  ⟨List.nodup_nil, nofun, nofun, nofun, nofun, nofun⟩

theorem Ok.forget {done' : List Nat} (h : Ok a owes done) (hsub : done'.Sublist done) :
    Ok a owes done' := by
  have hall : (a.keys ++ done').Sublist (a.keys ++ done) := hsub.append_left _
  refine ⟨h.nodup.sublist hall, ?_, h.effect, h.executed, ?_, ?_⟩
  · intro k hk
    exact h.fresh k (hall.subset hk)
  · intro k hk
    exact h.completed k ((hsub.append_left _).subset hk)
  · intro k hk k' hk'
    exact h.disjoint k (hall.subset hk) k' (hall.subset hk')

theorem Ok.congr_done {done' : List Nat} (h : Ok a owes done) (hperm : done'.Perm done) :
    Ok a owes done' := by
  have hall : (a.keys ++ done').Perm (a.keys ++ done) := hperm.append_left _
  refine ⟨hall.nodup_iff.mpr h.nodup, ?_, h.effect, h.executed, ?_, ?_⟩
  · intro k hk
    exact h.fresh k (hall.mem_iff.mp hk)
  · intro k hk
    exact h.completed k ((hperm.append_left _).mem_iff.mp hk)
  · intro k hk k' hk'
    exact h.disjoint k (hall.mem_iff.mp hk) k' (hall.mem_iff.mp hk')

theorem prepare_of_not_full (hfull : ¬ a.isQueueFull = true) (effect : α → Option γ) :
    a.prepare effect = (a.nextKey, { a with
      nextKey := a.nextKey + 1
      pendingIOs := a.pendingIOs ++ [⟨a.nextKey, effect, false⟩] }) := by
  rw [prepare, if_neg hfull]

theorem keys_prepare (hfull : ¬ a.isQueueFull = true) (effect : α → Option γ) :
    (a.prepare effect).2.keys.Perm (a.nextKey :: a.keys) := by
  rw [prepare_of_not_full hfull, keys, keys, List.map_append, List.append_assoc]
  exact List.perm_middle

theorem Ok.prepare (h : Ok a owes done) (hfull : ¬ a.isQueueFull = true) (effect : α → Option γ)
    (hd : ∀ k ∈ a.keys ++ done, Disjoint effect (owes k)) :
    Ok (a.prepare effect).2 (Function.update owes a.nextKey effect) done := by
  have hall : ((a.prepare effect).2.keys ++ done).Perm (a.nextKey :: (a.keys ++ done)) :=
    (keys_prepare hfull effect).append_right done
  have hne : ∀ k ∈ a.keys ++ done, k ≠ a.nextKey := fun k hk => (h.fresh k hk).ne
  have howes : ∀ k ∈ a.keys ++ done, Function.update owes a.nextKey effect k = owes k :=
    fun k hk => Function.update_of_ne (hne k hk) _ _
  refine ⟨?_, ?_, ?_, ?_, ?_, ?_⟩
  · rw [hall.nodup_iff, List.nodup_cons]
    exact ⟨fun hk => hne _ hk rfl, h.nodup⟩
  · intro k hk
    rw [prepare_of_not_full hfull]
    rcases List.mem_cons.mp (hall.mem_iff.mp hk) with rfl | hk
    · exact Nat.lt_succ_self _
    · exact (h.fresh k hk).trans (Nat.lt_succ_self _)
  · rw [prepare_of_not_full hfull]
    intro d hd'
    rcases List.mem_append.mp hd' with hd' | hd'
    · rw [howes _ (mem_keys_of_pending hd')]
      exact h.effect d hd'
    · rw [List.mem_singleton.mp hd']
      exact (Function.update_self a.nextKey effect owes).symm
  · rw [prepare_of_not_full hfull]
    intro d hd' hex
    rcases List.mem_append.mp hd' with hd' | hd'
    · rw [howes _ (mem_keys_of_pending hd')]
      exact h.executed d hd' hex
    · rw [List.mem_singleton.mp hd'] at hex
      cases hex
  · rw [prepare_of_not_full hfull]
    intro k hk
    rw [howes _ (mem_keys_of_completed hk)]
    exact h.completed k hk
  · intro k hk k' hk' hkk
    rcases List.mem_cons.mp (hall.mem_iff.mp hk) with rfl | hk
    · rcases List.mem_cons.mp (hall.mem_iff.mp hk') with rfl | hk'
      · exact absurd rfl hkk
      · rw [Function.update_self, howes k' hk']
        exact hd k' hk'
    · rcases List.mem_cons.mp (hall.mem_iff.mp hk') with rfl | hk'
      · rw [Function.update_self, howes k hk]
        exact (hd k hk).symm
      · rw [howes k hk, howes k' hk']
        exact h.disjoint k hk k' hk' hkk

end Aio

end WalbTools.AioUtil
