import Mathlib

namespace WalbTools.StopCommands

inductive StopState where
  | notStopping | waitingForEmpty | stopping | forceStopping
  deriving DecidableEq

namespace StopState

/-- The values are bits, so that several states can be accepted at once. -/
def toNat : StopState → Nat
  | notStopping => 1
  | waitingForEmpty => 2
  | stopping => 4
  | forceStopping => 8

end StopState

def verifyStopState (st : StopState) (accept : Nat) : Except String Unit :=
  if st.toNat &&& accept = 0 then .error "bad state" else .ok ()

def verifyNotStopping (st : StopState) : Except String Unit :=
  verifyStopState st StopState.notStopping.toNat

namespace Stopper

def changeFromNotStopping (st toState : StopState) : Except String (StopState × Bool) :=
  if toState = .notStopping then .error "Stopper:changeFromNotStopping:bad state"
  else if st = .notStopping then .ok (toState, true) else .ok (st, false)

def changeFromWaitingForEmpty (st toState : StopState) : Except String (StopState × Bool) :=
  if toState ≠ .stopping ∧
    toState ≠ .forceStopping then .error "Stopper:changeFromWaitingForEmpty:bad state"
  else if st = .waitingForEmpty then .ok (toState, true) else .ok (st, false)

/-- What the destructor leaves, whether or not the command was accepted. -/
def destroyed : StopState := .notStopping

end Stopper

/-- `waitForEmpty` is an option of the proxy only. -/
inductive StopOpt where
  | graceful | force | waitForEmpty
  deriving DecidableEq

def StopOpt.entry : StopOpt → StopState
  | graceful => .stopping
  | force => .forceStopping
  | waitForEmpty => .waitingForEmpty

/-- A stop command between the construction and the destruction of its `Stopper`.
An accepted one remembers the state that it asked for last. -/
inductive Phase where
  | accepted (want : StopState)
  | rejected
  deriving DecidableEq

structure VolState where
  stopState : StopState
  commands : Nat → Option Phase

def init : VolState := ⟨.notStopping, fun _ => none⟩

inductive Event where
  | enter (id : Nat) (opt : StopOpt)
  | emptied (id : Nat)
  | leave (id : Nat)
  deriving DecidableEq

/-- Steps of the commands; each is one atomic access to the flag. A command may
leave at any time, since each wait and each check may throw. -/
def VolState.step (s : VolState) : Event → Option VolState
  | .enter id opt =>
      if s.commands id ≠ none then none
      else
        match Stopper.changeFromNotStopping s.stopState opt.entry with
        | .error _ => none
        | .ok (st, true) => some ⟨st, Function.update s.commands id (some (.accepted opt.entry))⟩
        | .ok (st, false) => some ⟨st, Function.update s.commands id (some .rejected)⟩
  | .emptied id =>
      if s.commands id ≠ some (.accepted .waitingForEmpty) then none
      else
        match Stopper.changeFromWaitingForEmpty s.stopState .stopping with
        | .error _ => none
        | .ok (st, true) => some ⟨st, Function.update s.commands id (some (.accepted .stopping))⟩
        | .ok (st, false) => some ⟨st, Function.update s.commands id (some .rejected)⟩
  | .leave id =>
      if s.commands id = none then none
      else some ⟨Stopper.destroyed, Function.update s.commands id none⟩

def VolState.Accepted (s : VolState) (id : Nat) (want : StopState) : Prop :=
  s.commands id = some (.accepted want)

def VolState.Rejected (s : VolState) (id : Nat) : Prop := s.commands id = some .rejected

structure Step where
  pre : VolState
  event : Event
  post : VolState

/-- The steps of any interleaving of commands, and the state that they lead to. -/
inductive Run : List Step → VolState → Prop
  | nil : Run [] init
  | snoc {l : List Step} {s s' : VolState} {e : Event} (h : Run l s) (hs : s.step e = some s') :
      Run (l ++ [⟨s, e, s'⟩]) s'

/-- Stop commands exclude each other, and the flag is that of the accepted one. -/
structure Respected (t : Step) : Prop where
  exclusive : ∀ c c' w w', t.post.Accepted c w → t.post.Accepted c' w' → c = c'
  held : ∀ c w, t.post.Accepted c w → t.post.stopState = w ∧ w ≠ .notStopping
  no_task : ∀ c w, t.post.Accepted c w → verifyNotStopping t.post.stopState ≠ .ok ()
  rejected_enter : ∀ c opt, t.event = .enter c opt → t.post.Rejected c →
    t.post.stopState = t.pre.stopState
  rejected_leave : ∀ c, t.event = .leave c → t.pre.Rejected c → t.post.stopState = t.pre.stopState

def LeavesAlone (t : Step) : Prop :=
  ∀ c, t.event = .leave c → t.pre.Rejected c → ∀ c' w, ¬t.pre.Accepted c' w

structure Inv (s : VolState) : Prop where
  exclusive : ∀ c c' w w', s.Accepted c w → s.Accepted c' w' → c = c'
  held : ∀ c w, s.Accepted c w → s.stopState = w ∧ w ≠ .notStopping
  free : s.stopState ≠ .notStopping → ∃ c w, s.Accepted c w

variable {s s' : VolState} {e : Event} {id : Nat}

theorem verifyNotStopping_eq_ok_iff {st : StopState} :
    verifyNotStopping st = .ok () ↔ st = .notStopping := by
  cases st <;> decide

theorem entry_ne (opt : StopOpt) : opt.entry ≠ .notStopping := by
  cases opt <;> decide

/-- What a step can do: a command passes, a command is turned away, or one leaves. -/
theorem step_cases (h : s.step e = some s') :
    (∃ id opt, e = .enter id opt ∧ s.commands id = none ∧ s.stopState = .notStopping ∧
      s' = ⟨opt.entry, Function.update s.commands id (some (.accepted opt.entry))⟩) ∨
    (∃ id opt, e = .enter id opt ∧ s.commands id = none ∧ s.stopState ≠ .notStopping ∧
      s' = ⟨s.stopState, Function.update s.commands id (some .rejected)⟩) ∨
    (∃ id, e = .emptied id ∧ s.Accepted id .waitingForEmpty ∧ s.stopState = .waitingForEmpty ∧
      s' = ⟨.stopping, Function.update s.commands id (some (.accepted .stopping))⟩) ∨
    (∃ id, e = .emptied id ∧ s.Accepted id .waitingForEmpty ∧ s.stopState ≠ .waitingForEmpty ∧
      s' = ⟨s.stopState, Function.update s.commands id (some .rejected)⟩) ∨
    ∃ id, e = .leave id ∧ s.commands id ≠ none ∧ s' = ⟨.notStopping,
    Function.update s.commands id none⟩ := by
  cases e with
  | enter id opt =>
      rw [VolState.step] at h
      by_cases hid : s.commands id = none
      · rw [if_neg (not_not.2 hid), Stopper.changeFromNotStopping, if_neg (entry_ne opt)] at h
        by_cases hst : s.stopState = .notStopping
        · rw [if_pos hst] at h
          exact .inl ⟨id, opt, rfl, hid, hst, (Option.some.inj h).symm⟩
        · rw [if_neg hst] at h
          exact .inr (.inl ⟨id, opt, rfl, hid, hst, (Option.some.inj h).symm⟩)
      · rw [if_pos hid] at h
        cases h
  | emptied id =>
      rw [VolState.step] at h
      by_cases hid : s.commands id = some (.accepted .waitingForEmpty)
      · rw [if_neg (not_not.2 hid), Stopper.changeFromWaitingForEmpty, if_neg (by decide)] at h
        by_cases hst : s.stopState = .waitingForEmpty
        · rw [if_pos hst] at h
          exact .inr (.inr (.inl ⟨id, rfl, hid, hst, (Option.some.inj h).symm⟩))
        · rw [if_neg hst] at h
          exact .inr (.inr (.inr (.inl ⟨id, rfl, hid, hst, (Option.some.inj h).symm⟩)))
      · rw [if_pos hid] at h
        cases h
  | leave id =>
      rw [VolState.step] at h
      by_cases hid : s.commands id = none
      · rw [if_pos hid] at h
        cases h
      · rw [if_neg hid] at h
        exact .inr (.inr (.inr (.inr ⟨id, rfl, hid, (Option.some.inj h).symm⟩)))

theorem accepted_update {st : StopState} {ph : Option Phase} {c : Nat} {w : StopState} :
    (VolState.mk st (Function.update s.commands id ph)).Accepted c w ↔
      c = id ∧ ph = some (.accepted w) ∨ c ≠ id ∧ s.Accepted c w := by
  rw [VolState.Accepted, VolState.Accepted]
  by_cases hc : c = id
  · subst hc
    simp
  · simp [hc]

theorem inv_init : Inv init where
  exclusive := by rintro c c' w w' ⟨⟩
  held := by rintro c w ⟨⟩
  free h := absurd rfl h

/-- Only the destructor of a rejected command can break the invariant. -/
theorem Inv.step (h : Inv s) (hs : s.step e = some s') (ha : LeavesAlone ⟨s, e, s'⟩) : Inv s' := by
  rcases step_cases hs with ⟨id, opt, rfl, hid, hst, rfl⟩ | ⟨id, opt, rfl, hid, hst, rfl⟩ |
    ⟨id, rfl, hid, hst, rfl⟩ | ⟨id, rfl, hid, hst, rfl⟩ | ⟨id, rfl, hid, rfl⟩
  · -- nothing was accepted before, since the flag was free
    have hnone : ∀ c w, ¬s.Accepted c w := fun c w hc => (h.held c w hc).2 ((h.held c w hc).1 ▸ hst)
    refine ⟨fun c c' w w' hc hc' => ?_, fun c w hc => ?_, fun _ => ⟨id, opt.entry, ?_⟩⟩
    · rcases accepted_update.1 hc with ⟨rfl, -⟩ | ⟨-, hc⟩
      · rcases accepted_update.1 hc' with ⟨rfl, -⟩ | ⟨-, hc'⟩
        · rfl
        · exact absurd hc' (hnone c' w')
      · exact absurd hc (hnone c w)
    · rcases accepted_update.1 hc with ⟨-, hw⟩ | ⟨-, hc⟩
      · cases hw
        exact ⟨rfl, entry_ne opt⟩
      · exact absurd hc (hnone c w)
    · exact accepted_update.2 (.inl ⟨rfl, rfl⟩)
  · have hold : ∀ c w, (VolState.mk s.stopState (Function.update s.commands id
        (some .rejected))).Accepted c w ↔
          s.Accepted c w := by
      intro c w
      rw [accepted_update]
      constructor
      · rintro (⟨-, hw⟩ | ⟨-, hc⟩)
        · cases hw
        · exact hc
      · intro hc
        refine .inr ⟨?_, hc⟩
        rintro rfl
        cases hid.symm.trans hc
    refine ⟨fun c c' w w' hc hc' => ?_, fun c w hc => h.held c w ((hold c w).1 hc), fun hst => ?_⟩
    · exact h.exclusive c c' w w' ((hold c w).1 hc) ((hold c' w').1 hc')
    · obtain ⟨c, w, hc⟩ := h.free hst
      exact ⟨c, w, (hold c w).2 hc⟩
  · have honly : ∀ c w, s.Accepted c w → c = id := fun c w hc => h.exclusive c id w _ hc hid
    refine ⟨fun c c' w w' hc hc' => ?_, fun c w hc => ?_, fun _ => ⟨id, .stopping, ?_⟩⟩
    · rcases accepted_update.1 hc with ⟨rfl, -⟩ | ⟨hne, hc⟩
      · rcases accepted_update.1 hc' with ⟨rfl, -⟩ | ⟨hne, hc'⟩
        · rfl
        · exact absurd (honly c' w' hc') hne
      · exact absurd (honly c w hc) hne
    · rcases accepted_update.1 hc with ⟨-, hw⟩ | ⟨hne, hc⟩
      · cases hw
        exact ⟨rfl, by decide⟩
      · exact absurd (honly c w hc) hne
    · exact accepted_update.2 (.inl ⟨rfl, rfl⟩)
  · exact absurd (h.held id _ hid).1 hst
  · -- either the one accepted command leaves, or there is none
    have hnone : ∀ c w, c ≠ id → ¬s.Accepted c w := by
      intro c w hne hc
      cases hcmd : s.commands id with
      | none => exact hid hcmd
      | some ph =>
          cases ph with
          | accepted w' => exact hne (h.exclusive c id w w' hc hcmd)
          | rejected => exact ha id rfl hcmd c w hc
    have hgone : ∀ c w, ¬(VolState.mk .notStopping (Function.update s.commands id none)).Accepted c
        w := by
      intro c w hc
      rcases accepted_update.1 hc with ⟨-, hw⟩ | ⟨hne, hc⟩
      · cases hw
      · exact hnone c w hne hc
    exact ⟨fun c _ w _ hc => absurd hc (hgone c w), fun c w hc => absurd hc (hgone c w),
      fun hst => absurd rfl hst⟩

theorem Inv.respected (h : Inv s) (hs : s.step e = some s') (h' : Inv s') (ha : LeavesAlone ⟨s, e, s'⟩) :
    Respected ⟨s, e, s'⟩ where
  exclusive := h'.exclusive
  held := h'.held
  no_task c w hc hok := by
    obtain ⟨rfl, hne⟩ := h'.held c w hc
    exact hne (verifyNotStopping_eq_ok_iff.1 hok)
  rejected_enter := by
    rintro c opt rfl hrej
    rcases step_cases hs with ⟨id, opt, he, -, -, rfl⟩ | ⟨id, opt, -, -, -, rfl⟩ |
      ⟨id, he, -⟩ | ⟨id, he, -⟩ | ⟨id, he, -⟩
    · obtain ⟨rfl, rfl⟩ := Event.enter.inj he
      simp [VolState.Rejected] at hrej
    · rfl
    · cases he
    · cases he
    · cases he
  rejected_leave := by
    rintro c rfl hrej
    rcases step_cases hs with ⟨id, opt, he, -⟩ | ⟨id, opt, he, -⟩ | ⟨id, he, -⟩ | ⟨id, he, -⟩ | ⟨id,
      he, -, rfl⟩
    · cases he
    · cases he
    · cases he
    · cases he
    · by_contra hne
      obtain ⟨c', w, hc'⟩ := h.free fun hst => hne hst.symm
      exact ha c rfl hrej c' w hc'

theorem inv_run {l : List Step} (h : Run l s) (ha : ∀ t, t ∈ l → LeavesAlone t) :
    Inv s ∧ ∀ t, t ∈ l → Respected t := by
  induction h with
  | nil => exact ⟨inv_init, by simp⟩
  | snoc h hs ih =>
      rename_i l s s' e
      obtain ⟨hi, hr⟩ := ih fun t ht => ha t (List.mem_append_left _ ht)
      have hlast := ha ⟨s, e, s'⟩ (List.mem_append_right _ List.mem_cons_self)
      have hi' := hi.step hs hlast
      refine ⟨hi', fun t ht => ?_⟩
      rcases List.mem_append.1 ht with ht | ht
      · exact hr t ht
      · obtain rfl := List.mem_singleton.1 ht
        exact hi.respected hs hi' hlast

theorem run_step {l : List Step} (h : Run l s) {t : Step} (ht : t ∈ l) :
    t.pre.step t.event = some t.post := by
  induction h with
  | nil => cases ht
  | snoc h hs ih =>
      rcases List.mem_append.1 ht with ht | ht
      · exact ih ht
      · obtain rfl := List.mem_singleton.1 ht
        exact hs

/-- Stop commands exclude each other along a run exactly when rejected ones leave
only while none is accepted: their destructor resets the flag. -/
theorem respected_iff_leavesAlone {l : List Step} (h : Run l s) :
    (∀ t, t ∈ l → Respected t) ↔ ∀ t, t ∈ l → LeavesAlone t := by
  refine ⟨fun hr t ht c he hrej c' w hc' => ?_, fun ha => (inv_run h ha).2⟩
  have hne : c' ≠ c := by
    rintro rfl
    cases hrej.symm.trans hc'
  have hs := run_step h ht
  rw [he] at hs
  rcases step_cases hs with ⟨id, opt, he', -⟩ | ⟨id, opt, he', -⟩ | ⟨id, he', -⟩ | ⟨id, he',
    -⟩ | ⟨id, he', -, hpost⟩
  · cases he'
  · cases he'
  · cases he'
  · cases he'
  · obtain rfl := Event.leave.inj he'
    have hacc : t.post.Accepted c' w := by
      rw [hpost]
      exact accepted_update.2 (.inr ⟨hne, hc'⟩)
    obtain ⟨hst, hw⟩ := (hr t ht).held c' w hacc
    rw [hpost] at hst
    exact hw hst.symm

theorem respected_iff_leavesAlone_force :
    ∃ l s, Run l s ∧ l.map Step.event = [.enter 0 .force, .enter 1 .graceful, .leave 0, .leave 1] ∧
      ((∀ t, t ∈ l → Respected t) ↔ ∀ t, t ∈ l → LeavesAlone t) :=
  have h := Run.snoc (.snoc (.snoc (.snoc .nil rfl) rfl) rfl) rfl
  ⟨_, _, h, rfl, respected_iff_leavesAlone h⟩

/-- The second command is turned away, and its destructor undoes the force stop of
the first one, which is still waiting. -/
theorem rejected_command_resets_flag :
    ∃ l s, Run l s ∧ l.map Step.event = [.enter 0 .force, .enter 1 .graceful, .leave 1] ∧
      s.Accepted 0 .forceStopping ∧ verifyNotStopping s.stopState = .ok () ∧
      ¬∀ t, t ∈ l → Respected t := by
  have h := Run.snoc (.snoc (.snoc .nil (e := .enter 0 .force) rfl) (e := .enter 1 .graceful) rfl)
    (e := .leave 1) rfl
  refine ⟨_, _, h, rfl, rfl, rfl, fun hr => ?_⟩
  have hlast := hr _ (List.mem_append_right _ List.mem_cons_self)
  cases (hlast.held 0 .forceStopping rfl).1

end WalbTools.StopCommands
