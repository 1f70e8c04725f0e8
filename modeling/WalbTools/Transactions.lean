import Mathlib
import WalbTools.StopCommands

namespace WalbTools.Transactions

open StopCommands

/-- `edges` is the content of `map_`. -/
structure StateMachine (σ : Type) where
  edges : List (σ × σ)
  cur : σ
  inTrans : Bool

section

variable {σ : Type} [DecidableEq σ]

def StateMachine.changeNoLock (sm : StateMachine σ) (src dst : σ) : Option (StateMachine σ) :=
  if sm.cur ≠ src then none
  else if (src, dst) ∉ sm.edges then none
  else some { sm with cur := dst }

/-- With the new machine, the state `from_` that the transaction remembers. -/
def StateMachine.tryChange (sm : StateMachine σ) (src pass : σ) :
    Except String (Option (StateMachine σ × σ)) :=
  if sm.inTrans then .error "StateMachineTransaction:tryChange:already called"
  else .ok ((sm.changeNoLock src pass).map fun sm' => ({ sm' with inTrans := true }, sm.cur))

def StateMachine.transaction (sm : StateMachine σ) (src pass : σ) : Except String (StateMachine σ × σ) :=
  match sm.tryChange src pass with
  | .error e => .error e
  | .ok none => .error "StateMachineTransaction:bad state"
  | .ok (some r) => .ok r

def StateMachine.commit (sm : StateMachine σ) (dst : σ) : Except String (StateMachine σ) :=
  if sm.inTrans = false then .error "StateMachineTransaction:commit:tryChange is not called"
  else
    match sm.changeNoLock sm.cur dst with
    | none => .error "StateMachineTransaction:commit:can't change"
    | some sm' => .ok { sm' with inTrans := false }

/-- What the destructor of an open transaction leaves. -/
def StateMachine.rolledBack (sm : StateMachine σ) (src : σ) : StateMachine σ :=
  { sm with cur := src, inTrans := false }

variable {sm sm' : StateMachine σ} {src pass dst f : σ}

theorem changeNoLock_eq_some_iff :
    sm.changeNoLock src dst = some sm' ↔ sm.cur = src ∧ (src, dst) ∈ sm.edges ∧
      sm' = { sm with cur := dst } := by
  unfold StateMachine.changeNoLock
  by_cases hcur : sm.cur = src
  · by_cases hedge : (src, dst) ∈ sm.edges
    · simp only [hcur, hedge, ne_eq, not_true_eq_false, ↓reduceIte, Option.some.injEq, true_and]
      exact eq_comm
    · simp [hcur, hedge]
  · simp [hcur]

theorem transaction_eq_ok_iff :
    sm.transaction src pass = .ok (sm', f) ↔
      sm.inTrans = false ∧ sm.cur = src ∧ (src, pass) ∈ sm.edges ∧ f = src ∧
      sm' = { sm with cur := pass, inTrans := true } := by
  unfold StateMachine.transaction StateMachine.tryChange
  cases hin : sm.inTrans with
  | true => simp
  | false =>
    cases hch : sm.changeNoLock src pass with
    | none =>
      have hno : ∀ sm'', ¬sm.changeNoLock src pass = some sm'' := fun _ h => by rw [hch] at h; cases h
      have hnot := hno { sm with cur := pass }
      rw [changeNoLock_eq_some_iff] at hnot
      simp only [Bool.false_eq_true, ↓reduceIte, Option.map_none, reduceCtorEq, true_and, false_iff]
      rintro ⟨hc, he, -⟩
      exact hnot ⟨hc, he, rfl⟩
    | some sm'' =>
      obtain ⟨hc, he, rfl⟩ := changeNoLock_eq_some_iff.1 hch
      simp only [Bool.false_eq_true, ↓reduceIte, Option.map_some, Except.ok.injEq, Prod.mk.injEq,
        hc, he, true_and]
      exact ⟨fun ⟨h, h'⟩ => ⟨h'.symm, h.symm⟩, fun ⟨h, h'⟩ => ⟨h'.symm, h.symm⟩⟩

theorem commit_eq_ok_iff :
    sm.commit dst = .ok sm' ↔
      sm.inTrans = true ∧ (sm.cur, dst) ∈ sm.edges ∧ sm' = { sm with cur := dst, inTrans := false } := by
  unfold StateMachine.commit
  cases hin : sm.inTrans with
  | false => simp
  | true =>
    cases hch : sm.changeNoLock sm.cur dst with
    | none =>
      have hnot : ¬sm.changeNoLock sm.cur dst = some { sm with cur := dst } := by rw [hch]; exact nofun
      rw [changeNoLock_eq_some_iff] at hnot
      simp only [Bool.true_eq_false, ↓reduceIte, reduceCtorEq, true_and, false_iff]
      rintro ⟨he, -⟩
      exact hnot ⟨rfl, he, rfl⟩
    | some sm'' =>
      obtain ⟨-, he, rfl⟩ := changeNoLock_eq_some_iff.1 hch
      simp only [Bool.true_eq_false, ↓reduceIte, Except.ok.injEq, true_and, he]
      exact eq_comm

end

/-- The directory of a volume, and the state file in it. -/
inductive VolDir (σ : Type) where
  | missing | withoutState | withState (st : σ)
  deriving DecidableEq

/-- Without the state file the constructor of the volume's state throws. -/
def VolDir.initInner {σ : Type} (clear : σ) : VolDir σ → Option σ
  | missing => some clear
  | withoutState => none
  | withState st => some st

structure Volume (σ α : Type) where
  sm : StateMachine σ
  ac : α → Nat
  stopState : StopState
  disk : VolDir σ

inductive DiskOp (σ : Type) where
  | keep | makeDir | setState (st : σ) | removeState | rmdir

/-- `rmdirRecursive` may fail after the state file has gone, so that its two ends are told apart. -/
def DiskOp.run {σ : Type} : DiskOp σ → VolDir σ → Except String (VolDir σ)
  | keep, d => .ok d
  | makeDir, .missing => .ok .withoutState
  | makeDir, _ => .error "already exists"
  | setState _, .missing => .error "no such directory"
  | setState st, _ => .ok (.withState st)
  | removeState, .missing => .error "rmdirRecursive failed"
  | removeState, _ => .ok .withoutState
  | rmdir, .missing => .error "rmdirRecursive failed"
  | rmdir, _ => .ok .missing

/-- The statements of the handlers that use the shared state. A transaction starts in
a given state or, without one, in the current state. The write of a `commit` is the last
thing before it that can fail, and no other thread looks at the disk in between. -/
inductive Part (σ α : Type) where
  | verifyNotStopping
  | verifyActionNotRunning (actions : List α)
  | verifyStateIn (states : List σ)
  | stopper
  | changeFromNotStopping (toState : StopState)
  | waitUntil (states : List σ) (actions : List α)
  | transaction (src : Option σ) (pass : σ)
  | verifyDisk (st : σ)
  | write (op : DiskOp σ)
  | commit (op : DiskOp σ) (dst : σ)
  | actionCounter (a : α)
  | closeAction

/-- The objects of a handler whose destructors do something, and the locked sections
that it still has to run. -/
structure Thread (σ α : Type) where
  from_ : Option σ
  action : Option α
  stopper : Bool
  rest : List (List (Part σ α))

def Thread.start {σ α : Type} (handler : List (List (Part σ α))) : Thread σ α :=
  ⟨none, none, false, handler⟩

section

variable {σ α : Type} [DecidableEq σ] [DecidableEq α]

def verifyActionNotRunning (ac : α → Nat) (actions : List α) : Except String Unit :=
  if ∀ a ∈ actions, ac a = 0 then .ok () else .error "there are running action"

def verifyStateIn (state : σ) (states : List σ) : Except String Unit :=
  if state ∈ states then .ok () else .error "bad state"

def increment (ac : α → Nat) (a : α) : α → Nat := Function.update ac a (ac a + 1)

def decrement (ac : α → Nat) (a : α) : α → Nat := Function.update ac a (ac a - 1)

def Thread.destroyed (t : Thread σ α) (v : Volume σ α) : Volume σ α where
  sm := t.from_.elim v.sm v.sm.rolledBack
  ac := t.action.elim v.ac (decrement v.ac)
  stopState := if t.stopper then Stopper.destroyed else v.stopState
  disk := v.disk

def Part.run : Part σ α → Volume σ α → Thread σ α → Except String (Volume σ α × Thread σ α)
  | verifyNotStopping, v, t => do
      StopCommands.verifyNotStopping v.stopState
      .ok (v, t)
  | verifyActionNotRunning actions, v, t => do
      Transactions.verifyActionNotRunning v.ac actions
      .ok (v, t)
  | verifyStateIn states, v, t => do
      Transactions.verifyStateIn v.sm.cur states
      .ok (v, t)
  | stopper, v, t => .ok (v, { t with stopper := true })
  | changeFromNotStopping toState, v, t => do
      let (st, changed) ← Stopper.changeFromNotStopping v.stopState toState
      if changed then .ok ({ v with stopState := st }, t) else .error "already under stopping"
  | waitUntil states actions, v, t =>
      -- Until the predicate holds the thread sleeps without the lock, that is, takes no turn.
      if v.sm.cur ∈ states ∧ ∀ a ∈ actions, v.ac a = 0 then .ok (v, t) else .error "timeout"
  | transaction src pass, v, t => do
      let (sm, f) ← v.sm.transaction (src.getD v.sm.cur) pass
      .ok ({ v with sm := sm }, { t with from_ := some f })
  | verifyDisk st, v, t => if v.disk = .withState st then .ok (v, t) else .error "state is not"
  | write op, v, t => do
      let d ← op.run v.disk
      .ok ({ v with disk := d }, t)
  | commit op dst, v, t => do
      let d ← op.run v.disk
      let sm ← v.sm.commit dst
      .ok ({ v with sm := sm, disk := d }, { t with from_ := none })
  | actionCounter a, v, t => .ok ({ v with ac := increment v.ac a }, { t with action := some a })
  | closeAction, v, t =>
      .ok ({ v with ac := t.action.elim v.ac (decrement v.ac) }, { t with action := none })

/-- What a locked section leaves, and whether it was left at its end. -/
def runParts : List (Part σ α) → Volume σ α → Thread σ α → Volume σ α × Thread σ α × Bool
  | [], v, t => (v, t, true)
  | p :: ps, v, t =>
      match p.run v t with
      | .error _ => (v, t, false)
      | .ok (v', t') => runParts ps v' t'

structure VolState (σ α : Type) where
  vol : Volume σ α
  threads : List (Thread σ α)

inductive Event (σ α : Type) where
  | call (handler : List (List (Part σ α)))
  | turn (i : Nat) (stop : Option Nat)
  | leave (i : Nat)
  | restart

def restarted (edges : List (σ × σ)) (cur : σ) (disk : VolDir σ) : VolState σ α :=
  ⟨⟨⟨edges, cur, false⟩, fun _ => 0, .notStopping, disk⟩, []⟩

/-- A step of the server. The mutex is recursive and held during a whole section, so
that a section is one step; an exception may end it after any number of its parts
(`stop`), or the handler between two sections (`leave`, also its return). A restart
finds the disk only, and has no state of the volume without a state file. -/
def VolState.step (clear : σ) (s : VolState σ α) : Event σ α → Option (VolState σ α)
  | .call handler => some { s with threads := s.threads ++ [.start handler] }
  | .turn i stop =>
      match s.threads[i]? with
      | none => none
      | some t =>
        match t.rest with
        | [] => none
        | ps :: rest =>
          match runParts (stop.elim ps ps.take) s.vol { t with rest := rest } with
          | (v, t', done) =>
            if done && stop.isNone then some ⟨v, s.threads.set i t'⟩
            else some ⟨t'.destroyed v, s.threads.eraseIdx i⟩
  | .leave i =>
      match s.threads[i]? with
      | none => none
      | some t => some ⟨t.destroyed s.vol, s.threads.eraseIdx i⟩
  | .restart => (s.vol.disk.initInner clear).map fun cur => restarted s.vol.sm.edges cur s.vol.disk

/-- What is to be shown of a server: the actions that may run in a state, the sets of
actions of which one runs at a time, and the states in memory that may stand over a
state on disk while no transaction is open. -/
structure Rules (σ α : Type) where
  edges : List (σ × σ)
  clear : σ
  steady : List σ
  allowed : σ → List α
  exclusive : List (List α)
  agrees : List (σ × VolDir σ)

/-- What a thread knows between two parts. Without an open transaction, `curs` and `zero`
hold as long as it keeps the lock; with one, `bases` are the states that it may go back
to, each with the state on disk. -/
structure Known (σ α : Type) where
  holds : Bool
  busy : Bool
  curs : Option (List σ)
  zero : List α
  bases : List (σ × VolDir σ)
  deriving DecidableEq

def Rules.sources (R : Rules σ α) (src : Option σ) (pass : σ) : List σ :=
  src.elim ((R.edges.filter (·.2 = pass)).map Prod.fst) fun f => [f]

def written (op : DiskOp σ) (bases : List (σ × VolDir σ)) : List (σ × VolDir σ) :=
  bases.filterMap fun b => (op.run b.2).toOption.map (b.1, ·)

namespace Known

def start : Known σ α := ⟨false, false, none, [], []⟩

abbrev CanMove (R : Rules σ α) (K : Known σ α) (c d : σ) : Prop :=
  ∀ a ∈ R.allowed c, a ∈ R.allowed d ∨ a ∈ K.zero

abbrev OnCurs (K : Known σ α) (P : σ → Prop) : Prop := K.curs.elim False fun cs => ∀ c ∈ cs, P c

instance (K : Known σ α) (P : σ → Prop) [DecidablePred P] : Decidable (K.OnCurs P) :=
  match h : K.curs with
  | none => isFalse (by rw [OnCurs, h]; exact id)
  | some cs => decidable_of_iff (∀ c ∈ cs, P c) (by rw [OnCurs, h]; rfl)

abbrev Sound (R : Rules σ α) (K : Known σ α) : Prop :=
  K.holds = true → (K.OnCurs fun c => c ∉ R.steady ∧ ∀ b ∈ K.bases, (b.1, c) ∈ R.edges ∧
    K.CanMove R c b.1) ∧
    ∀ b ∈ K.bases, b ∈ R.agrees

def narrow (K : Known σ α) (states : List σ) : Known σ α :=
  { K with curs := some (K.curs.elim states fun cs => cs.filter (· ∈ states)) }

def unlocked (K : Known σ α) : Known σ α :=
  { K with zero := [], curs := if K.holds then K.curs else none }

def transfer (R : Rules σ α) (K : Known σ α) : Part σ α → Option (Known σ α)
  | .verifyNotStopping | .stopper | .changeFromNotStopping _ => some K
  | .verifyActionNotRunning actions => some { K with zero := K.zero ++ actions }
  | .verifyStateIn states => some (K.narrow states)
  | .waitUntil states actions => some { K.narrow states with zero := K.zero ++ actions }
  | .transaction src pass =>
      if K.holds = false ∧ ∀ f ∈ R.sources src pass, K.CanMove R f pass then
        some { K with
          holds := true, curs := some [pass], bases := R.agrees.filter (·.1 ∈ R.sources src pass) }
      else none
  | .verifyDisk st => some { K with bases := K.bases.filter (·.2 = .withState st) }
  | .write op => if K.holds then some { K with bases := written op K.bases } else none
  | .commit op dst =>
      if K.holds = true ∧ (K.OnCurs fun c => (c, dst) ∈ R.edges → K.CanMove R c dst) ∧
          ∀ b ∈ written op K.bases, (dst, b.2) ∈ R.agrees then
        some { K with holds := false, curs := some [dst], bases := [] }
      else none
  | .actionCounter a =>
      if K.busy = false ∧ a ∈ K.zero ∧ (K.OnCurs fun c => a ∈ R.allowed c) ∧
          ∀ g ∈ R.exclusive, a ∈ g → ∀ b ∈ g, b ∈ K.zero then
        some { K with busy := true, zero := K.zero.filter (· ≠ a) }
      else none
  | .closeAction => some { K with busy := false }

def next (R : Rules σ α) (K : Known σ α) (p : Part σ α) : Option (Known σ α) :=
  match K.transfer R p with
  | none => none
  | some K' => if K'.Sound R then some K' else none

def after (R : Rules σ α) : List (Part σ α) → Known σ α → Option (Known σ α)
  | [], K => some K
  | p :: ps, K =>
      match K.next R p with
      | none => none
      | some K' => after R ps K'

/-- The handler keeps to the rules, whatever other threads do between its sections. -/
def passes (R : Rules σ α) : List (List (Part σ α)) → Known σ α → Bool
  | [], _ => true
  | ps :: rest, K =>
      match after R ps K with
      | none => false
      | some K' => decide (K'.unlocked.Sound R) && passes R rest K'.unlocked

end Known

/-- A restart over a disk that agrees with some state finds one that agrees with it. -/
def Rules.Restarts (R : Rules σ α) : Prop :=
  ∀ x ∈ R.agrees, ∀ cur ∈ x.2.initInner R.clear, (cur, x.2) ∈ R.agrees

structure Known.Describes (K : Known σ α) (v : Volume σ α) (t : Thread σ α) : Prop where
  holds : K.holds = t.from_.isSome
  busy : K.busy = t.action.isSome
  curs : ∀ cs, K.curs = some cs → v.sm.cur ∈ cs
  zero : ∀ a ∈ K.zero, v.ac a = 0
  bases : ∀ f, t.from_ = some f → (f, v.disk) ∈ K.bases

/-- The shared state beside one thread and others, of which `o a` run the action `a`
and `n` have a transaction open. -/
structure Fits (R : Rules σ α) (v : Volume σ α) (t : Thread σ α) (o : α → Nat) (n : Nat) : Prop where
  edges : v.sm.edges = R.edges
  counted : ∀ a, v.ac a = o a + if t.action = some a then 1 else 0
  owned : (n + if t.from_.isSome = true then 1 else 0) = if v.sm.inTrans = true then 1 else 0
  allowed : ∀ a, v.ac a ≠ 0 → a ∈ R.allowed v.sm.cur
  single : ∀ a, v.ac a ≤ 1
  exclusive : ∀ g ∈ R.exclusive, ∀ a ∈ g, ∀ b ∈ g, v.ac a ≠ 0 → v.ac b ≠ 0 → a = b
  agrees : v.sm.inTrans = false → (v.sm.cur, v.disk) ∈ R.agrees
  moving : v.sm.inTrans = true → v.sm.cur ∉ R.steady

variable {R : Rules σ α} {K K' : Known σ α} {v v' : Volume σ α} {t t' : Thread σ α} {o : α → Nat}
  {n : Nat}

omit [DecidableEq σ] [DecidableEq α] in
theorem onCurs_cur {P : σ → Prop} (hK : K.Describes v t) (h : K.OnCurs P) : P v.sm.cur := by
  unfold Known.OnCurs at h
  cases hc : K.curs with
  | none =>
    rw [hc] at h
    exact h.elim
  | some cs =>
    rw [hc] at h
    exact h _ (hK.curs cs hc)

omit [DecidableEq α] in
theorem Known.Describes.narrow {states : List σ} (hK : K.Describes v t) (h : v.sm.cur ∈ states) :
    (K.narrow states).Describes v t where
  holds := hK.holds
  busy := hK.busy
  zero := hK.zero
  bases := hK.bases
  curs cs hcs := by
    cases Option.some.inj hcs
    cases hc : K.curs with
    | none => exact h
    | some cs' => simpa [h] using hK.curs cs' hc

omit [DecidableEq σ] [DecidableEq α] in
theorem Known.Describes.zero_append {actions : List α} (hK : K.Describes v t)
    (h : ∀ a ∈ actions, v.ac a = 0) :
    { K with zero := K.zero ++ actions }.Describes v t where
  holds := hK.holds
  busy := hK.busy
  curs := hK.curs
  bases := hK.bases
  zero a ha := (List.mem_append.1 ha).elim (hK.zero a) (h a)

omit [DecidableEq α] in
theorem verifyActionNotRunning_ok {ac : α → Nat} {actions : List α} {u : Unit}
    (h : verifyActionNotRunning ac actions = .ok u) :
    ∀ a ∈ actions, ac a = 0 := by
  unfold verifyActionNotRunning at h
  split at h
  · assumption
  · cases h

theorem verifyStateIn_ok {c : σ} {states : List σ} {u : Unit} (h : verifyStateIn c states = .ok u) :
    c ∈ states := by
  unfold verifyStateIn at h
  split at h
  · assumption
  · cases h

omit [DecidableEq σ] in
/-- What is running when the current state becomes `d` may run there. -/
theorem allowed_of_canMove {d : σ} (hK : K.Describes v t) (hf : Fits R v t o n)
    (h : K.CanMove R v.sm.cur d) :
    ∀ a, v.ac a ≠ 0 → a ∈ R.allowed d := fun a ha =>
  (h a (hf.allowed a ha)).resolve_right fun hz => ha (hK.zero a hz)

omit [DecidableEq σ] in
theorem Fits.inTrans_of_from (hf : Fits R v t o n) (h : t.from_.isSome = true) :
    v.sm.inTrans = true ∧ n = 0 := by
  have := hf.owned
  rw [if_pos h] at this
  cases hin : v.sm.inTrans with
  | false =>
    rw [hin] at this
    simp at this
  | true =>
    rw [hin, if_pos rfl] at this
    exact ⟨rfl, by omega⟩

omit [DecidableEq σ] in
theorem mem_written {op : DiskOp σ} {bases : List (σ × VolDir σ)} {f : σ} {d d' : VolDir σ}
    (h : (f, d) ∈ bases)
    (hop : op.run d = .ok d') : (f, d') ∈ written op bases :=
  List.mem_filterMap.2 ⟨(f, d), h, by rw [hop]; rfl⟩

/-- What a part may do to the shared state: it is left as the rules and the thread's new
knowledge say, and the other threads' transactions are not touched. -/
structure Turned (R : Rules σ α) (K' : Known σ α) (v v' : Volume σ α) (t t' : Thread σ α)
    (o : α → Nat) (n : Nat) : Prop where
  fits : Fits R v' t' o n
  describes : K'.Describes v' t'
  rest : t'.rest = t.rest
  apart : n ≠ 0 → v'.sm.cur = v.sm.cur ∧ v'.disk = v.disk

omit [DecidableEq σ] in
theorem Turned.of_same (hf : Fits R v t o n) (hK : K'.Describes v t) : Turned R K' v v t t o n :=
  ⟨hf, hK, rfl, fun _ => ⟨rfl, rfl⟩⟩

theorem transaction_turned {src : Option σ} {pass : σ} {sm : StateMachine σ} {f : σ}
    (hrun : v.sm.transaction (src.getD v.sm.cur) pass = .ok (sm, f))
    (hK : K.Describes v t) (hf : Fits R v t o n)
    (hmove : ∀ c ∈ R.sources src pass, K.CanMove R c pass)
    (hbusy : pass ∉ R.steady) :
    Turned R { K with
      holds := true, curs := some [pass], bases := R.agrees.filter (·.1 ∈ R.sources src pass) } v
      { v with sm := sm } t { t with from_ := some f } o n := by
  obtain ⟨hin, hcur, hedge, hfrom, rfl⟩ := transaction_eq_ok_iff.1 hrun
  have hsource : v.sm.cur ∈ R.sources src pass := by
    cases src with
    | none =>
      rw [hf.edges] at hedge
      exact List.mem_map.2 ⟨_, List.mem_filter.2 ⟨hedge, by simp⟩, rfl⟩
    | some c => exact List.mem_singleton.2 hcur
  have howned := hf.owned
  rw [hin] at howned
  have hn : n = 0 := by
    simp only [Bool.false_eq_true, ↓reduceIte] at howned
    omega
  have hallowed := allowed_of_canMove hK hf (hmove _ hsource)
  refine ⟨⟨hf.edges, hf.counted, by simp [hn], hallowed, hf.single, hf.exclusive, nofun,
    fun _ => hbusy⟩, ?_, rfl,
    fun h => absurd hn h⟩
  · refine ⟨rfl, hK.busy, fun cs hcs => ?_, hK.zero, fun c hc => ?_⟩
    · cases Option.some.inj hcs
      exact List.mem_singleton_self _
    · cases Option.some.inj hc
      rw [hfrom, ← hcur]
      exact List.mem_filter.2 ⟨hf.agrees hin, by simpa using hsource⟩

omit [DecidableEq σ] in
theorem write_turned {op : DiskOp σ} {d : VolDir σ} (hrun : op.run v.disk = .ok d) (hK : K.Describes v t)
    (hf : Fits R v t o n) (hholds : K.holds = true) :
    Turned R { K with bases := written op K.bases } v { v with disk := d } t t o n := by
  have hfrom : t.from_.isSome = true := hK.holds ▸ hholds
  obtain ⟨hin, hn⟩ := hf.inTrans_of_from hfrom
  refine ⟨⟨hf.edges, hf.counted, hf.owned, hf.allowed, hf.single, hf.exclusive, fun h => ?_, hf.moving⟩,
    ⟨hK.holds, hK.busy, hK.curs, hK.zero, fun c hc => mem_written (hK.bases c hc) hrun⟩, rfl,
    fun h => absurd hn h⟩
  exact absurd (h.symm.trans hin) (by decide)

theorem commit_turned {op : DiskOp σ} {d : VolDir σ} {dst : σ} {sm : StateMachine σ}
    (hdisk : op.run v.disk = .ok d)
    (hrun : v.sm.commit dst = .ok sm) (hK : K.Describes v t) (hf : Fits R v t o n)
    (hholds : K.holds = true)
    (hmove : K.OnCurs fun c => (c, dst) ∈ R.edges → K.CanMove R c dst)
    (hagrees : ∀ b ∈ written op K.bases, (dst, b.2) ∈ R.agrees) :
    Turned R { K with holds := false, curs := some [dst], bases := [] } v
      { v with sm := sm, disk := d } t
      { t with from_ := none } o n := by
  obtain ⟨hin, hedge, rfl⟩ := commit_eq_ok_iff.1 hrun
  have hfrom : t.from_.isSome = true := hK.holds ▸ hholds
  obtain ⟨c, hc⟩ := Option.isSome_iff_exists.1 hfrom
  obtain ⟨-, hn⟩ := hf.inTrans_of_from hfrom
  rw [hf.edges] at hedge
  have hallowed := allowed_of_canMove hK hf (onCurs_cur hK hmove hedge)
  refine ⟨⟨hf.edges, hf.counted, by simp [hn], hallowed, hf.single, hf.exclusive, fun _ => ?_,
    nofun⟩, ?_, rfl,
    fun h => absurd hn h⟩
  · exact hagrees _ (mem_written (hK.bases c hc) hdisk)
  · refine ⟨rfl, hK.busy, fun cs hcs => ?_, hK.zero, nofun⟩
    cases Option.some.inj hcs
    exact List.mem_singleton_self _

omit [DecidableEq σ] in
theorem actionCounter_turned {a : α} (hK : K.Describes v t) (hf : Fits R v t o n)
    (hbusy : K.busy = false) (hzero : a ∈ K.zero)
    (hallowed : K.OnCurs fun c => a ∈ R.allowed c)
    (hexclusive : ∀ g ∈ R.exclusive, a ∈ g → ∀ b ∈ g, b ∈ K.zero) :
    Turned R { K with busy := true, zero := K.zero.filter (· ≠ a) } v { v with ac := increment v.ac a } t
      { t with action := some a } o n := by
  have hidle : t.action = none := Option.isNone_iff_eq_none.1 (by simpa [hK.busy] using hbusy)
  have ha := hK.zero a hzero
  have hself : increment v.ac a a = 1 := by rw [increment, Function.update_self, ha]
  have hother : ∀ b, b ≠ a → increment v.ac a b = v.ac b := fun b hb => Function.update_of_ne hb _ _
  have hrunning : ∀ b, increment v.ac a b ≠ 0 → b = a ∨ v.ac b ≠ 0 := fun b hb => by
    by_cases hba : b = a
    · exact .inl hba
    · exact .inr (hother b hba ▸ hb)
  refine ⟨⟨hf.edges, fun b => ?_, hf.owned, fun b hb => ?_, fun b => ?_,
    fun g hg b hb c hc hb' hc' => ?_, hf.agrees, hf.moving⟩,
    ⟨hK.holds, rfl, hK.curs, fun b hb => ?_, hK.bases⟩, rfl, fun _ => ⟨rfl, rfl⟩⟩
  · have hcount := hf.counted b
    rw [hidle] at hcount
    dsimp only
    by_cases hba : b = a
    · subst hba
      rw [hself]
      simp only [reduceCtorEq, ↓reduceIte, ha] at hcount ⊢
      omega
    · rw [hother b hba, hcount]
      simp [Ne.symm hba]
  · rcases hrunning b hb with rfl | hb
    · exact onCurs_cur hK hallowed
    · exact hf.allowed b hb
  · dsimp only
    by_cases hba : b = a
    · rw [hba, hself]
    · rw [hother b hba]
      exact hf.single b
  · by_cases hba : b = a
    · subst hba
      exact ((hrunning c hc').resolve_right fun h => h (hK.zero c (hexclusive g hg hb c hc))).symm
    · by_cases hca : c = a
      · subst hca
        exact absurd (hK.zero b (hexclusive g hg hc b hb)) ((hrunning b hb').resolve_left hba)
      · dsimp only at hb' hc'
        rw [hother b hba] at hb'
        rw [hother c hca] at hc'
        exact hf.exclusive g hg b hb c hc hb' hc'
  · obtain ⟨hb, hba⟩ := List.mem_filter.1 hb
    show increment v.ac a b = 0
    rw [hother b (by simpa using hba), hK.zero b hb]

omit [DecidableEq σ] in
theorem Fits.closed (hf : Fits R v t o n) : t.action.elim v.ac (decrement v.ac) = o := by
  funext b
  have hcount := hf.counted b
  cases ha : t.action with
  | none => simpa [ha] using hcount
  | some a =>
    rw [ha] at hcount
    show decrement v.ac a b = o b
    by_cases hba : b = a
    · subst hba
      rw [decrement, Function.update_self, hcount, if_pos rfl, Nat.add_sub_cancel]
    · rw [decrement, Function.update_of_ne hba, hcount,
        if_neg fun h => hba (Option.some.inj h).symm, Nat.add_zero]

omit [DecidableEq σ] in
theorem Fits.others_le (hf : Fits R v t o n) (a : α) : o a ≤ v.ac a :=
  hf.counted a ▸ Nat.le_add_right _ _

omit [DecidableEq σ] in
theorem Fits.others_ne (hf : Fits R v t o n) {a : α} (h : o a ≠ 0) : v.ac a ≠ 0 := fun h0 =>
  h (Nat.le_zero.1 (h0 ▸ hf.others_le a))

omit [DecidableEq σ] in
theorem closeAction_turned (hK : K.Describes v t) (hf : Fits R v t o n) :
    Turned R { K with busy := false } v { v with ac := t.action.elim v.ac (decrement v.ac) } t
      { t with action := none } o n := by
  rw [hf.closed]
  exact ⟨⟨hf.edges, fun _ => rfl, hf.owned, fun a ha => hf.allowed a (hf.others_ne ha),
    fun a => (hf.others_le a).trans (hf.single a),
    fun g hg a ha b hb hna hnb => hf.exclusive g hg a ha b hb (hf.others_ne hna) (hf.others_ne hnb),
    hf.agrees, hf.moving⟩,
    ⟨hK.holds, rfl, hK.curs, fun a ha => Nat.le_zero.1 (hK.zero a ha ▸ hf.others_le a), hK.bases⟩,
    rfl, fun _ => ⟨rfl, rfl⟩⟩

omit [DecidableEq σ] in
/-- A thread that ends, whatever it had open, leaves the others a state that fits. -/
theorem destroyed_fits (hK : K.Describes v t) (hsound : K.Sound R) (hf : Fits R v t o n) :
    Fits R (t.destroyed v) (.start []) o n ∧ (n ≠ 0 → (t.destroyed v).sm.cur = v.sm.cur ∧
      (t.destroyed v).disk = v.disk) := by
  have hac : (t.destroyed v).ac = o := hf.closed
  have hne : ∀ {a}, (t.destroyed v).ac a ≠ 0 → v.ac a ≠ 0 := fun h => hf.others_ne (hac ▸ h)
  have hcounted : ∀ a, (t.destroyed v).ac a = o a + if (.start [] : Thread σ α).action =
      some a then 1 else 0 := fun a => by
    rw [hac]
    rfl
  have hsingle : ∀ a, (t.destroyed v).ac a ≤ 1 := fun a => by
    rw [hac]
    exact (hf.others_le a).trans (hf.single a)
  have hexclusive : ∀ g ∈ R.exclusive, ∀ a ∈ g, ∀ b ∈ g, (t.destroyed v).ac a ≠ 0 →
      (t.destroyed v).ac b ≠ 0 → a = b :=
    fun g hg a ha b hb hna hnb => hf.exclusive g hg a ha b hb (hne hna) (hne hnb)
  cases hfrom : t.from_ with
  | none =>
    have hsm : (t.destroyed v).sm = v.sm := by rw [Thread.destroyed, hfrom]; rfl
    refine ⟨⟨hsm ▸ hf.edges, hcounted, ?_, fun a ha => hsm ▸ hf.allowed a (hne ha), hsingle,
      hexclusive, hsm ▸ hf.agrees,
      hsm ▸ hf.moving⟩, fun _ => ⟨by rw [hsm], rfl⟩⟩
    have howned := hf.owned
    rw [hfrom] at howned
    rw [hsm]
    exact howned
  | some f =>
    have hsm : (t.destroyed v).sm = v.sm.rolledBack f := by rw [Thread.destroyed, hfrom]; rfl
    have hsome : t.from_.isSome = true := by rw [hfrom]; rfl
    obtain ⟨-, hn⟩ := hf.inTrans_of_from hsome
    obtain ⟨hcurs, hbases⟩ := hsound (hK.holds ▸ hsome)
    have hbase := hK.bases f hfrom
    have hallowed := allowed_of_canMove hK hf ((onCurs_cur hK hcurs).2 _ hbase).2
    refine ⟨⟨hsm ▸ hf.edges, hcounted, ?_, fun a ha => hsm ▸ hallowed a (hne ha), hsingle, hexclusive,
      fun _ => hsm ▸ hbases _ hbase, ?_⟩, fun h => absurd hn h⟩
    · rw [hn, hsm]
      rfl
    · rw [hsm]
      exact nofun

theorem next_eq_some {p : Part σ α} (h : K.next R p = some K') :
    K.transfer R p = some K' ∧ K'.Sound R := by
  unfold Known.next at h
  split at h
  · cases h
  · split at h
    · cases h
      exact ⟨by assumption, by assumption⟩
    · cases h

/-- What a part that does not throw has found, and what it leaves. -/
def Part.Ran : Part σ α → Volume σ α → Thread σ α → Volume σ α → Thread σ α → Prop
  | verifyNotStopping, v, t, v', t' => v' = v ∧ t' = t
  | verifyActionNotRunning actions, v, t, v', t' =>
      Transactions.verifyActionNotRunning v.ac actions = .ok () ∧ v' = v ∧ t' = t
  | verifyStateIn states, v, t, v', t' =>
      Transactions.verifyStateIn v.sm.cur states = .ok () ∧ v' = v ∧ t' = t
  | stopper, v, t, v', t' => v' = { v with stopState := v.stopState } ∧ t' = { t with stopper := true }
  | changeFromNotStopping _, v, t, v', t' =>
      ∃ st, v' = { v with stopState := st } ∧ t' = { t with stopper := t.stopper }
  | waitUntil states actions, v, t, v', t' =>
      (v.sm.cur ∈ states ∧ ∀ a ∈ actions, v.ac a = 0) ∧ v' = v ∧ t' = t
  | transaction src pass, v, t, v', t' =>
      ∃ sm f, v.sm.transaction (src.getD v.sm.cur) pass = .ok (sm, f) ∧
      v' = { v with sm := sm } ∧ t' = { t with from_ := some f }
  | verifyDisk st, v, t, v', t' => v.disk = .withState st ∧ v' = v ∧ t' = t
  | write op, v, t, v', t' => ∃ d, op.run v.disk = .ok d ∧ v' = { v with disk := d } ∧ t' = t
  | commit op dst, v, t, v', t' => ∃ d sm, op.run v.disk = .ok d ∧ v.sm.commit dst = .ok sm ∧
      v' = { v with sm := sm, disk := d } ∧ t' = { t with from_ := none }
  | actionCounter a, v, t, v', t' =>
      v' = { v with ac := increment v.ac a } ∧ t' = { t with action := some a }
  | closeAction, v, t, v', t' =>
      v' = { v with ac := t.action.elim v.ac (decrement v.ac) } ∧ t' = { t with action := none }

theorem Part.ran_of_run {p : Part σ α} (hrun : p.run v t = .ok (v', t')) : p.Ran v t v' t' := by
  cases p with
  | verifyNotStopping =>
    cases hv : StopCommands.verifyNotStopping v.stopState <;> rw [Part.run, hv] at hrun <;> cases hrun
    exact ⟨rfl, rfl⟩
  | verifyActionNotRunning actions =>
    cases hv : Transactions.verifyActionNotRunning v.ac actions <;> rw [Part.run, hv] at hrun <;>
      cases hrun
    exact ⟨hv, rfl, rfl⟩
  | verifyStateIn states =>
    cases hv : Transactions.verifyStateIn v.sm.cur states <;> rw [Part.run, hv] at hrun <;> cases hrun
    exact ⟨hv, rfl, rfl⟩
  | stopper | actionCounter | closeAction =>
    cases hrun
    exact ⟨rfl, rfl⟩
  | changeFromNotStopping toState =>
    rcases hv : Stopper.changeFromNotStopping v.stopState toState with e | ⟨st, changed⟩ <;>
      rw [Part.run, hv] at hrun
    · cases hrun
    · cases changed <;> cases hrun
      exact ⟨st, rfl, rfl⟩
  | waitUntil states actions =>
    rw [Part.run] at hrun
    split_ifs at hrun with h
    cases hrun
    exact ⟨h, rfl, rfl⟩
  | transaction src pass =>
    cases hv : v.sm.transaction (src.getD v.sm.cur) pass <;> rw [Part.run, hv] at hrun <;> cases hrun
    exact ⟨_, _, hv, rfl, rfl⟩
  | verifyDisk st =>
    rw [Part.run] at hrun
    split_ifs at hrun with h
    cases hrun
    exact ⟨h, rfl, rfl⟩
  | write op =>
    cases hv : op.run v.disk <;> rw [Part.run, hv] at hrun <;> cases hrun
    exact ⟨_, hv, rfl, rfl⟩
  | commit op dst =>
    cases hv : op.run v.disk <;> rw [Part.run, hv] at hrun
    · cases hrun
    · cases hc : v.sm.commit dst <;> simp only [bind, Except.bind, hc] at hrun <;> cases hrun
      exact ⟨_, _, hv, hc, rfl, rfl⟩

omit [DecidableEq σ] in
/-- What a handler does to the stopping of the volume concerns nothing else. -/
theorem Turned.of_stopping (hf : Fits R v t o n) (hK : K.Describes v t) (st : StopState)
    (stopper : Bool) :
    Turned R K v { v with stopState := st } t { t with stopper := stopper } o n :=
  ⟨⟨hf.edges, hf.counted, hf.owned, hf.allowed, hf.single, hf.exclusive, hf.agrees, hf.moving⟩,
    ⟨hK.holds, hK.busy, hK.curs, hK.zero, hK.bases⟩, rfl, fun _ => ⟨rfl, rfl⟩⟩

theorem run_turned {p : Part σ α} (hrun : p.run v t = .ok (v', t'))
    (hK : K.Describes v t) (hf : Fits R v t o n) (hnext : K.next R p = some K') :
    Turned R K' v v' t t' o n ∧ K'.Sound R := by
  obtain ⟨htransfer, hsound⟩ := next_eq_some hnext
  refine ⟨?_, hsound⟩
  have hran := Part.ran_of_run hrun
  cases p with
  | verifyNotStopping =>
    obtain ⟨rfl, rfl⟩ := hran
    cases htransfer
    exact .of_same hf hK
  | verifyActionNotRunning actions =>
    obtain ⟨hv, rfl, rfl⟩ := hran
    cases htransfer
    exact .of_same hf (hK.zero_append (verifyActionNotRunning_ok hv))
  | verifyStateIn states =>
    obtain ⟨hv, rfl, rfl⟩ := hran
    cases htransfer
    exact .of_same hf (hK.narrow (verifyStateIn_ok hv))
  | stopper =>
    obtain ⟨rfl, rfl⟩ := hran
    cases htransfer
    exact .of_stopping hf hK _ _
  | changeFromNotStopping toState =>
    obtain ⟨st, rfl, rfl⟩ := hran
    cases htransfer
    exact .of_stopping hf hK _ _
  | waitUntil states actions =>
    obtain ⟨h, rfl, rfl⟩ := hran
    cases htransfer
    exact .of_same hf ((hK.narrow h.1).zero_append h.2)
  | transaction src pass =>
    obtain ⟨sm, f, hv, rfl, rfl⟩ := hran
    rw [Known.transfer] at htransfer
    split_ifs at htransfer with h
    cases htransfer
    exact transaction_turned hv hK hf h.2 ((hsound rfl).1 _ (List.mem_singleton_self _)).1
  | verifyDisk st =>
    obtain ⟨h, rfl, rfl⟩ := hran
    cases htransfer
    exact .of_same hf ⟨hK.holds, hK.busy, hK.curs, hK.zero, fun f hfrom =>
      List.mem_filter.2 ⟨hK.bases f hfrom, by simpa using h⟩⟩
  | write op =>
    obtain ⟨d, hv, rfl, rfl⟩ := hran
    rw [Known.transfer] at htransfer
    split_ifs at htransfer with h
    cases htransfer
    exact write_turned hv hK hf h
  | commit op dst =>
    obtain ⟨d, sm, hv, hc, rfl, rfl⟩ := hran
    rw [Known.transfer] at htransfer
    split_ifs at htransfer with h
    cases htransfer
    exact commit_turned hv hc hK hf h.1 h.2.1 h.2.2
  | actionCounter a =>
    obtain ⟨rfl, rfl⟩ := hran
    rw [Known.transfer] at htransfer
    split_ifs at htransfer with h
    cases htransfer
    exact actionCounter_turned hK hf h.1 h.2.1 h.2.2.1 h.2.2.2
  | closeAction =>
    obtain ⟨rfl, rfl⟩ := hran
    cases htransfer
    exact closeAction_turned hK hf

theorem after_take {ps : List (Part σ α)} (h : Known.after R ps K = some K') (k : Nat) :
    ∃ K'', Known.after R (ps.take k) K = some K'' := by
  induction ps generalizing K k with
  | nil => exact ⟨K, by rw [List.take_nil]; rfl⟩
  | cons p ps ih =>
    cases k with
    | zero => exact ⟨K, rfl⟩
    | succ k =>
      rw [Known.after] at h
      cases hn : K.next R p with
      | none =>
        rw [hn] at h
        cases h
      | some K₁ =>
        rw [hn] at h
        obtain ⟨K'', h''⟩ := ih h k
        exact ⟨K'', by rw [List.take_succ_cons, Known.after, hn]; exact h''⟩

theorem runParts_spec {ps : List (Part σ α)} {done : Bool}
    (hrun : runParts ps v t = (v', t', done)) (hK : K.Describes v t) (hsound : K.Sound R)
    (hf : Fits R v t o n)
    (hafter : Known.after R ps K = some K') :
    ∃ K'', Turned R K'' v v' t t' o n ∧ K''.Sound R ∧ (done = true → K'' = K') := by
  induction ps generalizing v t K with
  | nil =>
    cases hrun
    cases hafter
    exact ⟨K', .of_same hf hK, hsound, fun _ => rfl⟩
  | cons p ps ih =>
    rw [Known.after] at hafter
    cases hn : K.next R p with
    | none =>
      rw [hn] at hafter
      cases hafter
    | some K₁ =>
      rw [hn] at hafter
      rw [runParts] at hrun
      cases hp : p.run v t with
      | error e =>
        rw [hp] at hrun
        cases hrun
        exact ⟨K, .of_same hf hK, hsound, nofun⟩
      | ok r =>
        rw [hp] at hrun
        obtain ⟨hturn, hsound₁⟩ := run_turned hp hK hf hn
        obtain ⟨K'', hturn', hsound'', hdone⟩ := ih hrun hturn.describes hsound₁ hturn.fits hafter
        refine ⟨K'', ⟨hturn'.fits, hturn'.describes, hturn'.rest.trans hturn.rest, fun h => ?_⟩,
          hsound'', hdone⟩
        exact ⟨(hturn'.apart h).1.trans (hturn.apart h).1, (hturn'.apart h).2.trans (hturn.apart h).2⟩

def running (l : List (Thread σ α)) (a : α) : Nat := l.countP (·.action = some a)

def opened (l : List (Thread σ α)) : Nat := l.countP (·.from_.isSome)

def Waits (R : Rules σ α) (v : Volume σ α) (t : Thread σ α) : Prop :=
  ∃ K : Known σ α, K.unlocked.Describes v t ∧ K.unlocked.Sound R ∧ K.unlocked.passes R t.rest = true

structure Inv (R : Rules σ α) (s : VolState σ α) : Prop where
  fits : Fits R s.vol (.start []) (running s.threads) (opened s.threads)
  waits : ∀ t ∈ s.threads, Waits R s.vol t

/-- Only the thread with the open transaction depends on what the others do. -/
theorem Waits.of_same (h : Waits R v t)
    (hsame : t.from_.isSome = true → v'.sm.cur = v.sm.cur ∧ v'.disk = v.disk) : Waits R v' t := by
  obtain ⟨K', hK, hsound, hpass⟩ := h
  refine ⟨K', ⟨hK.holds, hK.busy, fun cs hcs => ?_, fun a ha => absurd ha List.not_mem_nil,
    fun f hf => ?_⟩, hsound, hpass⟩
  · cases hh : K'.holds with
    | false =>
      simp only [Known.unlocked, hh, Bool.false_eq_true, ↓reduceIte, reduceCtorEq] at hcs
    | true =>
      rw [(hsame (hK.holds ▸ hh)).1]
      exact hK.curs cs hcs
  · rw [(hsame (hf ▸ rfl)).2]
    exact hK.bases f hf

omit [DecidableEq σ] [DecidableEq α] in
theorem Known.Describes.unlocked (hK : K.Describes v t) : K.unlocked.Describes v t where
  holds := hK.holds
  busy := hK.busy
  zero _ ha := absurd ha List.not_mem_nil
  bases := hK.bases
  curs cs hcs := by
    cases hh : K.holds with
    | false => simp only [Known.unlocked, hh, Bool.false_eq_true, ↓reduceIte, reduceCtorEq] at hcs
    | true =>
      simp only [Known.unlocked, hh, ↓reduceIte] at hcs
      exact hK.curs cs hcs

theorem waits_start {handler : List (List (Part σ α))} (h : Known.start.passes R handler = true) :
    Waits R v (.start handler) :=
  ⟨.start, ⟨rfl, rfl, nofun, fun _ ha => absurd ha List.not_mem_nil, nofun⟩, nofun, h⟩

omit [DecidableEq σ] in
theorem fits_focus {l₁ l₂ : List (Thread σ α)} :
    Fits R v (.start []) (running (l₁ ++ t :: l₂)) (opened (l₁ ++ t :: l₂)) ↔
      Fits R v t (running (l₁ ++ l₂)) (opened (l₁ ++ l₂)) := by
  have hcount : ∀ a, running (l₁ ++ t :: l₂) a = running (l₁ ++ l₂) a + if t.action = some a then 1
      else 0 := fun a => by
    simp only [running, List.countP_append, List.countP_cons, decide_eq_true_eq]
    omega
  have hopen : opened (l₁ ++ t :: l₂) = opened (l₁ ++ l₂) + if t.from_.isSome = true then 1 else 0 := by
    simp only [opened, List.countP_append, List.countP_cons]
    omega
  constructor
  · intro h
    refine ⟨h.edges, fun a => ?_, ?_, h.allowed, h.single, h.exclusive, h.agrees, h.moving⟩
    · rw [← hcount]
      exact h.counted a
    · rw [← hopen]
      exact h.owned
  · intro h
    refine ⟨h.edges, fun a => ?_, ?_, h.allowed, h.single, h.exclusive, h.agrees, h.moving⟩
    · rw [hcount]
      exact h.counted a
    · rw [hopen]
      exact h.owned

omit [DecidableEq σ] [DecidableEq α] in
theorem opened_ne_zero {l : List (Thread σ α)} (ht : t ∈ l) (h : t.from_.isSome = true) : opened l ≠ 0 :=
  (List.countP_pos_iff.2 ⟨t, ht, h⟩).ne'

theorem Inv.moving {s : VolState σ α} {f : σ} (h : Inv R s) (ht : t ∈ s.threads)
    (hf : t.from_ = some f) :
    s.vol.sm.cur ∉ R.steady ∧ (f, s.vol.sm.cur) ∈ R.edges ∧ (f, s.vol.disk) ∈ R.agrees := by
  obtain ⟨K, hK, hsound, -⟩ := h.waits t ht
  obtain ⟨hcurs, hbases⟩ := hsound (hK.holds.trans (hf ▸ rfl))
  obtain ⟨hsteady, hedges⟩ := onCurs_cur hK hcurs
  have hbase := hK.bases f hf
  exact ⟨hsteady, (hedges _ hbase).1, hbases _ hbase⟩

theorem Inv.disk_agrees {s : VolState σ α} (h : Inv R s) : ∃ c, (c, s.vol.disk) ∈ R.agrees := by
  cases hin : s.vol.sm.inTrans with
  | false => exact ⟨_, h.fits.agrees hin⟩
  | true =>
    have howned := h.fits.owned
    rw [hin] at howned
    have hpos : 0 < opened s.threads := by
      simp only [Thread.start, Option.isSome_none, Bool.false_eq_true, ↓reduceIte] at howned
      omega
    obtain ⟨t, ht, hsome⟩ := List.countP_pos_iff.1 hpos
    obtain ⟨f, hf⟩ := Option.isSome_iff_exists.1 hsome
    exact ⟨f, (h.moving ht hf).2.2⟩

theorem inv_restarted {disk : VolDir σ} {cur : σ} (hdisk : (cur, disk) ∈ R.agrees) :
    Inv R (restarted R.edges cur disk) where
  fits := ⟨rfl, fun _ => rfl, rfl, fun _ h => absurd rfl h, fun _ => Nat.zero_le _,
    fun _ _ _ _ _ _ h => absurd rfl h,
    fun _ => hdisk, nofun⟩
  waits _ ht := absurd ht List.not_mem_nil

theorem waits_others {l₁ l₂ : List (Thread σ α)} (h : Inv R ⟨v, l₁ ++ t :: l₂⟩)
    (hapart : opened (l₁ ++ l₂) ≠ 0 → v'.sm.cur = v.sm.cur ∧ v'.disk = v.disk) :
    ∀ t' ∈ l₁ ++ l₂, Waits R v' t' := fun t' ht' =>
  (h.waits t' (List.mem_append.2 ((List.mem_append.1 ht').imp_right
    (List.mem_cons_of_mem _)))).of_same fun hfrom =>
    hapart (opened_ne_zero ht' hfrom)

theorem inv_ended {l₁ l₂ : List (Thread σ α)} {t₀ : Thread σ α} (h : Inv R ⟨v, l₁ ++ t :: l₂⟩)
    (hturn : Turned R K v v' t₀ t' (running (l₁ ++ l₂)) (opened (l₁ ++ l₂))) (hsound : K.Sound R) :
    Inv R ⟨t'.destroyed v', l₁ ++ l₂⟩ := by
  obtain ⟨hfits, hapart⟩ := destroyed_fits hturn.describes hsound hturn.fits
  refine ⟨hfits, waits_others h fun hn => ?_⟩
  exact ⟨(hapart hn).1.trans (hturn.apart hn).1, (hapart hn).2.trans (hturn.apart hn).2⟩

theorem inv_went_on {l₁ l₂ : List (Thread σ α)} {t₀ : Thread σ α} (h : Inv R ⟨v, l₁ ++ t :: l₂⟩)
    (hturn : Turned R K v v' t₀ t' (running (l₁ ++ l₂)) (opened (l₁ ++ l₂)))
    (hwaits : Waits R v' t') : Inv R ⟨v', l₁ ++ t' :: l₂⟩ := by
  refine ⟨fits_focus.2 hturn.fits, fun t'' ht'' => ?_⟩
  rcases List.mem_append.1 ht'' with h₁ | h₂
  · exact waits_others h hturn.apart _ (List.mem_append_left _ h₁)
  · rcases List.mem_cons.1 h₂ with rfl | h₂
    · exact hwaits
    · exact waits_others h hturn.apart _ (List.mem_append_right _ h₂)

/-- A thread takes its turn: it runs its next section, or a part of it and ends. -/
theorem inv_turn {l₁ l₂ : List (Thread σ α)} {ps : List (Part σ α)} {rest : List (List (Part σ α))}
    {done : Bool} (stop : Option Nat)
    (h : Inv R ⟨v, l₁ ++ t :: l₂⟩) (hrest : t.rest = ps :: rest)
    (hrun : runParts (stop.elim ps ps.take) v { t with rest := rest } = (v', t', done)) :
    Inv R ⟨t'.destroyed v', l₁ ++ l₂⟩ ∧ (done = true → stop = none → Inv R ⟨v', l₁ ++ t' :: l₂⟩) := by
  obtain ⟨K, hK, hsound, hpass⟩ := h.waits t (by simp)
  have hfits := fits_focus.1 h.fits
  have hK' : K.unlocked.Describes v { t with rest := rest } :=
    ⟨hK.holds, hK.busy, hK.curs, hK.zero, hK.bases⟩
  have hfits' : Fits R v { t with rest := rest } (running (l₁ ++ l₂)) (opened (l₁ ++ l₂)) :=
    ⟨hfits.edges, hfits.counted, hfits.owned, hfits.allowed, hfits.single, hfits.exclusive,
      hfits.agrees, hfits.moving⟩
  rw [hrest, Known.passes] at hpass
  cases hafter : Known.after R ps K.unlocked with
  | none =>
    rw [hafter] at hpass
    cases hpass
  | some K₁ =>
    rw [hafter, Bool.and_eq_true, decide_eq_true_eq] at hpass
    have htaken : ∃ K₂, Known.after R (stop.elim ps ps.take) K.unlocked = some K₂ ∧
        (stop = none → K₂ = K₁) := by
      cases stop with
      | none => exact ⟨K₁, hafter, fun _ => rfl⟩
      | some k => exact (after_take hafter k).imp fun _ h => ⟨h, nofun⟩
    obtain ⟨K₂, hafter₂, heq⟩ := htaken
    obtain ⟨K₃, hturn, hsound₃, hdone⟩ := runParts_spec hrun hK' hsound hfits' hafter₂
    refine ⟨inv_ended h hturn hsound₃, fun hd hstop => inv_went_on h hturn ⟨K₁, ?_, hpass.1, ?_⟩⟩
    · exact ((hdone hd).trans (heq hstop) ▸ hturn.describes).unlocked
    · rw [hturn.rest]
      exact hpass.2

theorem exists_append_of_getElem? {β : Type} {l : List β} {i : Nat} {x : β} (h : l[i]? = some x) :
    ∃ l₁ l₂, l = l₁ ++ x :: l₂ ∧ i = l₁.length := by
  obtain ⟨hi, rfl⟩ := List.getElem?_eq_some_iff.1 h
  refine ⟨l.take i, l.drop (i + 1), ?_, by rw [List.length_take, Nat.min_eq_left hi.le]⟩
  rw [← List.drop_eq_getElem_cons hi, List.take_append_drop]

theorem Inv.step {s s' : VolState σ α} {e : Event σ α} (hR : R.Restarts) (h : Inv R s)
    (hstep : s.step R.clear e = some s')
    (hcall : ∀ handler, e = .call handler → Known.start.passes R handler = true) : Inv R s' := by
  obtain ⟨v, threads⟩ := s
  cases e with
  | call handler =>
    cases hstep
    refine ⟨?_, fun t ht => ?_⟩
    · have hfocus : Fits R v (.start []) (running (threads ++ [.start handler]))
        (opened (threads ++ [.start handler])) ↔
          Fits R v (.start handler) (running (threads ++ [])) (opened (threads ++ [])) := fits_focus
      rw [List.append_nil] at hfocus
      exact hfocus.2 ⟨h.fits.edges, h.fits.counted, h.fits.owned, h.fits.allowed, h.fits.single,
        h.fits.exclusive, h.fits.agrees,
        h.fits.moving⟩
    · rcases List.mem_append.1 ht with ht | ht
      · exact h.waits t ht
      · cases List.mem_singleton.1 ht
        exact waits_start (hcall handler rfl)
  | turn i stop =>
    rw [VolState.step] at hstep
    cases ht : threads[i]? with
    | none =>
      rw [ht] at hstep
      cases hstep
    | some t =>
      rw [ht] at hstep
      dsimp only at hstep
      cases hrest : t.rest with
      | nil =>
        rw [hrest] at hstep
        cases hstep
      | cons ps rest =>
        rw [hrest] at hstep
        dsimp only at hstep
        obtain ⟨l₁, l₂, rfl, rfl⟩ := exists_append_of_getElem? ht
        cases hrun : runParts (stop.elim ps ps.take) v { t with rest := rest } with
        | mk v' r =>
          obtain ⟨t', done⟩ := r
          rw [hrun, List.set_append_right _ _ (Nat.le_refl _),
            List.eraseIdx_append_of_length_le (Nat.le_refl _), Nat.sub_self] at hstep
          obtain ⟨hended, hwent⟩ := inv_turn stop h hrest hrun
          cases done <;> cases stop <;> cases hstep
          · exact hended
          · exact hended
          · exact hwent rfl rfl
          · exact hended
  | leave i =>
    rw [VolState.step] at hstep
    cases ht : threads[i]? with
    | none =>
      rw [ht] at hstep
      cases hstep
    | some t =>
      rw [ht] at hstep
      obtain ⟨l₁, l₂, rfl, rfl⟩ := exists_append_of_getElem? ht
      cases hstep
      rw [List.eraseIdx_append_of_length_le (Nat.le_refl _), Nat.sub_self]
      obtain ⟨K, hK, hsound, -⟩ := h.waits t (by simp)
      exact inv_ended h (.of_same (fits_focus.1 h.fits) hK) hsound
  | restart =>
    obtain ⟨cur, hcur, rfl⟩ := Option.map_eq_some_iff.1 hstep
    obtain ⟨c, hc⟩ := h.disk_agrees
    have hedges := h.fits.edges
    dsimp only at hedges hc
    rw [hedges]
    exact inv_restarted (hR _ hc cur hcur)

/-- The states that any interleaving of the handlers leads to, from a start of the server
over a disk that may stand there. -/
inductive Reachable (edges : List (σ × σ)) (clear : σ) (stored : List (VolDir σ))
    (handlers : Set (List (List (Part σ α)))) : VolState σ α → Prop
  | start {disk : VolDir σ} {cur : σ} (h : disk ∈ stored) (hcur : disk.initInner clear = some cur) :
      Reachable edges clear stored handlers (restarted edges cur disk)
  | step {s s' : VolState σ α} {e : Event σ α} (h : Reachable edges clear stored handlers s)
      (hcall : ∀ handler, e = .call handler → handler ∈ handlers) (hstep : s.step clear e = some s') :
      Reachable edges clear stored handlers s'

def VolState.run (clear : σ) : List (Event σ α) → VolState σ α → Option (VolState σ α)
  | [], s => some s
  | e :: es, s => (s.step clear e).bind (run clear es)

theorem Reachable.run {edges : List (σ × σ)} {clear : σ} {stored : List (VolDir σ)}
    {handlers : Set (List (List (Part σ α)))}
    {s s' : VolState σ α} {es : List (Event σ α)} (h : Reachable edges clear stored handlers s)
    (hrun : s.run clear es = some s')
    (hcall : ∀ handler, .call handler ∈ es → handler ∈ handlers) :
    Reachable edges clear stored handlers s' := by
  induction es generalizing s with
  | nil =>
    cases hrun
    exact h
  | cons e es ih =>
    obtain ⟨s₁, hstep, hrun⟩ := Option.bind_eq_some_iff.1 hrun
    exact ih (h.step (fun handler he => hcall handler (he ▸ List.mem_cons_self)) hstep) hrun
      fun handler he => hcall handler (List.mem_cons_of_mem _ he)

end

end WalbTools.Transactions
