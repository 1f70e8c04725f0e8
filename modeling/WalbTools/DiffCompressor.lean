import Mathlib

namespace WalbTools.DiffCompressor

/-- A buffer that may be empty is an `Option`. -/
structure Task (α β ε : Type) where
  inBuf : α
  outBuf : Option β
  ep : Option ε

namespace Task

variable {α β ε : Type}

def isAvailable (t : Task α β ε) : Bool := t.outBuf.isSome || t.ep.isSome

def result (t : Task α β ε) : Except ε (Option β) :=
  match t.ep with
  | some e => .error e
  | none => .ok t.outBuf

def store (t : Task α β ε) : Except ε (Option β) → Task α β ε
  | .ok out => { t with outBuf := out }
  | .error e => { t with ep := some e }

end Task

/-- An engine: before the predicate of its wait, waiting on `ready_`, with a task,
before `avail_->notify_one()`, or done. -/
inductive Engine where
  | waiting | asleep | converting (task : Nat) | notifying | exited
  deriving DecidableEq

/-- The pushing or the popping thread: outside of the queue, before the predicate of
its wait, or waiting. -/
inductive Caller (γ : Type) where
  | idle
  | waiting (arg : γ)
  | asleep (arg : γ)

inductive Output (α β ε : Type) where
  | pushed (inBuf : α)
  | refused
  | popped (r : Except ε (Option β))
  | quit

/-- `front` tasks were taken from `taskQ` before; the deque keeps its elements in
place, and the number of a task stands for the pointer to it. -/
structure ConverterQueue (α β ε : Type) (n : Nat) where
  maxQueueSize : Nat
  isQuit : Bool
  front : Nat
  taskQ : List (Task α β ε)
  readyQ : List Nat
  engines : Fin n → Engine
  pusher : Caller α
  popper : Caller Unit
  history : List (Output α β ε)

/-- Each is a call, or what a thread does from the time it has the lock until it gives it
back. A `wake` is spurious. -/
inductive Event (α : Type) (n : Nat) where
  | push (inBuf : Option α)
  | pushWait (woken : Option (Fin n))
  | pop
  | popWait
  | quit
  | take (e : Fin n)
  | convert (e : Fin n)
  | notify (e : Fin n)
  | wakePusher
  | wakePopper
  | wakeEngine (e : Fin n)

def Caller.wake {γ : Type} : Caller γ → Caller γ
  | .asleep arg => .waiting arg
  | c => c

def Engine.wake : Engine → Engine
  | .asleep => .waiting
  | e => e

variable {α β ε : Type} {n : Nat}

namespace ConverterQueue

def init (maxQueueSize n : Nat) : ConverterQueue α β ε n :=
  ⟨maxQueueSize, false, 0, [], [], fun _ => .waiting, .idle, .idle, []⟩

/-- `ready_.notify_one()`: any waiting engine, if there is one. -/
def notifyReady (q : ConverterQueue α β ε n) : Option (Fin n) → Option (Fin n → Engine)
  | none => if ∀ e, q.engines e ≠ .asleep then some q.engines else none
  | some e => if q.engines e = .asleep then some (Function.update q.engines e .waiting) else none

def pushLocked (q : ConverterQueue α β ε n) (inBuf : α) (woken : Option (Fin n)) :
    Option (ConverterQueue α β ε n) :=
  if q.taskQ.length < q.maxQueueSize ∨ q.isQuit then
    if q.isQuit then some { q with pusher := .idle, history := q.history ++ [.refused] }
    else
      (q.notifyReady woken).map fun engines =>
        { q with
          taskQ := q.taskQ ++ [⟨inBuf, none, none⟩]
          readyQ := q.readyQ ++ [q.front + q.taskQ.length]
          engines := engines
          pusher := .idle
          history := q.history ++ [.pushed inBuf] }
  else some { q with pusher := .asleep inBuf }

def popLocked (q : ConverterQueue α β ε n) : ConverterQueue α β ε n :=
  match q.taskQ with
  | [] =>
      if q.isQuit then { q with popper := .idle, history := q.history ++ [.popped (.ok none)] }
      else { q with popper := .asleep () }
  | t :: ts =>
      if t.isAvailable then
        { q with
          front := q.front + 1
          taskQ := ts
          pusher := q.pusher.wake
          popper := .idle
          history := q.history ++ [.popped t.result] }
      else { q with popper := .asleep () }

def takeLocked (q : ConverterQueue α β ε n) (e : Fin n) : ConverterQueue α β ε n :=
  match q.readyQ with
  | [] => { q with engines := Function.update q.engines e (if q.isQuit then .exited else .asleep) }
  | i :: is => { q with readyQ := is, engines := Function.update q.engines e (.converting i) }

variable (conv : α → Except ε (Option β))

/-- `task->outBuf = e_->convert(..)` or the exception in its place, without the lock. -/
def storeResult (q : ConverterQueue α β ε n) (i : Nat) : List (Task α β ε) :=
  q.taskQ.modify (i - q.front) fun t => t.store (conv t.inBuf)

def step (q : ConverterQueue α β ε n) : Event α n → Option (ConverterQueue α β ε n)
  | .push inBuf =>
      match q.pusher, inBuf with
      | .idle, some b => some { q with pusher := .waiting b }
      | .idle, none => some q -- throws
      | _, _ => none
  | .pushWait woken =>
      match q.pusher with
      | .waiting b => q.pushLocked b woken
      | _ => none
  | .pop =>
      match q.popper with
      | .idle => some { q with popper := .waiting () }
      | _ => none
  | .popWait =>
      match q.popper with
      | .waiting () => some q.popLocked
      | _ => none
  | .quit =>
      some { q with
        isQuit := true
        engines := fun e => (q.engines e).wake
        pusher := q.pusher.wake
        popper := q.popper.wake
        history := q.history ++ [.quit] }
  | .take e => if q.engines e = .waiting then some (q.takeLocked e) else none
  | .convert e =>
      match q.engines e with
      | .converting i =>
          some { q with
            taskQ := q.storeResult conv i, engines := Function.update q.engines e .notifying }
      | _ => none
  | .notify e =>
      if q.engines e = .notifying then
        some { q with engines := Function.update q.engines e .waiting, popper := q.popper.wake }
      else none
  | .wakePusher => some { q with pusher := q.pusher.wake }
  | .wakePopper => some { q with popper := q.popper.wake }
  | .wakeEngine e => some { q with engines := Function.update q.engines e (q.engines e).wake }

def run (q : ConverterQueue α β ε n) : List (Event α n) → Option (ConverterQueue α β ε n)
  | [] => some q
  | ev :: evs => (q.step conv ev).bind fun q' => q'.run evs

end ConverterQueue

def Output.accepted : Output α β ε → Option α
  | .pushed b => some b
  | _ => none

/-- The empty buffer is not a result: it says that the end is reached. -/
def Output.delivered : Output α β ε → Option (Except ε (Option β))
  | .popped (.ok none) => none
  | .popped r => some r
  | _ => none

def accepted (h : List (Output α β ε)) : List α := h.filterMap Output.accepted

def delivered (h : List (Output α β ε)) : List (Except ε (Option β)) := h.filterMap Output.delivered

variable (conv : α → Except ε (Option β))

/-- What a step does to the queue of tasks, to the history and to the flag. -/
inductive Change : List (Task α β ε) → List (Output α β ε) → Bool →
    List (Task α β ε) → List (Output α β ε) → Bool → Prop
  | silent (ts h q) : Change ts h q ts h q
  | stored (ts h q) (i : Nat) : Change ts h q (ts.modify i fun t => t.store (conv t.inBuf)) h q
  | pushed (ts h) (b : α) : Change ts h false (ts ++ [⟨b, none, none⟩]) (h ++ [.pushed b]) false
  | refused (ts h) : Change ts h true ts (h ++ [.refused]) true
  | popped (t ts h q) (ht : t.isAvailable = true) : Change (t :: ts) h q ts (h ++ [.popped t.result]) q
  | ended (h) : Change [] h true [] (h ++ [.popped (.ok none)]) true
  | quit (ts h q) : Change ts h q ts (h ++ [.quit]) true

variable {conv}

theorem ConverterQueue.pushLocked_change {q q' : ConverterQueue α β ε n} {b : α} {woken : Option (Fin n)}
    (hq : q.pushLocked b woken = some q') :
    Change conv q.taskQ q.history q.isQuit q'.taskQ q'.history q'.isQuit := by
  rw [pushLocked] at hq
  split at hq
  · split at hq
    next hquit =>
      cases hq
      simpa only [hquit] using Change.refused _ _
    next hquit =>
      obtain ⟨engines, -, rfl⟩ := Option.map_eq_some_iff.mp hq
      simpa only [Bool.not_eq_true _ ▸ hquit] using Change.pushed _ _ _
  · cases hq
    exact .silent _ _ _

theorem ConverterQueue.popLocked_change (q : ConverterQueue α β ε n) :
    Change conv q.taskQ q.history q.isQuit q.popLocked.taskQ q.popLocked.history q.popLocked.isQuit := by
  rw [popLocked]
  split
  next hts =>
    split
    next hquit => simpa only [hquit, hts] using Change.ended _
    next => exact .silent _ _ _
  next t ts hts =>
    split
    next ht => simpa only [hts] using Change.popped t ts _ _ ht
    next => exact .silent _ _ _

theorem ConverterQueue.step_change {q q' : ConverterQueue α β ε n} {ev : Event α n}
    (hq : q.step conv ev = some q') :
    Change conv q.taskQ q.history q.isQuit q'.taskQ q'.history q'.isQuit := by
  cases ev with
  | push inBuf =>
      simp only [step] at hq
      split at hq <;> cases hq <;> exact .silent _ _ _
  | pushWait woken =>
      rw [step] at hq
      split at hq
      · exact pushLocked_change hq
      · cases hq
  | pop =>
      rw [step] at hq
      split at hq <;> cases hq
      exact .silent _ _ _
  | popWait =>
      rw [step] at hq
      split at hq <;> cases hq
      exact q.popLocked_change
  | quit =>
      cases hq
      exact .quit _ _ _
  | take e =>
      rw [step] at hq
      split at hq <;> cases hq
      rw [takeLocked]
      split <;> exact .silent _ _ _
  | convert e =>
      rw [step] at hq
      split at hq <;> cases hq
      exact .stored _ _ _ _
  | notify e =>
      rw [step] at hq
      split at hq <;> cases hq
      exact .silent _ _ _
  | wakePusher | wakePopper | wakeEngine e =>
      cases hq
      exact .silent _ _ _

def Task.Sound (conv : α → Except ε (Option β)) (t : Task α β ε) : Prop :=
  t.isAvailable = true → t.result = conv t.inBuf

theorem Task.Sound.store {t : Task α β ε} (ht : t.Sound conv) : (t.store (conv t.inBuf)).Sound conv := by
  intro hav
  cases hc : conv t.inBuf with
  | error e => exact hc.symm
  | ok out =>
      have hep : t.ep = none := by
        cases hep : t.ep with
        | none => rfl
        | some e =>
            have hr := ht (by simp [isAvailable, hep])
            rw [hc, result, hep] at hr
            cases hr
      simp only [Task.store, result, hep]
      exact hc.symm

theorem Task.store_inBuf (t : Task α β ε) (r : Except ε (Option β)) : (t.store r).inBuf = t.inBuf := by
  cases r <;> rfl

theorem Task.delivered_result {t : Task α β ε} (ht : t.isAvailable = true) :
    (Output.popped (α := α) t.result).delivered = some t.result := by
  unfold result
  cases hep : t.ep with
  | some e => rfl
  | none =>
      cases hout : t.outBuf with
      | none => simp [isAvailable, hep, hout] at ht
      | some b => rfl

/-- Each accepted buffer is delivered or it is still in the queue. -/
structure Ledger (conv : α → Except ε (Option β)) (ts : List (Task α β ε)) (h : List (Output α β ε))
    (isQuit : Bool) : Prop where
  sound : ∀ t ∈ ts, t.Sound conv
  balance : delivered h ++ ts.map (fun t => conv t.inBuf) = (accepted h).map conv
  quit : isQuit = true ↔ .quit ∈ h
  refused : ∀ pre post, h = pre ++ .refused :: post → .quit ∈ pre
  ended : ∀ pre post, h = pre ++ .popped (.ok none) :: post →
    .quit ∈ pre ∧ delivered pre = (accepted h).map conv

theorem Ledger.init : Ledger conv ([] : List (Task α β ε)) [] false where
  sound _ ht := absurd ht List.not_mem_nil
  balance := rfl
  quit := by simp
  refused pre post h := by simp at h
  ended pre post h := by simp at h

/-- A history that grew by one entry has its old entries and the new one. -/
theorem split_concat {γ : Type} {h pre post : List γ} {o x : γ} (heq : h ++ [o] = pre ++ x :: post) :
    (∃ post', post = post' ++ [o] ∧ h = pre ++ x :: post') ∨ (h = pre ∧ o = x) := by
  cases post using List.reverseRecOn with
  | nil =>
      obtain ⟨h1, h2⟩ := List.append_inj' heq rfl
      exact .inr ⟨h1, List.singleton_inj.mp h2⟩
  | append_singleton post' y =>
      rw [← List.cons_append, ← List.append_assoc] at heq
      obtain ⟨h1, h2⟩ := List.append_inj' heq rfl
      exact .inl ⟨post', by rw [List.singleton_inj.mp h2], h1⟩

theorem Ledger.concat {ts ts' : List (Task α β ε)} {h : List (Output α β ε)} {isQuit isQuit' : Bool}
    (L : Ledger conv ts h isQuit) (o : Output α β ε) (sound : ∀ t ∈ ts', t.Sound conv)
    (balance : delivered (h ++ [o]) ++ ts'.map (fun t => conv t.inBuf) = (accepted (h ++ [o])).map conv)
    (quit : isQuit' = true ↔ isQuit = true ∨ o = .quit) (pushed : isQuit = true → o.accepted = none)
    (refused : o = .refused → isQuit = true)
    (ended : o = .popped (.ok none) → isQuit = true ∧ ts = []) : Ledger conv ts' (h ++ [o]) isQuit' where
  sound := sound
  balance := balance
  quit := by rw [quit, L.quit, List.mem_append, List.mem_singleton, eq_comm (a := o)]
  refused pre post heq := by
    rcases split_concat heq with ⟨post', -, hh⟩ | ⟨rfl, ho⟩
    · exact L.refused pre post' hh
    · exact L.quit.mp (refused ho)
  ended pre post heq := by
    have hacc : isQuit = true → accepted (h ++ [o]) = accepted h := by
      intro hq
      rw [accepted, List.filterMap_append, List.filterMap_cons_none (pushed hq), List.filterMap_nil,
        List.append_nil, accepted]
    rcases split_concat heq with ⟨post', -, hh⟩ | ⟨rfl, ho⟩
    · obtain ⟨hq, hd⟩ := L.ended pre post' hh
      refine ⟨hq, ?_⟩
      rw [hd, hacc (L.quit.mpr (hh ▸ List.mem_append_left _ hq))]
    · obtain ⟨hq, rfl⟩ := ended ho
      refine ⟨L.quit.mp hq, ?_⟩
      have hb := L.balance
      rwa [List.map_nil, List.append_nil, ← hacc hq] at hb

theorem delivered_concat (h : List (Output α β ε)) (o : Output α β ε) :
    delivered (h ++ [o]) = delivered h ++ o.delivered.toList := by
  rw [delivered, List.filterMap_append]
  cases ho : o.delivered with
  | none => rw [List.filterMap_cons_none ho]; rfl
  | some r => rw [List.filterMap_cons_some ho]; rfl

theorem accepted_concat (h : List (Output α β ε)) (o : Output α β ε) :
    accepted (h ++ [o]) = accepted h ++ o.accepted.toList := by
  rw [accepted, List.filterMap_append]
  cases ho : o.accepted with
  | none => rw [List.filterMap_cons_none ho]; rfl
  | some r => rw [List.filterMap_cons_some ho]; rfl

theorem Ledger.concat_silent {ts : List (Task α β ε)} {h : List (Output α β ε)} {isQuit isQuit' : Bool}
    (L : Ledger conv ts h isQuit) (o : Output α β ε) (hacc : o.accepted = none)
    (hdel : o.delivered = none)
    (quit : isQuit' = true ↔ isQuit = true ∨ o = .quit) (refused : o = .refused → isQuit = true)
    (ended : o = .popped (.ok none) → isQuit = true ∧ ts = []) : Ledger conv ts (h ++ [o]) isQuit' := by
  apply L.concat o L.sound _ quit (fun _ => hacc) refused ended
  rw [delivered_concat, accepted_concat, hacc, hdel]
  simpa using L.balance

theorem Ledger.change {ts ts' : List (Task α β ε)} {h h' : List (Output α β ε)} {q q' : Bool}
    (L : Ledger conv ts h q) (hc : Change conv ts h q ts' h' q') : Ledger conv ts' h' q' := by
  cases hc with
  | silent => exact L
  | stored _ _ _ i =>
      have hmap : (ts.modify i fun t => t.store (conv t.inBuf)).map (fun t => conv t.inBuf) =
          ts.map fun t => conv t.inBuf := by
        apply List.ext_getElem?
        intro k
        rw [List.getElem?_map, List.getElem?_map, List.getElem?_modify]
        cases ts[k]? with
        | none => simp
        | some t =>
            by_cases hk : i = k <;> simp [hk, Task.store_inBuf]
      refine { L with sound := ?_, balance := by rw [hmap]; exact L.balance }
      intro t ht
      obtain ⟨k, hk⟩ := List.mem_iff_getElem?.mp ht
      rw [List.getElem?_modify] at hk
      obtain ⟨t', ht', rfl⟩ := Option.map_eq_some_iff.mp hk
      have hs := L.sound t' (List.mem_of_getElem? ht')
      split
      · exact hs.store
      · exact hs
  | pushed _ _ b =>
      apply L.concat (.pushed b)
      · intro t ht
        rcases List.mem_append.mp ht with ht | ht
        · exact L.sound t ht
        · rw [List.mem_singleton.mp ht]
          intro hav
          cases hav
      · rw [delivered_concat, accepted_concat, List.map_append, List.map_append, ← L.balance]
        simp [Output.delivered, Output.accepted]
      · simp
      · intro hq
        cases hq
      · intro ho
        cases ho
      · intro ho
        cases ho
  | refused => exact L.concat_silent _ rfl rfl (by simp) (fun _ => rfl) (fun ho => by cases ho)
  | popped t ts _ _ ht =>
      have hd := Task.delivered_result ht
      apply L.concat (.popped t.result)
      · intro u hu
        exact L.sound u (List.mem_cons_of_mem _ hu)
      · have hs : t.result = conv t.inBuf := L.sound t List.mem_cons_self ht
        rw [delivered_concat, accepted_concat, hd, hs]
        have hb := L.balance
        rw [List.map_cons] at hb
        simpa [Output.accepted] using hb
      · simp
      · intro _
        rfl
      · intro ho
        cases ho
      · intro ho
        rw [ho] at hd
        cases hd
  | ended => exact L.concat_silent _ rfl rfl (by simp) (fun ho => by cases ho) (fun _ => ⟨rfl, rfl⟩)
  | quit => exact L.concat_silent _ rfl rfl (by simp) (fun ho => by cases ho) (fun ho => by cases ho)

theorem Ledger.run {evs : List (Event α n)} {q q' : ConverterQueue α β ε n}
    (L : Ledger conv q.taskQ q.history q.isQuit) (hq : q.run conv evs = some q') :
    Ledger conv q'.taskQ q'.history q'.isQuit := by
  induction evs generalizing q with
  | nil =>
      cases hq
      exact L
  | cons ev evs ih =>
      obtain ⟨q1, h1, h2⟩ := Option.bind_eq_some_iff.mp hq
      exact ih (L.change (q.step_change h1)) h2

/-- The pointer `i` is that of a task in the queue that is not yet converted. -/
def Pending (front : Nat) (ts : List (Task α β ε)) (i : Nat) : Prop :=
  front ≤ i ∧ ∃ t, ts[i - front]? = some t ∧ t.isAvailable = false

theorem Pending.length_lt {front i : Nat} {ts : List (Task α β ε)} (h : Pending front ts i) :
    i < front + ts.length := by
  obtain ⟨hi, t, ht, -⟩ := h
  have := (List.getElem?_eq_some_iff.mp ht).1
  omega

theorem pending_push {front i : Nat} {ts : List (Task α β ε)} {b : α} :
    Pending front (ts ++ [⟨b, none, none⟩]) i ↔ Pending front ts i ∨ i = front + ts.length := by
  constructor
  · rintro ⟨hi, t, ht, hav⟩
    rcases Nat.lt_trichotomy (i - front) ts.length with hlt | heq | hgt
    · rw [List.getElem?_append_left hlt] at ht
      exact .inl ⟨hi, t, ht, hav⟩
    · right
      omega
    · rw [List.getElem?_eq_none (by rw [List.length_append, List.length_singleton]; omega)] at ht
      cases ht
  · rintro (⟨hi, t, ht, hav⟩ | rfl)
    · have hlt := (List.getElem?_eq_some_iff.mp ht).1
      exact ⟨hi, t, by rwa [List.getElem?_append_left hlt], hav⟩
    · refine ⟨Nat.le_add_right _ _, ⟨b, none, none⟩, ?_, rfl⟩
      rw [Nat.add_sub_cancel_left, List.getElem?_concat_length]

theorem pending_pop {front i : Nat} {t : Task α β ε} {ts : List (Task α β ε)}
    (ht : t.isAvailable = true) :
    Pending (front + 1) ts i ↔ Pending front (t :: ts) i := by
  constructor
  · rintro ⟨hi, u, hu, hav⟩
    have hsub : i - front = i - (front + 1) + 1 := by omega
    exact ⟨by omega, u, by rwa [hsub, List.getElem?_cons_succ], hav⟩
  · rintro ⟨hi, u, hu, hav⟩
    rcases Nat.eq_or_lt_of_le hi with rfl | hlt
    · rw [Nat.sub_self, List.getElem?_cons_zero] at hu
      cases hu
      rw [hav] at ht
      cases ht
    · have hsub : i - front = i - (front + 1) + 1 := by omega
      exact ⟨hlt, u, by rwa [hsub, List.getElem?_cons_succ] at hu, hav⟩

theorem Task.store_isAvailable (t : Task α β ε) {r : Except ε (Option β)} (hr : r ≠ .ok none) :
    (t.store r).isAvailable = true := by
  rcases r with e | out
  · simp [store, isAvailable]
  · cases out with
    | none => exact absurd rfl hr
    | some b => simp [store, isAvailable]

theorem pending_store {front i k : Nat} {ts : List (Task α β ε)} (hne : ∀ b, conv b ≠ .ok none)
    (hk : front ≤ k) :
    Pending front (ts.modify (k - front) fun t => t.store (conv t.inBuf)) i ↔ Pending front ts i ∧
      i ≠ k := by
  unfold Pending
  rw [List.getElem?_modify]
  constructor
  · rintro ⟨hi, t, ht, hav⟩
    obtain ⟨u, hu, rfl⟩ := Option.map_eq_some_iff.mp ht
    by_cases hik : k - front = i - front
    · rw [if_pos hik, u.store_isAvailable (hne _)] at hav
      cases hav
    · rw [if_neg hik] at hav
      exact ⟨⟨hi, u, hu, hav⟩, fun h => hik (by rw [h])⟩
  · rintro ⟨⟨hi, t, ht, hav⟩, hik⟩
    refine ⟨hi, t, ?_, hav⟩
    rw [ht, Option.map_eq_map, Option.map_some, if_neg (by omega)]

/-- Each task that is not yet converted is in the ready queue or with one engine. -/
structure Owners (front : Nat) (ts : List (Task α β ε)) (readyQ : List Nat) (engines : Fin n → Engine) :
    Prop where
  ready : ∀ i ∈ readyQ, Pending front ts i
  nodup : readyQ.Nodup
  held : ∀ e i, engines e = .converting i → Pending front ts i ∧ i ∉ readyQ
  once : ∀ e e' i, engines e = .converting i → engines e' = .converting i → e = e'
  owned : ∀ i, Pending front ts i → i ∈ readyQ ∨ ∃ e, engines e = .converting i

variable {front : Nat} {ts : List (Task α β ε)} {readyQ : List Nat} {engines engines' : Fin n → Engine}

theorem Owners.congr_engines (O : Owners front ts readyQ engines)
    (h : ∀ e i, engines' e = .converting i ↔ engines e = .converting i) :
    Owners front ts readyQ engines' where
  ready := O.ready
  nodup := O.nodup
  held e i he := O.held e i ((h e i).mp he)
  once e e' i he he' := O.once e e' i ((h e i).mp he) ((h e' i).mp he')
  owned i hi := (O.owned i hi).imp_right fun ⟨e, he⟩ => ⟨e, (h e i).mpr he⟩

theorem Owners.pending_iff {front' : Nat} {ts' : List (Task α β ε)} (O : Owners front ts readyQ engines)
    (h : ∀ i, Pending front' ts' i ↔ Pending front ts i) : Owners front' ts' readyQ engines where
  ready i hi := (h i).mpr (O.ready i hi)
  nodup := O.nodup
  held e i he := ⟨(h i).mpr (O.held e i he).1, (O.held e i he).2⟩
  once := O.once
  owned i hi := O.owned i ((h i).mp hi)

theorem Owners.push (O : Owners front ts readyQ engines) (b : α) :
    Owners front (ts ++ [⟨b, none, none⟩]) (readyQ ++ [front + ts.length]) engines where
  ready i hi := by
    apply pending_push.mpr
    rcases List.mem_append.mp hi with hi | hi
    · exact .inl (O.ready i hi)
    · exact .inr (List.mem_singleton.mp hi)
  nodup := by
    rw [List.nodup_append]
    refine ⟨O.nodup, List.nodup_singleton _, ?_⟩
    rintro i hi _ hj rfl
    have := (O.ready i hi).length_lt
    rw [List.mem_singleton.mp hj] at this
    exact this.false
  held e i he := by
    obtain ⟨hp, hn⟩ := O.held e i he
    refine ⟨pending_push.mpr (.inl hp), fun hi => ?_⟩
    rcases List.mem_append.mp hi with hi | hi
    · exact hn hi
    · have := hp.length_lt
      rw [List.mem_singleton.mp hi] at this
      exact this.false
  once := O.once
  owned i hi := by
    rcases pending_push.mp hi with hi | rfl
    · exact (O.owned i hi).imp_left (List.mem_append_left _)
    · exact .inl (List.mem_append_right _ (List.mem_singleton_self _))

theorem Owners.take {e : Fin n} {i : Nat} {is : List Nat} (O : Owners front ts (i :: is) engines)
    (he : engines e = .waiting) : Owners front ts is (Function.update engines e (.converting i)) where
  ready k hk := O.ready k (List.mem_cons_of_mem _ hk)
  nodup := (List.nodup_cons.mp O.nodup).2
  held e' k hk := by
    by_cases hee : e' = e
    · subst hee
      rw [Function.update_self] at hk
      cases hk
      exact ⟨O.ready i List.mem_cons_self, (List.nodup_cons.mp O.nodup).1⟩
    · rw [Function.update_of_ne hee] at hk
      obtain ⟨hp, hn⟩ := O.held e' k hk
      exact ⟨hp, fun h => hn (List.mem_cons_of_mem _ h)⟩
  once e1 e2 k h1 h2 := by
    -- an engine that held the task before would hold one that is still in the ready queue
    have hfree : ∀ e', e' ≠ e → Function.update engines e (.converting i) e' ≠ .converting i := by
      intro e' hee h
      rw [Function.update_of_ne hee] at h
      exact (O.held e' i h).2 List.mem_cons_self
    by_cases h1e : e1 = e <;> by_cases h2e : e2 = e
    · rw [h1e, h2e]
    · subst h1e
      rw [Function.update_self] at h1
      cases h1
      exact absurd h2 (hfree e2 h2e)
    · subst h2e
      rw [Function.update_self] at h2
      cases h2
      exact absurd h1 (hfree e1 h1e)
    · rw [Function.update_of_ne h1e] at h1
      rw [Function.update_of_ne h2e] at h2
      exact O.once e1 e2 k h1 h2
  owned k hk := by
    rcases O.owned k hk with hk | ⟨e', he'⟩
    · rcases List.mem_cons.mp hk with rfl | hk
      · exact .inr ⟨e, Function.update_self _ _ _⟩
      · exact .inl hk
    · have hee : e' ≠ e := by
        rintro rfl
        rw [he] at he'
        cases he'
      exact .inr ⟨e', by rwa [Function.update_of_ne hee]⟩

theorem Owners.convert {e : Fin n} {i : Nat} (hne : ∀ b, conv b ≠ .ok none)
    (O : Owners front ts readyQ engines) (he : engines e = .converting i) :
    Owners front (ts.modify (i - front) fun t => t.store (conv t.inBuf)) readyQ
      (Function.update engines e .notifying) := by
  obtain ⟨hp, hn⟩ := O.held e i he
  have hiff : ∀ k, Pending front (ts.modify (i - front) fun t => t.store (conv t.inBuf)) k ↔
      Pending front ts k ∧ k ≠ i := fun k => pending_store hne hp.1
  have hold : ∀ e' k, Function.update engines e .notifying e' = .converting k →
      engines e' = .converting k ∧ e' ≠ e := by
    intro e' k h
    by_cases hee : e' = e
    · subst hee
      rw [Function.update_self] at h
      cases h
    · rw [Function.update_of_ne hee] at h
      exact ⟨h, hee⟩
  refine ⟨?_, O.nodup, ?_, ?_, ?_⟩
  · intro k hk
    exact (hiff k).mpr ⟨O.ready k hk, fun h => hn (h ▸ hk)⟩
  · intro e' k h
    obtain ⟨h', hee⟩ := hold e' k h
    obtain ⟨hp', hn'⟩ := O.held e' k h'
    refine ⟨(hiff k).mpr ⟨hp', ?_⟩, hn'⟩
    rintro rfl
    exact hee (O.once e' e k h' he)
  · intro e1 e2 k h1 h2
    exact O.once e1 e2 k (hold e1 k h1).1 (hold e2 k h2).1
  · intro k hk
    obtain ⟨hp', hki⟩ := (hiff k).mp hk
    refine (O.owned k hp').imp_right fun ⟨e', he'⟩ => ⟨e', ?_⟩
    have hee : e' ≠ e := by
      rintro rfl
      rw [he] at he'
      cases he'
      exact hki rfl
    rwa [Function.update_of_ne hee]

def Engine.Awake (e : Engine) : Prop := e ≠ .asleep ∧ e ≠ .exited

/-- No thread waits for what is there already, unless somebody is about to wake it. -/
structure Woken (q : ConverterQueue α β ε n) : Prop where
  exited : ∀ e, q.engines e = .exited → q.isQuit = true
  awake : q.readyQ ≠ [] → ∃ e, (q.engines e).Awake
  pusher : ∀ b, q.pusher = .asleep b → q.maxQueueSize ≤ q.taskQ.length ∧ q.isQuit = false
  ended : q.popper = .asleep () → q.isQuit = true → q.taskQ ≠ []
  popper : q.popper = .asleep () → ∀ t ∈ q.taskQ.head?, t.isAvailable = true → ∃ e,
    q.engines e = .notifying

structure Sound (q : ConverterQueue α β ε n) :
    Prop extends Owners q.front q.taskQ q.readyQ q.engines, Woken q

theorem Caller.wake_ne_asleep {γ : Type} (c : Caller γ) (x : γ) : c.wake ≠ .asleep x := by
  cases c <;> nofun

theorem Engine.wake_ne_asleep (e : Engine) : e.wake ≠ .asleep := by
  cases e <;> nofun

theorem Engine.wake_converting {e : Engine} {i : Nat} : e.wake = .converting i ↔ e = .converting i := by
  cases e <;> simp [wake]

theorem Engine.wake_exited {e : Engine} : e.wake = .exited ↔ e = .exited := by
  cases e <;> simp [wake]

theorem Engine.Awake.wake {e : Engine} (h : e.Awake) : e.wake.Awake :=
  ⟨e.wake_ne_asleep, fun hw => h.2 (Engine.wake_exited.mp hw)⟩

theorem update_converting {e : Fin n} {st : Engine} (hold : ∀ i, engines e ≠ .converting i)
    (hnew : ∀ i, st ≠ .converting i) (e' : Fin n) (i : Nat) :
    Function.update engines e st e' = .converting i ↔ engines e' = .converting i := by
  by_cases hee : e' = e
  · subst hee
    rw [Function.update_self]
    exact iff_of_false (hnew i) (hold i)
  · rw [Function.update_of_ne hee]

namespace ConverterQueue

variable {q : ConverterQueue α β ε n}

theorem notifyReady_eq {woken : Option (Fin n)} (h : q.notifyReady woken = some engines') :
    (∀ e i, engines' e = .converting i ↔ q.engines e = .converting i) ∧
      (∀ e, engines' e = .exited → q.engines e = .exited) ∧
      (∀ e, q.engines e = .notifying → engines' e = .notifying) ∧
      ((∃ e, engines' e = .waiting) ∨ ∀ e, engines' e ≠ .asleep) := by
  cases woken with
  | none =>
      obtain ⟨hall, heq⟩ := Option.ite_none_right_eq_some.mp h
      cases heq
      exact ⟨fun _ _ => Iff.rfl, fun _ he => he, fun _ he => he, .inr hall⟩
  | some e =>
      obtain ⟨hasleep, heq⟩ := Option.ite_none_right_eq_some.mp h
      cases heq
      refine ⟨?_, ?_, ?_, .inl ⟨e, Function.update_self _ _ _⟩⟩
      · exact update_converting (by simp [hasleep]) (by simp)
      · intro e' he'
        by_cases hee : e' = e
        · subst hee
          rw [Function.update_self] at he'
          cases he'
        · rwa [Function.update_of_ne hee] at he'
      · intro e' he'
        have hee : e' ≠ e := by
          rintro rfl
          rw [hasleep] at he'
          cases he'
        rwa [Function.update_of_ne hee]

end ConverterQueue

variable {q : ConverterQueue α β ε n}

theorem Sound.pushLocked {q' : ConverterQueue α β ε n} {b : α} {woken : Option (Fin n)} (S : Sound q)
    (hn : 0 < n) (h : q.pushLocked b woken = some q') : Sound q' := by
  rw [ConverterQueue.pushLocked] at h
  split at h
  next =>
    split at h
    next =>
      cases h
      exact ⟨S.toOwners, ⟨S.exited, S.awake, nofun, S.ended, S.popper⟩⟩
    next hquit =>
      obtain ⟨engines, hno, rfl⟩ := Option.map_eq_some_iff.mp h
      obtain ⟨hconv, hexit, hnotif, hwait⟩ := ConverterQueue.notifyReady_eq hno
      refine ⟨(S.toOwners.push b).congr_engines hconv, ⟨?_, ?_, nofun, ?_, ?_⟩⟩
      · intro e he
        exact S.exited e (hexit e he)
      · intro _
        rcases hwait with ⟨e, he⟩ | hall
        · exact ⟨e, by simp [Engine.Awake, he]⟩
        · exact ⟨⟨0, hn⟩, hall _, fun he => hquit (S.exited _ (hexit _ he))⟩
      · intro _ hq
        exact absurd hq hquit
      · intro hpop t ht hav
        have ht' : t ∈ q.taskQ.head? := by
          cases hts : q.taskQ with
          | nil =>
              rw [hts] at ht
              cases ht
              cases hav
          | cons u us => rwa [hts] at ht
        exact (S.popper hpop t ht' hav).imp hnotif
  next hfull =>
    cases h
    rw [not_or, Nat.not_lt, Bool.not_eq_true] at hfull
    exact ⟨S.toOwners, ⟨S.exited, S.awake, fun _ _ => hfull, S.ended, S.popper⟩⟩

theorem Sound.popLocked (S : Sound q) : Sound q.popLocked := by
  rw [ConverterQueue.popLocked]
  split
  next hts =>
    split
    next => exact ⟨S.toOwners, ⟨S.exited, S.awake, S.pusher, nofun, nofun⟩⟩
    next hquit =>
      refine ⟨S.toOwners, ⟨S.exited, S.awake, S.pusher, fun _ hq => absurd hq hquit, ?_⟩⟩
      intro _ t ht
      simp only [hts] at ht
      cases ht
  next t ts hts =>
    split
    next ht =>
      have O := S.toOwners
      rw [hts] at O
      refine ⟨O.pending_iff fun i => pending_pop ht, ⟨S.exited, S.awake, ?_, nofun, nofun⟩⟩
      intro b hb
      exact absurd hb (Caller.wake_ne_asleep _ _)
    next ht =>
      refine ⟨S.toOwners, ⟨S.exited, S.awake, S.pusher, ?_, ?_⟩⟩
      · intro _ _ hnil
        rw [hts] at hnil
        cases hnil
      · intro _ u hu hav
        simp only [hts, List.head?_cons, Option.mem_def, Option.some.injEq] at hu
        subst hu
        exact absurd hav ht

theorem Sound.takeLocked {e : Fin n} (S : Sound q) (he : q.engines e = .waiting) :
    Sound (q.takeLocked e) := by
  have hnotif : ∀ st e', q.engines e' = .notifying → Function.update q.engines e st e' = .notifying := by
    intro st e' he'
    have hee : e' ≠ e := by
      rintro rfl
      rw [he] at he'
      cases he'
    rwa [Function.update_of_ne hee]
  rw [ConverterQueue.takeLocked]
  split
  next hr =>
    refine ⟨S.toOwners.congr_engines ?_, ⟨?_, fun h => absurd hr h, S.pusher, S.ended, ?_⟩⟩
    · apply update_converting (by simp [he])
      intro i
      split <;> nofun
    · intro e' he'
      by_cases hee : e' = e
      · subst hee
        simp only [Function.update_self] at he'
        split at he'
        · assumption
        · cases he'
      · simp only [Function.update_of_ne hee] at he'
        exact S.exited e' he'
    · intro hpop t ht hav
      exact (S.popper hpop t ht hav).imp (hnotif _)
  next i is hr =>
    have O := S.toOwners
    rw [hr] at O
    refine ⟨O.take he, ⟨?_, ?_, S.pusher, S.ended, ?_⟩⟩
    · intro e' he'
      by_cases hee : e' = e
      · subst hee
        simp only [Function.update_self] at he'
        cases he'
      · simp only [Function.update_of_ne hee] at he'
        exact S.exited e' he'
    · intro _
      exact ⟨e, by simp [Engine.Awake]⟩
    · intro hpop t ht hav
      exact (S.popper hpop t ht hav).imp (hnotif _)

theorem Sound.waiting_engine (S : Sound q) (e : Fin n) (hold : ∀ i, q.engines e ≠ .converting i)
    (popper : Caller Unit) (hpop : popper = .asleep () → q.popper = .asleep () ∧
      q.engines e ≠ .notifying) :
    Sound { q with engines := Function.update q.engines e .waiting, popper := popper } := by
  refine ⟨S.toOwners.congr_engines (update_converting hold (by simp)), ⟨?_, ?_, S.pusher, ?_, ?_⟩⟩
  · intro e' he'
    by_cases hee : e' = e
    · subst hee
      simp only [Function.update_self] at he'
      cases he'
    · simp only [Function.update_of_ne hee] at he'
      exact S.exited e' he'
  · intro _
    exact ⟨e, by simp [Engine.Awake]⟩
  · intro hp
    exact S.ended (hpop hp).1
  · intro hp t ht hav
    obtain ⟨e', he'⟩ := S.popper (hpop hp).1 t ht hav
    refine ⟨e', ?_⟩
    have hee : e' ≠ e := by
      rintro rfl
      exact (hpop hp).2 he'
    simpa only [Function.update_of_ne hee] using he'

theorem Sound.convert {e : Fin n} {i : Nat} (S : Sound q) (hne : ∀ b, conv b ≠ .ok none)
    (he : q.engines e = .converting i) :
    Sound { q with
      taskQ := q.storeResult conv i, engines := Function.update q.engines e .notifying } := by
  refine ⟨S.toOwners.convert hne he, ⟨?_, ?_, ?_, ?_, ?_⟩⟩
  · intro e' he'
    by_cases hee : e' = e
    · subst hee
      simp only [Function.update_self] at he'
      cases he'
    · simp only [Function.update_of_ne hee] at he'
      exact S.exited e' he'
  · intro _
    exact ⟨e, by simp [Engine.Awake]⟩
  · intro b hb
    simpa only [ConverterQueue.storeResult, List.length_modify] using S.pusher b hb
  · intro hp hquit hnil
    apply S.ended hp hquit
    have hlen := congrArg List.length hnil
    simpa only [ConverterQueue.storeResult, List.length_modify, List.length_nil,
      List.length_eq_zero_iff] using hlen
  · intro _ _ _ _
    exact ⟨e, by simp⟩

theorem Sound.quit (S : Sound q) (h : List (Output α β ε)) :
    Sound { q with
      isQuit := true
      engines := fun e => (q.engines e).wake
      pusher := q.pusher.wake
      popper := q.popper.wake
      history := h } := by
  refine ⟨S.toOwners.congr_engines fun e i => Engine.wake_converting, ⟨fun _ _ => rfl, ?_, ?_, ?_, ?_⟩⟩
  · intro hr
    exact (S.awake hr).imp fun e he => he.wake
  · intro b hb
    exact absurd hb (Caller.wake_ne_asleep _ _)
  · intro hp
    exact absurd hp (Caller.wake_ne_asleep _ _)
  · intro hp
    exact absurd hp (Caller.wake_ne_asleep _ _)

theorem Sound.step {q' : ConverterQueue α β ε n} {ev : Event α n} (S : Sound q)
    (hne : ∀ b, conv b ≠ .ok none) (hn : 0 < n) (hq : q.step conv ev = some q') : Sound q' := by
  cases ev with
  | push inBuf =>
      simp only [ConverterQueue.step] at hq
      split at hq <;> cases hq
      · exact ⟨S.toOwners, ⟨S.exited, S.awake, nofun, S.ended, S.popper⟩⟩
      · exact S
  | pushWait woken =>
      rw [ConverterQueue.step] at hq
      split at hq
      · exact S.pushLocked hn hq
      · cases hq
  | pop =>
      rw [ConverterQueue.step] at hq
      split at hq <;> cases hq
      exact ⟨S.toOwners, ⟨S.exited, S.awake, S.pusher, nofun, nofun⟩⟩
  | popWait =>
      rw [ConverterQueue.step] at hq
      split at hq <;> cases hq
      exact S.popLocked
  | quit =>
      cases hq
      exact S.quit _
  | take e =>
      obtain ⟨he, heq⟩ := Option.ite_none_right_eq_some.mp hq
      cases heq
      exact S.takeLocked he
  | convert e =>
      rw [ConverterQueue.step] at hq
      split at hq <;> cases hq
      exact S.convert hne ‹_›
  | notify e =>
      obtain ⟨he, heq⟩ := Option.ite_none_right_eq_some.mp hq
      cases heq
      apply S.waiting_engine e (by simp [he])
      intro hp
      exact absurd hp (Caller.wake_ne_asleep _ _)
  | wakePusher =>
      cases hq
      exact ⟨S.toOwners, ⟨S.exited, S.awake, fun b hb => absurd hb (Caller.wake_ne_asleep _ _),
        S.ended, S.popper⟩⟩
  | wakePopper =>
      cases hq
      exact ⟨S.toOwners, ⟨S.exited, S.awake, S.pusher, fun hp => absurd hp (Caller.wake_ne_asleep _ _),
        fun hp => absurd hp (Caller.wake_ne_asleep _ _)⟩⟩
  | wakeEngine e =>
      cases hq
      by_cases he : q.engines e = .asleep
      · rw [he]
        exact S.waiting_engine e (by simp [he]) q.popper fun hp => ⟨hp, by simp [he]⟩
      · have hwake : (q.engines e).wake = q.engines e := by
          cases hst : q.engines e with
          | asleep => exact absurd hst he
          | waiting | converting | notifying | exited => rfl
        rw [hwake, Function.update_eq_self]
        exact S

theorem Sound.init (maxQueueSize : Nat) : Sound (ConverterQueue.init maxQueueSize n : ConverterQueue
    α β ε n) := by
  refine ⟨⟨nofun, List.nodup_nil, nofun, nofun, ?_⟩, ⟨nofun, nofun, nofun, nofun, nofun⟩⟩
  rintro i ⟨-, t, ht, -⟩
  cases ht

theorem Sound.run {evs : List (Event α n)} {q q' : ConverterQueue α β ε n} (S : Sound q)
    (hne : ∀ b, conv b ≠ .ok none) (hn : 0 < n) (hq : q.run conv evs = some q') : Sound q' := by
  induction evs generalizing q with
  | nil =>
      cases hq
      exact S
  | cons ev evs ih =>
      obtain ⟨q1, h1, h2⟩ := Option.bind_eq_some_iff.mp hq
      exact ih (S.step hne hn h1) h2

def Engine.work : Engine → Nat
  | .waiting => 1
  | .converting _ => 4
  | .notifying => 3
  | .asleep | .exited => 0

def Caller.work {γ : Type} : Caller γ → Nat
  | .waiting _ => 1
  | .idle | .asleep _ => 0

def ConverterQueue.work (q : ConverterQueue α β ε n) : Nat :=
  4 * q.readyQ.length + ∑ e, (q.engines e).work + q.popper.work

end WalbTools.DiffCompressor
