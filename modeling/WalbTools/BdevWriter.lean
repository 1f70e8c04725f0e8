import WalbTools.AioUtil

namespace WalbTools.BdevWriter

open Overlay AioUtil

/-- The sizes are parameters of 32 bits. -/
def isOverlapped (addr0 size0 addr1 size1 : Nat) : Bool :=
  addr0 < (addr1 + size1 % 2 ^ 32) % 2 ^ 64 && addr1 < (addr0 + size0 % 2 ^ 32) % 2 ^ 64

def isOverwritten (addr0 size0 addr1 size1 : Nat) : Bool :=
  addr1 ≤ addr0 && (addr0 + size0 % 2 ^ 32) % 2 ^ 64 ≤ (addr1 + size1 % 2 ^ 32) % 2 ^ 64

inductive IoState where
  | init | overwritten | submitted
  deriving DecidableEq

structure Io (γ : Type) where
  offset : Nat
  data : List γ

structure Status where
  aioKey : Nat
  nOverlapped : Nat
  state : IoState

variable {γ : Type}

namespace Io

def size (io : Io γ) : Nat := io.data.length

def isOverlapped (io rhs : Io γ) : Bool := BdevWriter.isOverlapped io.offset io.size rhs.offset rhs.size

def isOverwrittenBy (io rhs : Io γ) : Bool :=
  BdevWriter.isOverwritten io.offset io.size rhs.offset rhs.size

def content (io : Io γ) : Nat → Option γ := stretch io.offset io.data

end Io

def Status.new : Status := ⟨0, 2 ^ 32 - 1, .init⟩

/-- `ios` and `status` are the IOs at their addresses; `next` is a fresh one. The queues hold
addresses: `list` the IOs in processing, `ioSet` the ready ones and `set` those of the
overlap serializer, both by offset. -/
structure AsyncBdevWriter (γ : Type) where
  bufferSize : Nat
  ios : Nat → Io γ
  status : Nat → Status
  next : Nat
  list : List Nat
  processingSize : Nat
  ioSet : List Nat
  totalSize : Nat
  doneSet : List Nat
  set : List Nat
  maxSize : Nat
  aio : Aio Nat γ

def init (bufferSize : Nat) (device : Nat → γ) (schedule : Nat → List Completion) : AsyncBdevWriter γ :=
  ⟨bufferSize, fun _ => ⟨0, []⟩, fun _ => .new, 0, [], 0, [], 0, [], [], 0,
    .init (bufferSize / 2 ^ 9) device schedule⟩

/-- A multiset keeps equal keys in the order of insertion. -/
def insertIo (offset : Nat → Nat) (i : Nat) : List Nat → List Nat
  | [] => [i]
  | j :: js => if offset i < offset j then i :: j :: js else j :: insertIo offset i js

namespace AsyncBdevWriter

def offset (w : AsyncBdevWriter γ) (i : Nat) : Nat := (w.ios i).offset

def push (w : AsyncBdevWriter γ) (i : Nat) : AsyncBdevWriter γ :=
  { w with ioSet := insertIo w.offset i w.ioSet, totalSize := w.totalSize + (w.ios i).size }

/-- The rest of a turn of `submit` for an IO that was taken out of the set. -/
def submitIo (w : AsyncBdevWriter γ) (i : Nat) : AsyncBdevWriter γ :=
  if (w.status i).state = .overwritten then w
  else
    let (key, aio) := w.aio.prepare (w.ios i).content
    { w with status := Function.update w.status i { w.status i with
      state := .submitted, aioKey := key }, aio := aio }

def submitLoop : List Nat → AsyncBdevWriter γ → AsyncBdevWriter γ
  | [], w => w
  | i :: is, w =>
      if w.aio.isQueueFull then w
      else submitLoop is (submitIo { w with ioSet := is, totalSize := w.totalSize - (w.ios i).size } i)

def submit (w : AsyncBdevWriter γ) : AsyncBdevWriter γ := submitLoop w.ioSet w

def tryErase (w : AsyncBdevWriter γ) (i : Nat) : AsyncBdevWriter γ :=
  if i ∈ (w.ioSet.dropWhile fun j => w.offset j < w.offset i).takeWhile fun j => w.offset j =
    w.offset i then
    { w with ioSet := w.ioSet.erase i, totalSize := w.totalSize - (w.ios i).size }
  else w

def waitFor (w : AsyncBdevWriter γ) (i : Nat) : Option (AsyncBdevWriter γ) :=
  let key := (w.status i).aioKey
  if key ∈ w.doneSet then some { w with doneSet := w.doneSet.erase key }
  else (w.aio.waitFor key).map fun aio => { w with aio := aio }

def waitAny (w : AsyncBdevWriter γ) : Option (AsyncBdevWriter γ) :=
  w.aio.waitOneOrMore.map fun (keys, aio) => { w with aio := aio, doneSet := keys ++ w.doneSet }

def forceCompleteLoop (i : Nat) : Nat → AsyncBdevWriter γ → Option (AsyncBdevWriter γ)
  | 0, _ => none
  | fuel + 1, w =>
      match (w.status i).state with
      | .init =>
          let w := w.submit
          if (w.status i).state = .submitted then w.waitFor i
            else w.waitAny.bind (forceCompleteLoop i fuel)
      | .overwritten => some (w.tryErase i)
      | .submitted => w.waitFor i

def forceComplete (w : AsyncBdevWriter γ) (i : Nat) : Option (AsyncBdevWriter γ) :=
  forceCompleteLoop i (2 * w.ioSet.length + w.aio.pendingIOs.length + w.aio.completedIOs.length + 1) w

def overlappedIos (w : AsyncBdevWriter γ) (io : Io γ) : List Nat :=
  let key0 := if w.maxSize < io.offset then io.offset - w.maxSize else 0
  let key1 := (io.offset + io.size) % 2 ^ 64
  ((w.set.dropWhile fun j => w.offset j < key0).takeWhile fun j => w.offset j < key1).filter fun j =>
    io.isOverlapped (w.ios j)

def overwrite (io ioX : Io γ) (st : Status) : Status :=
  if ioX.isOverwrittenBy io ∧ st.state = .init then { st with state := .overwritten } else st

def add (w : AsyncBdevWriter γ) (i : Nat) : AsyncBdevWriter γ :=
  let xs := w.overlappedIos (w.ios i)
  let status := xs.foldl (fun m x => Function.update m x (overwrite (w.ios i) (w.ios x) (m x))) w.status
  { w with
    status := Function.update status i { status i with nOverlapped := xs.length }
    set := insertIo w.offset i w.set
    maxSize := max w.maxSize (w.ios i).size }

/-- The loop does not go on to a second IO of the same offset. -/
def erase (w : AsyncBdevWriter γ) (i : Nat) : Option (List Nat) :=
  match w.set.dropWhile fun j => w.offset j < w.offset i with
  | [] => some w.set
  | j :: js =>
      if w.offset j ≠ w.offset i then some w.set
      else if j = i then some ((w.set.takeWhile fun j => w.offset j < w.offset i) ++ js)
      else none

def release (w : AsyncBdevWriter γ) (x : Nat) : AsyncBdevWriter γ :=
  let st := { w.status x with nOverlapped := (w.status x).nOverlapped - 1 }
  let w := { w with status := Function.update w.status x st }
  if st.nOverlapped = 0 ∧ st.state = .init then w.push x else w

def delIoAndPushReadyIos (w : AsyncBdevWriter γ) (i : Nat) : Option (AsyncBdevWriter γ) :=
  (w.erase i).map fun set =>
    let w := { w with set := set, maxSize := if set = [] then 0 else w.maxSize }
    (w.overlappedIos (w.ios i)).foldl release w

def hasManyProcessingIos (w : AsyncBdevWriter γ) : Bool :=
  w.bufferSize / 2 ≤ w.processingSize || w.aio.queueSize / 2 ≤ w.aio.queueUsage

def hasEnoughReadyIos (w : AsyncBdevWriter γ) : Bool :=
  w.bufferSize / 2 ≤ w.totalSize || w.aio.queueSize / 2 ≤ w.ioSet.length

/-- Without an IO in processing there is no front. -/
def waitForAnIoCompletion (w : AsyncBdevWriter γ) : Option (AsyncBdevWriter γ) :=
  match w.list with
  | [] => none
  | i :: _ => do
      let w ← w.forceComplete i
      let w ← w.delIoAndPushReadyIos i
      return { w with list := w.list.tail, processingSize := w.processingSize - (w.ios i).size }

def waitWhileMany : Nat → AsyncBdevWriter γ → Option (AsyncBdevWriter γ)
  | 0, _ => none
  | fuel + 1, w =>
      if w.hasManyProcessingIos then w.waitForAnIoCompletion.bind (waitWhileMany fuel) else some w

def enter (w : AsyncBdevWriter γ) (io : Nat × List γ) : AsyncBdevWriter γ :=
  let i := w.next
  let w := add { w with
    ios := Function.update w.ios i ⟨io.1, io.2⟩
    status := Function.update w.status i .new
    next := i + 1
    list := w.list ++ [i]
    processingSize := w.processingSize + io.2.length } i
  if (w.status i).nOverlapped = 0 then w.push i else w

def processIosLoop (force : Bool) : Nat → List (Nat × List γ) → AsyncBdevWriter γ →
    Option (AsyncBdevWriter γ)
  | 0, _, _ => none
  | fuel + 1, fetched, w => do
      let w ← waitWhileMany (w.list.length + 1) w
      let w := fetched.foldl enter w
      let w := if force || w.hasEnoughReadyIos then w.submit else w
      if !force || w.ioSet.isEmpty then return w
      processIosLoop force fuel [] w

/-- `fetched` are the IOs of the queue that were not yet in processing. -/
def processIos (force : Bool) (fetched : List (Nat × List γ)) (w : AsyncBdevWriter γ) :
    Option (AsyncBdevWriter γ) :=
  processIosLoop force (w.list.length + fetched.length + 1) fetched w

def waitForAllLoop : Nat → AsyncBdevWriter γ → Option (AsyncBdevWriter γ)
  | 0, _ => none
  | fuel + 1, w => if w.list = [] then some w else w.waitForAnIoCompletion.bind (waitForAllLoop fuel)

def waitForAllProcessingIos (w : AsyncBdevWriter γ) : Option (AsyncBdevWriter γ) :=
  waitForAllLoop (w.list.length + 1) w

def waitForAll (fetched : List (Nat × List γ)) (w : AsyncBdevWriter γ) : Option (AsyncBdevWriter γ) :=
  (w.processIos true fetched).bind waitForAllProcessingIos

end AsyncBdevWriter

/-- Calls of `submit` or `waitForAll` with the IOs that came in before each. -/
inductive Call (γ : Type) where
  | submit (fetched : List (Nat × List γ))
  | waitForAll (fetched : List (Nat × List γ))

def Call.fetched : Call γ → List (Nat × List γ)
  | .submit fetched => fetched
  | .waitForAll fetched => fetched

def Call.run (w : AsyncBdevWriter γ) : Call γ → Option (AsyncBdevWriter γ)
  | .submit fetched => w.processIos false fetched
  | .waitForAll fetched => w.waitForAll fetched

structure Io.Valid (io : Io γ) : Prop where
  pos : 0 < io.size
  size_lt : io.size < 2 ^ 32
  end_lt : io.offset + io.size < 2 ^ 64

theorem Io.isOverlapped_iff {io rhs : Io γ} (hio : io.Valid) (hrhs : rhs.Valid) :
    io.isOverlapped rhs = true ↔ io.offset < rhs.offset + rhs.size ∧
      rhs.offset < io.offset + io.size := by
  rw [isOverlapped, BdevWriter.isOverlapped, Nat.mod_eq_of_lt hio.size_lt, Nat.mod_eq_of_lt hrhs.size_lt,
    Nat.mod_eq_of_lt hio.end_lt, Nat.mod_eq_of_lt hrhs.end_lt, Bool.and_eq_true, decide_eq_true_eq,
    decide_eq_true_eq]

theorem Io.isOverlapped_comm {io rhs : Io γ} (hio : io.Valid) (hrhs : rhs.Valid) :
    io.isOverlapped rhs = rhs.isOverlapped io := by
  rw [Bool.eq_iff_iff, isOverlapped_iff hio hrhs, isOverlapped_iff hrhs hio, and_comm]

theorem Io.disjoint_content {io rhs : Io γ} (hio : io.Valid) (hrhs : rhs.Valid)
    (h : io.isOverlapped rhs = false) : Disjoint io.content rhs.content := by
  have hn : ¬(io.offset < rhs.offset + rhs.size ∧ rhs.offset < io.offset + io.size) := by
    rw [← isOverlapped_iff hio hrhs, h]
    exact Bool.false_ne_true
  intro a
  rw [content, content, stretch_eq_none_iff, stretch_eq_none_iff]
  simp only [size] at hn
  omega

theorem Io.content_of_isOverwrittenBy {io rhs : Io γ} (hio : io.Valid) (hrhs : rhs.Valid)
    (h : io.isOverwrittenBy rhs = true) (a : Nat) (ha : rhs.content a = none) : io.content a = none := by
  rw [isOverwrittenBy, isOverwritten, Nat.mod_eq_of_lt hio.size_lt, Nat.mod_eq_of_lt hrhs.size_lt,
    Nat.mod_eq_of_lt hio.end_lt, Nat.mod_eq_of_lt hrhs.end_lt, Bool.and_eq_true, decide_eq_true_eq,
    decide_eq_true_eq] at h
  rw [content, stretch_eq_none_iff] at ha ⊢
  simp only [size] at h
  omega

def Sorted (offset : Nat → Nat) (l : List Nat) : Prop :=
  l.Pairwise fun i j => offset i < offset j ∨ offset i = offset j ∧ i < j

theorem perm_insertIo (offset : Nat → Nat) (i : Nat) (l : List Nat) :
    (insertIo offset i l).Perm (i :: l) := by
  induction l with
  | nil => exact .refl _
  | cons j js ih =>
      rw [insertIo]
      split
      · exact .refl _
      · exact (ih.cons j).trans (.swap i j js)

theorem mem_insertIo {offset : Nat → Nat} {i k : Nat} {l : List Nat} :
    k ∈ insertIo offset i l ↔ k = i ∨ k ∈ l := by
  rw [(perm_insertIo offset i l).mem_iff, List.mem_cons]

theorem Sorted.insertIo {offset : Nat → Nat} {l : List Nat} (h : Sorted offset l) {i : Nat}
    (hi : ∀ j ∈ l, j < i) : Sorted offset (insertIo offset i l) := by
  induction l with
  | nil => exact List.pairwise_singleton _ _
  | cons j js ih =>
      obtain ⟨hj, hjs⟩ := List.pairwise_cons.mp h
      rw [BdevWriter.insertIo]
      split
      next hlt =>
        refine List.pairwise_cons.mpr ⟨?_, h⟩
        intro k hk
        rcases List.mem_cons.mp hk with rfl | hk
        · exact .inl hlt
        · have := hj k hk
          omega
      next hge =>
        refine List.pairwise_cons.mpr ⟨?_, ih hjs fun k hk => hi k (List.mem_cons_of_mem _ hk)⟩
        intro k hk
        rcases mem_insertIo.mp hk with rfl | hk
        · have := hi j List.mem_cons_self
          omega
        · exact hj k hk

theorem filter_dropWhile {α : Type} {p q : α → Bool} {l : List α}
    (h : ∀ x ∈ l, q x = true → p x = false) :
    (l.dropWhile q).filter p = l.filter p := by
  induction l with
  | nil => rfl
  | cons x xs ih =>
      rw [List.dropWhile_cons]
      split
      next hq =>
        rw [ih fun y hy => h y (List.mem_cons_of_mem _ hy), List.filter_cons_of_neg]
        rw [h x List.mem_cons_self hq]
        exact Bool.false_ne_true
      next => rfl

theorem filter_takeWhile {α : Type} {p q : α → Bool} {l : List α}
    (h : l.Pairwise fun x y => q x = false → q y = false) (hp : ∀ x ∈ l, q x = false → p x = false) :
    (l.takeWhile q).filter p = l.filter p := by
  induction l with
  | nil => rfl
  | cons x xs ih =>
      obtain ⟨hx, hxs⟩ := List.pairwise_cons.mp h
      rw [List.takeWhile_cons]
      split
      next hq =>
        rw [List.filter_cons, List.filter_cons, ih hxs fun y hy => hp y (List.mem_cons_of_mem _ hy)]
      next hq =>
        rw [Bool.not_eq_true] at hq
        symm
        rw [List.filter_nil, List.filter_eq_nil_iff]
        intro y hy
        rw [Bool.not_eq_true]
        rcases List.mem_cons.mp hy with rfl | hy'
        · exact hp y hy hq
        · exact hp y hy (hx y hy' hq)

namespace AsyncBdevWriter

/-- `forEachOverlapped` misses none, since no IO is larger than `maxSize_`. -/
theorem overlappedIos_eq {w : AsyncBdevWriter γ} {io : Io γ} (hio : io.Valid)
    (hsort : Sorted w.offset w.set)
    (hvalid : ∀ j ∈ w.set, (w.ios j).Valid) (hmax : ∀ j ∈ w.set, (w.ios j).size ≤ w.maxSize) :
    w.overlappedIos io = w.set.filter fun j => io.isOverlapped (w.ios j) := by
  have hover : ∀ j ∈ w.set, io.isOverlapped (w.ios j) = true →
      io.offset < w.offset j + (w.ios j).size ∧ w.offset j < io.offset + io.size :=
    fun j hj h => (Io.isOverlapped_iff hio (hvalid j hj)).mp h
  dsimp only [overlappedIos]
  rw [Nat.mod_eq_of_lt hio.end_lt, filter_takeWhile, filter_dropWhile]
  · intro j hj hkey
    rw [decide_eq_true_eq] at hkey
    rw [← Bool.not_eq_true]
    intro h
    have h₁ := hover j hj h
    have h₂ := hmax j hj
    split at hkey <;> omega
  · apply hsort.sublist (List.dropWhile_sublist _) |>.imp
    intro j k hjk
    simp only [decide_eq_false_iff_not]
    omega
  · intro j hj hkey
    rw [decide_eq_false_iff_not] at hkey
    rw [← Bool.not_eq_true]
    intro h
    have h₁ := hover j ((List.dropWhile_sublist _).subset hj) h
    omega

theorem erase_eq {w : AsyncBdevWriter γ} {i : Nat} (hsort : Sorted w.offset w.set) (hi : i ∈ w.set)
    (hfront : ∀ j ∈ w.set, i ≤ j) : w.erase i = some (w.set.erase i) := by
  have hsplit : ∀ l : List Nat, Sorted w.offset l → i ∈ l → (∀ j ∈ l, i ≤ j) →
      ∃ js, l.dropWhile (fun j => w.offset j < w.offset i) = i :: js ∧
        l.erase i = l.takeWhile (fun j => w.offset j < w.offset i) ++ js := by
    intro l hl hil hle
    induction l with
    | nil => exact absurd hil List.not_mem_nil
    | cons j js ih =>
        obtain ⟨hj, hjs⟩ := List.pairwise_cons.mp hl
        by_cases hji : j = i
        · subst hji
          refine ⟨js, ?_, ?_⟩
          · rw [List.dropWhile_cons_of_neg]
            simp
          · rw [List.takeWhile_cons_of_neg (by simp), List.erase_cons_head, List.nil_append]
        · have hmem : i ∈ js := (List.mem_cons.mp hil).resolve_left (Ne.symm hji)
          have hlt : w.offset j < w.offset i := by
            have h₁ := hj i hmem
            have h₂ := hle j List.mem_cons_self
            omega
          obtain ⟨ks, h₁, h₂⟩ := ih hjs hmem fun k hk => hle k (List.mem_cons_of_mem _ hk)
          refine ⟨ks, ?_, ?_⟩
          · rw [List.dropWhile_cons_of_pos (by simpa using hlt), h₁]
          · rw [List.takeWhile_cons_of_pos (by simpa using hlt),
              List.erase_cons_tail (by simpa using hji), h₂,
              List.cons_append]
  obtain ⟨js, h₁, h₂⟩ := hsplit w.set hsort hi hfront
  rw [erase, h₁, h₂]
  simp

end AsyncBdevWriter

theorem insertIo_ordered {offset : Nat → Nat} {l : List Nat}
    (h : l.Pairwise fun i j => offset i ≤ offset j) (i : Nat) :
    (insertIo offset i l).Pairwise fun i j => offset i ≤ offset j := by
  induction l with
  | nil => exact List.pairwise_singleton _ _
  | cons j js ih =>
      obtain ⟨hj, hjs⟩ := List.pairwise_cons.mp h
      rw [insertIo]
      split
      next hlt =>
        refine List.pairwise_cons.mpr ⟨?_, h⟩
        intro k hk
        rcases List.mem_cons.mp hk with rfl | hk
        · exact hlt.le
        · exact hlt.le.trans (hj k hk)
      next hge =>
        refine List.pairwise_cons.mpr ⟨?_, ih hjs⟩
        intro k hk
        rcases mem_insertIo.mp hk with rfl | hk
        · exact Nat.not_lt.mp hge
        · exact hj k hk

theorem mem_equalRange {offset : Nat → Nat} {l : List Nat}
    (h : l.Pairwise fun i j => offset i ≤ offset j) {i : Nat} :
    i ∈ ((l.dropWhile fun j => offset j < offset i).takeWhile fun j => offset j = offset i) ↔ i ∈ l := by
  constructor
  · intro hi
    exact (List.dropWhile_sublist _).subset ((List.takeWhile_sublist _).subset hi)
  · intro hi
    have heq : ((l.dropWhile fun j => offset j < offset i).takeWhile fun j => offset j =
        offset i).filter (· == i) =
          l.filter (· == i) := by
      rw [filter_takeWhile, filter_dropWhile]
      · intro x _ hx
        rw [decide_eq_true_eq] at hx
        rw [beq_eq_false_iff_ne]
        rintro rfl
        exact hx.false
      · -- past the IOs of a smaller offset, one of another offset is past all of this one
        have hdrop : ∀ x ∈ l.dropWhile (fun j => offset j < offset i), offset i ≤ offset x := by
          intro x hx
          cases hd : l.dropWhile (fun j => offset j < offset i) with
          | nil =>
              rw [hd] at hx
              exact absurd hx List.not_mem_nil
          | cons y ys =>
              have hy : offset i ≤ offset y := by
                have := List.head?_dropWhile_not (fun j => decide (offset j < offset i)) l
                rw [hd] at this
                simpa using this
              have hp := h.sublist (List.dropWhile_sublist fun j => decide (offset j < offset i))
              rw [hd] at hx hp
              rcases List.mem_cons.mp hx with rfl | hx
              · exact hy
              · exact hy.trans (List.rel_of_pairwise_cons hp hx)
        have hp := h.sublist (List.dropWhile_sublist fun j => decide (offset j < offset i))
        apply hp.imp_of_mem
        intro x y hx hy hxy hne
        rw [decide_eq_false_iff_not] at hne ⊢
        have := hdrop x hx
        omega
      · intro x _ hx
        rw [decide_eq_false_iff_not] at hx
        rw [beq_eq_false_iff_ne]
        rintro rfl
        exact hx rfl
    have hmem : i ∈ l.filter (· == i) := List.mem_filter.mpr ⟨hi, beq_self_eq_true i⟩
    rw [← heq] at hmem
    exact (List.mem_filter.mp hmem).1

theorem foldl_update {σ : Type} (f : Nat → σ → σ) {xs : List Nat} (hn : xs.Nodup) (m : Nat → σ) :
    xs.foldl (fun m x => Function.update m x (f x (m x))) m = fun i => if i ∈ xs then f i (m i)
      else m i := by
  induction xs generalizing m with
  | nil =>
      funext i
      rw [List.foldl_nil, if_neg List.not_mem_nil]
  | cons x xs ih =>
      obtain ⟨hx, hxs⟩ := List.nodup_cons.mp hn
      rw [List.foldl_cons, ih hxs]
      funext i
      by_cases hi : i = x
      · subst hi
        rw [if_neg hx, if_pos List.mem_cons_self, Function.update_self]
      · rw [Function.update_of_ne hi]
        simp only [List.mem_cons, hi, false_or]

/-- The serializer holds the IOs of the list, and each of them counts the older ones that it
overlaps. -/
structure Counted (w : AsyncBdevWriter γ) : Prop where
  sorted : w.list.Pairwise (· < ·)
  fresh : ∀ i ∈ w.list, i < w.next
  valid : ∀ i ∈ w.list, (w.ios i).Valid
  set_perm : w.set.Perm w.list
  set_sorted : Sorted w.offset w.set
  maxSize : ∀ i ∈ w.list, (w.ios i).size ≤ w.maxSize
  count : ∀ i ∈ w.list, (w.status i).nOverlapped =
    (w.list.filter fun j => decide (j < i) && (w.ios i).isOverlapped (w.ios j)).length

structure Queued (w : AsyncBdevWriter γ) : Prop extends Counted w where
  nodup : w.ioSet.Nodup
  ordered : w.ioSet.Pairwise fun i j => w.offset i ≤ w.offset j
  ready : ∀ i ∈ w.ioSet, i ∈ w.list ∧ (w.status i).nOverlapped = 0 ∧ (w.status i).state ≠ .submitted
  waiting : ∀ i ∈ w.list, (w.status i).state = .init → (w.status i).nOverlapped = 0 → i ∈ w.ioSet
  started : ∀ i ∈ w.list, (w.status i).state = .submitted → (w.status i).nOverlapped = 0
  overwritten : ∀ i ∈ w.list, (w.status i).state = .overwritten →
    ∃ j ∈ w.list, i < j ∧ ∀ a, (w.ios j).content a = none → (w.ios i).content a = none
  processingSize : w.processingSize = (w.list.map fun i => (w.ios i).size).sum
  totalSize : w.totalSize = (w.ioSet.map fun i => (w.ios i).size).sum

/-- The IOs of `l` are those that the engine may be working on; written in their order,
they make `img` of what is on the device. -/
structure Engine (w : AsyncBdevWriter γ) (owes : Nat → Nat → Option γ) (l : List Nat)
    (img : Nat → γ) : Prop where
  ok : w.aio.Ok owes w.doneSet
  keys : ∀ k, k ∈ w.aio.keys ++ w.doneSet ↔ ∃ i ∈ l, (w.status i).state = .submitted ∧
    (w.status i).aioKey = k
  inj : ∀ i ∈ l, ∀ j ∈ l, (w.status i).state = .submitted → (w.status j).state = .submitted →
    (w.status i).aioKey = (w.status j).aioKey → i = j
  owes_eq : ∀ i ∈ l, (w.status i).state = .submitted → owes (w.status i).aioKey = (w.ios i).content
  image : write (overlay (l.map fun i => (w.ios i).content)) w.aio.target = img

variable {w : AsyncBdevWriter γ} {owes : Nat → Nat → Option γ} {l : List Nat} {img : Nat → γ}

theorem Queued.disjoint (Q : Queued w) {i j : Nat} (hi : i ∈ w.list) (hj : j ∈ w.list) (hij : i ≠ j)
    (hi0 : (w.status i).nOverlapped = 0) (hj0 : (w.status j).nOverlapped = 0) :
    Disjoint (w.ios i).content (w.ios j).content := by
  have hlt : ∀ i ∈ w.list, ∀ j ∈ w.list, j < i → (w.status i).nOverlapped = 0 →
      Disjoint (w.ios i).content (w.ios j).content := by
    intro i hi j hj hji h0
    rw [Q.count i hi, List.length_eq_zero_iff, List.filter_eq_nil_iff] at h0
    apply Io.disjoint_content (Q.valid i hi) (Q.valid j hj)
    have := h0 j hj
    simpa [hji] using this
  rcases Nat.lt_or_gt_of_ne hij with h | h
  · exact (hlt j hj i hi h hj0).symm
  · exact hlt i hi j hj h hi0

theorem Engine.frame (E : Engine w owes l img) {target : Nat → γ}
    (h : ∀ x, (∀ d ∈ w.aio.pendingIOs, d.effect x = none) → target x = w.aio.target x) :
    write (overlay (l.map fun i => (w.ios i).content)) target = img := by
  rw [← E.image]
  apply write_congr
  intro a ha
  apply h
  intro d hd
  obtain ⟨i, hi, hst, hkey⟩ := (E.keys d.key).mp (Aio.mem_keys_of_pending hd)
  rw [E.ok.effect d hd, ← hkey, E.owes_eq i hi hst]
  exact overlay_eq_none_iff.mp ha _ (List.mem_map_of_mem hi)

structure Kept (w w' : AsyncBdevWriter γ) : Prop where
  list : w'.list = w.list
  ios : w'.ios = w.ios
  bufferSize : w'.bufferSize = w.bufferSize
  queueSize : w'.aio.queueSize = w.aio.queueSize

theorem Kept.refl (w : AsyncBdevWriter γ) : Kept w w := ⟨rfl, rfl, rfl, rfl⟩

theorem Kept.trans {w w' w'' : AsyncBdevWriter γ} (h : Kept w w') (h' : Kept w' w'') : Kept w w'' :=
  ⟨h'.list.trans h.list, h'.ios.trans h.ios, h'.bufferSize.trans h.bufferSize,
    h'.queueSize.trans h.queueSize⟩

theorem Queued.skip (Q : Queued w) {i : Nat} {is : List Nat} (hset : w.ioSet = i :: is)
    (hst : (w.status i).state = .overwritten) :
    Queued { w with ioSet := is, totalSize := w.totalSize - (w.ios i).size } := by
  have hn := Q.nodup
  have ho := Q.ordered
  have ht := Q.totalSize
  rw [hset] at hn ho ht
  refine { Q with
    nodup := (List.nodup_cons.mp hn).2
    ordered := (List.pairwise_cons.mp ho).2
    ready := fun j hj => Q.ready j (hset ▸ List.mem_cons_of_mem i hj)
    waiting := ?_
    totalSize := ?_ }
  · intro j hj hinit h0
    have hmem := Q.waiting j hj hinit h0
    rw [hset] at hmem
    apply (List.mem_cons.mp hmem).resolve_left
    rintro rfl
    rw [hst] at hinit
    cases hinit
  · simp only [ht, List.map_cons, List.sum_cons, Nat.add_sub_cancel_left]

theorem Queued.start (Q : Queued w) {i : Nat} {is : List Nat} (hset : w.ioSet = i :: is) (key : Nat)
    (aio : Aio Nat γ) :
    Queued { w with
      ioSet := is
      totalSize := w.totalSize - (w.ios i).size
      status := Function.update w.status i { w.status i with state := .submitted, aioKey := key }
      aio := aio } := by
  have hn := Q.nodup
  have ho := Q.ordered
  have ht := Q.totalSize
  obtain ⟨hi, hi0, -⟩ := Q.ready i (hset ▸ List.mem_cons_self)
  rw [hset] at hn ho ht
  have hover : ∀ j, (Function.update w.status i { w.status i with
      state := .submitted, aioKey := key } j).nOverlapped =
        (w.status j).nOverlapped := by
    intro j
    by_cases hj : j = i
    · subst hj
      rw [Function.update_self]
    · rw [Function.update_of_ne hj]
  have hold : ∀ j, j ≠ i →
      Function.update w.status i { w.status i with state := .submitted, aioKey := key } j = w.status j :=
    fun j hj => Function.update_of_ne hj _ _
  refine { Q with
    nodup := (List.nodup_cons.mp hn).2
    ordered := (List.pairwise_cons.mp ho).2
    count := ?_
    ready := ?_
    waiting := ?_
    started := ?_
    overwritten := ?_
    totalSize := ?_ }
  · intro j hj
    rw [hover]
    exact Q.count j hj
  · intro j hj
    have hji : j ≠ i := by
      rintro rfl
      exact (List.nodup_cons.mp hn).1 hj
    dsimp only
    rw [hold j hji]
    exact Q.ready j (hset ▸ List.mem_cons_of_mem i hj)
  · intro j hj hinit h0
    by_cases hji : j = i
    · subst hji
      simp only [Function.update_self] at hinit
      cases hinit
    · simp only [hold j hji] at hinit h0
      have hmem := Q.waiting j hj hinit h0
      rw [hset] at hmem
      exact (List.mem_cons.mp hmem).resolve_left hji
  · intro j hj hst
    rw [hover]
    by_cases hji : j = i
    · rwa [hji]
    · simp only [hold j hji] at hst
      exact Q.started j hj hst
  · intro j hj hst
    by_cases hji : j = i
    · subst hji
      simp only [Function.update_self] at hst
      cases hst
    · simp only [hold j hji] at hst
      exact Q.overwritten j hj hst
  · simp only [ht, List.map_cons, List.sum_cons, Nat.add_sub_cancel_left]

theorem Engine.start (Q : Queued w) (E : Engine w owes w.list img) {i : Nat} (hi : i ∈ w.list)
    (hi0 : (w.status i).nOverlapped = 0) (hst : (w.status i).state ≠ .submitted)
    (hfull : ¬ w.aio.isQueueFull = true) (is : List Nat) (total : Nat) :
    Engine { w with
      ioSet := is
      totalSize := total
      status := Function.update w.status i { w.status i with
        state := .submitted, aioKey := w.aio.nextKey }
      aio := (w.aio.prepare (w.ios i).content).2 }
      (Function.update owes w.aio.nextKey (w.ios i).content) w.list img := by
  have hold : ∀ j, j ≠ i → Function.update w.status i
      { w.status i with state := .submitted, aioKey := w.aio.nextKey } j = w.status j :=
    fun j hj => Function.update_of_ne hj _ _
  have hlt : ∀ j ∈ w.list, (w.status j).state = .submitted → (w.status j).aioKey ≠ w.aio.nextKey := by
    intro j hj hjst
    exact (E.ok.fresh _ ((E.keys _).mpr ⟨j, hj, hjst, rfl⟩)).ne
  have hkeys : ((w.aio.prepare (w.ios i).content).2.keys ++ w.doneSet).Perm
      (w.aio.nextKey :: (w.aio.keys ++ w.doneSet)) := (Aio.keys_prepare hfull _).append_right _
  refine ⟨?_, ?_, ?_, ?_, ?_⟩
  · apply E.ok.prepare hfull
    intro k hk
    obtain ⟨j, hj, hjst, rfl⟩ := (E.keys k).mp hk
    rw [E.owes_eq j hj hjst]
    apply Q.disjoint hi hj _ hi0 (Q.started j hj hjst)
    rintro rfl
    exact hst hjst
  · intro k
    dsimp only
    rw [hkeys.mem_iff, List.mem_cons, E.keys]
    constructor
    · rintro (rfl | ⟨j, hj, hjst, rfl⟩)
      · exact ⟨i, hi, by rw [Function.update_self], by rw [Function.update_self]⟩
      · have hji : j ≠ i := by
          rintro rfl
          exact hst hjst
        exact ⟨j, hj, by rwa [hold j hji], by rw [hold j hji]⟩
    · rintro ⟨j, hj, hjst, hk⟩
      by_cases hji : j = i
      · subst hji
        rw [Function.update_self] at hk
        exact .inl hk.symm
      · rw [hold j hji] at hjst hk
        exact .inr ⟨j, hj, hjst, hk⟩
  · intro j hj k hk hjst hkst heq
    dsimp only at hjst hkst heq
    by_cases hji : j = i <;> by_cases hki : k = i
    · rw [hji, hki]
    · subst hji
      rw [Function.update_self, hold k hki] at heq
      rw [hold k hki] at hkst
      exact absurd heq.symm (hlt k hk hkst)
    · subst hki
      rw [Function.update_self, hold j hji] at heq
      rw [hold j hji] at hjst
      exact absurd heq (hlt j hj hjst)
    · rw [hold j hji] at hjst heq
      rw [hold k hki] at hkst heq
      exact E.inj j hj k hk hjst hkst heq
  · intro j hj hjst
    dsimp only at hjst ⊢
    by_cases hji : j = i
    · subst hji
      rw [Function.update_self, Function.update_self]
    · rw [hold j hji] at hjst ⊢
      rw [Function.update_of_ne (hlt j hj hjst), E.owes_eq j hj hjst]
  · rw [Aio.prepare_of_not_full hfull]
    exact E.image

theorem submitLoop_spec {is : List Nat} (Q : Queued w) (E : Engine w owes w.list img)
    (his : w.ioSet = is) :
    ∃ owes', Queued (w.submitLoop is) ∧ Engine (w.submitLoop is) owes' w.list img ∧
      Kept w (w.submitLoop is) ∧
      ((w.submitLoop is).ioSet = [] ∨ (w.submitLoop is).aio.isQueueFull = true) ∧
      2 * (w.submitLoop is).ioSet.length + (w.submitLoop is).aio.pendingIOs.length ≤
        2 * w.ioSet.length + w.aio.pendingIOs.length ∧
      (w.submitLoop is).aio.completedIOs = w.aio.completedIOs ∧
      ∀ i, (w.status i).state ≠ .overwritten → ((w.submitLoop is).status i).state ≠ .overwritten := by
  induction is generalizing w owes with
  | nil =>
      rw [AsyncBdevWriter.submitLoop]
      exact ⟨owes, Q, E, .refl w, .inl his, le_rfl, rfl, fun _ => id⟩
  | cons i is ih =>
      rw [AsyncBdevWriter.submitLoop]
      split
      next hfull => exact ⟨owes, Q, E, .refl w, .inr hfull, le_rfl, rfl, fun _ => id⟩
      next hfull =>
        obtain ⟨hi, hi0, hst⟩ := Q.ready i (his ▸ List.mem_cons_self)
        rw [AsyncBdevWriter.submitIo]
        split
        next hover =>
          have Q' := Q.skip his hover
          have E' : Engine { w with ioSet := is, totalSize := w.totalSize - (w.ios i).size } owes
              w.list img :=
            ⟨E.1, E.2, E.3, E.4, E.5⟩
          obtain ⟨owes', hQ, hE, hk, hend, hlen, hc, hs⟩ := ih Q' E' rfl
          refine ⟨owes', hQ, hE, ⟨hk.1, hk.2, hk.3, hk.4⟩, hend, hlen.trans ?_, hc, hs⟩
          rw [his, List.length_cons]
          dsimp only
          omega
        next hover =>
          have Q' := Q.start his w.aio.nextKey (w.aio.prepare (w.ios i).content).2
          have E' := E.start Q hi hi0 hst hfull is (w.totalSize - (w.ios i).size)
          have hprep := Aio.prepare_of_not_full hfull (w.ios i).content
          obtain ⟨owes', hQ, hE, hk, hend, hlen, hc, hs⟩ := ih Q' E' rfl
          simp only [hprep] at hQ hE hk hend hlen hc hs ⊢
          refine ⟨owes', hQ, hE, ⟨hk.1, hk.2, hk.3, hk.4⟩, hend, hlen.trans ?_, hc, ?_⟩
          · rw [his, List.length_cons, List.length_append, List.length_singleton]
            omega
          · intro j hj
            apply hs
            by_cases hji : j = i
            · subst hji
              rw [Function.update_self]
              nofun
            · rwa [Function.update_of_ne hji]

theorem Queued.front_free (Q : Queued w) {f : Nat} {rest : List Nat} (hl : w.list = f :: rest) :
    (w.status f).nOverlapped = 0 := by
  rw [Q.count f (hl ▸ List.mem_cons_self), List.length_eq_zero_iff, List.filter_eq_nil_iff]
  intro j hj
  have hs := Q.sorted
  rw [hl] at hs hj
  have hle : f ≤ j := by
    rcases List.mem_cons.mp hj with rfl | hj
    · exact le_rfl
    · exact (List.rel_of_pairwise_cons hs hj).le
  simp [Nat.not_lt.mpr hle]

theorem Queued.not_mem_rest (Q : Queued w) {f : Nat} {rest : List Nat} (hl : w.list = f :: rest) :
    f ∉ rest := by
  have hs := Q.sorted
  rw [hl] at hs
  intro h
  exact (List.rel_of_pairwise_cons hs h).false

theorem Engine.drop_overwritten (Q : Queued w) (E : Engine w owes w.list img) {f : Nat} {rest : List Nat}
    (hl : w.list = f :: rest) (hst : (w.status f).state = .overwritten) : Engine w owes rest img := by
  obtain ⟨j, hj, hfj, hcover⟩ := Q.overwritten f (hl ▸ List.mem_cons_self) hst
  have hsub : ∀ i ∈ rest, i ∈ w.list := fun i hi => hl ▸ List.mem_cons_of_mem f hi
  refine ⟨E.ok, ?_, ?_, ?_, ?_⟩
  · intro k
    rw [E.keys k, hl]
    constructor
    · rintro ⟨i, hi, hist, hk⟩
      rcases List.mem_cons.mp hi with rfl | hi
      · rw [hst] at hist
        cases hist
      · exact ⟨i, hi, hist, hk⟩
    · rintro ⟨i, hi, hist, hk⟩
      exact ⟨i, List.mem_cons_of_mem f hi, hist, hk⟩
  · intro i hi k hk
    exact E.inj i (hsub i hi) k (hsub k hk)
  · intro i hi
    exact E.owes_eq i (hsub i hi)
  · have hjr : j ∈ rest := by
      rw [hl] at hj
      apply (List.mem_cons.mp hj).resolve_left
      rintro rfl
      exact hfj.false
    rw [← E.image, hl, List.map_cons, overlay, ← write_write]
    apply write_congr
    intro a ha
    have hja := overlay_eq_none_iff.mp ha _ (List.mem_map_of_mem hjr)
    exact (write_of_none (hcover a hja)).symm

theorem Engine.drop_settled (E : Engine w owes w.list img) {f : Nat} {rest done' : List Nat}
    (aio : Aio Nat γ)
    (Q : Queued w) (hl : w.list = f :: rest) (hst : (w.status f).state = .submitted)
    (hok : aio.Ok owes ((w.status f).aioKey :: done'))
    (hkeys : (w.aio.keys ++ w.doneSet).Perm ((w.status f).aioKey :: (aio.keys ++ done')))
    (hframe : ∀ x, (∀ d ∈ w.aio.pendingIOs, d.effect x = none) → aio.target x = w.aio.target x) :
    Engine { w with aio := aio, doneSet := done' } owes rest img := by
  have hf : f ∈ w.list := hl ▸ List.mem_cons_self
  have hsub : ∀ i ∈ rest, i ∈ w.list := fun i hi => hl ▸ List.mem_cons_of_mem f hi
  have hnot : (w.status f).aioKey ∉ aio.keys ++ done' :=
    (List.nodup_cons.mp (hkeys.nodup_iff.mp E.ok.nodup)).1
  refine ⟨hok.forget (List.sublist_cons_self _ _), ?_, ?_, ?_, ?_⟩
  · intro k
    dsimp only
    constructor
    · intro hk
      obtain ⟨i, hi, hist, hik⟩ := (E.keys k).mp (hkeys.mem_iff.mpr (List.mem_cons_of_mem _ hk))
      rw [hl] at hi
      refine ⟨i, (List.mem_cons.mp hi).resolve_left ?_, hist, hik⟩
      rintro rfl
      exact hnot (hik ▸ hk)
    · rintro ⟨i, hi, hist, rfl⟩
      have hk := (E.keys _).mpr ⟨i, hsub i hi, hist, rfl⟩
      apply (List.mem_cons.mp (hkeys.mem_iff.mp hk)).resolve_left
      intro heq
      have hif := E.inj i (hsub i hi) f hf hist hst heq
      exact Q.not_mem_rest hl (hif ▸ hi)
  · intro i hi k hk
    exact E.inj i (hsub i hi) k (hsub k hk)
  · intro i hi
    exact E.owes_eq i (hsub i hi)
  · have himg := E.frame hframe
    have hset : Settled (w.ios f).content aio.target := by
      rw [← E.owes_eq f hf hst]
      exact hok.completed _ (List.mem_append_right _ List.mem_cons_self)
    rw [hl, List.map_cons, overlay, ← write_write, hset] at himg
    exact himg

theorem waitFor_spec (Q : Queued w) (E : Engine w owes w.list img) {f : Nat} {rest : List Nat}
    (hl : w.list = f :: rest) (hst : (w.status f).state = .submitted) :
    ∃ w', w.waitFor f = some w' ∧ Queued w' ∧ Engine w' owes rest img ∧ Kept w w' ∧ f ∉ w'.ioSet := by
  have hf : f ∈ w.list := hl ▸ List.mem_cons_self
  have hfree : f ∉ w.ioSet := fun h => (Q.ready f h).2.2 hst
  rw [AsyncBdevWriter.waitFor]
  by_cases hdone : (w.status f).aioKey ∈ w.doneSet
  · have hperm := List.perm_cons_erase hdone
    rw [if_pos hdone]
    refine ⟨_, rfl, { Q with }, ?_, ⟨rfl, rfl, rfl, rfl⟩, hfree⟩
    apply E.drop_settled w.aio Q hl hst (E.ok.congr_done hperm.symm)
    · exact (hperm.append_left _).trans List.perm_middle
    · exact fun _ _ => rfl
  · have hkey : (w.status f).aioKey ∈ w.aio.keys :=
      (List.mem_append.mp ((E.keys _).mpr ⟨f, hf, hst, rfl⟩)).resolve_right hdone
    obtain ⟨aio, haio, hok, hw⟩ := E.ok.waitFor hkey
    rw [if_neg hdone, haio]
    refine ⟨_, rfl, { Q with }, ?_, ⟨rfl, rfl, rfl, hw.queueSize⟩, hfree⟩
    exact E.drop_settled aio Q hl hst hok (hw.keys.append_right _) hw.frame

theorem waitAny_spec (Q : Queued w) (E : Engine w owes w.list img) (hne : w.aio.keys ≠ []) :
    ∃ w', w.waitAny = some w' ∧ Queued w' ∧ Engine w' owes w.list img ∧ Kept w w' ∧ w'.ioSet = w.ioSet ∧
      w'.status = w.status ∧ w'.aio.pendingIOs.length + w'.aio.completedIOs.length <
        w.aio.pendingIOs.length + w.aio.completedIOs.length := by
  obtain ⟨ks, aio, haio, hok, hkeys, hks, hlen, hc, hframe, hsize, -⟩ := E.ok.waitOneOrMore hne
  have hall : (aio.keys ++ (ks ++ w.doneSet)).Perm (w.aio.keys ++ w.doneSet) := by
    rw [← List.append_assoc]
    exact (List.perm_append_comm.trans hkeys.symm).append_right _
  rw [AsyncBdevWriter.waitAny, haio]
  refine ⟨_, rfl, { Q with }, ⟨hok, ?_, E.inj, E.owes_eq, E.frame hframe⟩, ⟨rfl, rfl, rfl, hsize⟩,
    rfl, rfl, ?_⟩
  · intro k
    dsimp only
    rw [hall.mem_iff, E.keys]
  · have h := hkeys.length_eq
    have hpos := List.length_pos_of_ne_nil hks
    simp only [Aio.keys, List.length_append, List.length_map, hc, List.length_nil] at h ⊢
    omega

theorem tryErase_spec (Q : Queued w) (E : Engine w owes l img) {f : Nat}
    (hst : (w.status f).state = .overwritten) :
    Queued (w.tryErase f) ∧ Engine (w.tryErase f) owes l img ∧ Kept w (w.tryErase f) ∧
      f ∉ (w.tryErase f).ioSet := by
  rw [AsyncBdevWriter.tryErase]
  by_cases hf : f ∈ w.ioSet
  · rw [if_pos ((mem_equalRange Q.ordered).mpr hf)]
    refine ⟨{ Q with
      nodup := Q.nodup.erase f
      ordered := Q.ordered.sublist List.erase_sublist
      ready := fun i hi => Q.ready i (List.mem_of_mem_erase hi)
      waiting := ?_
      totalSize := ?_ }, ⟨E.1, E.2, E.3, E.4, E.5⟩, ⟨rfl, rfl, rfl, rfl⟩, Q.nodup.not_mem_erase⟩
    · intro i hi hinit h0
      apply (List.mem_erase_of_ne _).mpr (Q.waiting i hi hinit h0)
      rintro rfl
      rw [hst] at hinit
      cases hinit
    · have hsum := ((List.perm_cons_erase hf).map fun i => (w.ios i).size).sum_eq
      rw [List.map_cons, List.sum_cons] at hsum
      dsimp only
      rw [Q.totalSize, hsum, Nat.add_sub_cancel_left]
  · rw [if_neg fun h => hf ((mem_equalRange Q.ordered).mp h)]
    exact ⟨Q, E, .refl w, hf⟩

theorem forceCompleteLoop_spec (Q : Queued w) (E : Engine w owes w.list img)
    (hq : 0 < w.aio.queueSize) {f : Nat}
    {rest : List Nat} (hl : w.list = f :: rest) {fuel : Nat}
    (hfuel : 2 * w.ioSet.length + w.aio.pendingIOs.length + w.aio.completedIOs.length < fuel) :
    ∃ w' owes', w.forceCompleteLoop f fuel = some w' ∧ Queued w' ∧ Engine w' owes' rest img ∧ Kept w w' ∧
      f ∉ w'.ioSet := by
  induction fuel generalizing w owes with
  | zero => exact absurd hfuel (Nat.not_lt_zero _)
  | succ fuel ih =>
      have hf : f ∈ w.list := hl ▸ List.mem_cons_self
      rw [AsyncBdevWriter.forceCompleteLoop]
      split
      next hst =>
        obtain ⟨owes', Q', E', hk, hend, hlen, hc, hs⟩ := submitLoop_spec Q E rfl
        have hl' : (w.submitLoop w.ioSet).list = f :: rest := hk.list.trans hl
        have hf' : f ∈ (w.submitLoop w.ioSet).list := hl' ▸ List.mem_cons_self
        dsimp only
        rw [AsyncBdevWriter.submit]
        split
        next hst' =>
          rw [← hk.list] at E'
          obtain ⟨w', hw, hQ, hE, hk', hfree⟩ := waitFor_spec Q' E' hl' hst'
          exact ⟨w', owes', hw, hQ, hE, hk.trans hk', hfree⟩
        next hst' =>
          -- the engine is full, since the front is still in the ready queue
          have hinit : ((w.submitLoop w.ioSet).status f).state = .init := by
            have hne := hs f (by rw [hst]; nofun)
            cases hcase : ((w.submitLoop w.ioSet).status f).state with
            | init => rfl
            | overwritten => exact absurd hcase hne
            | submitted => exact absurd hcase hst'
          have hmem := Q'.waiting f hf' hinit (Q'.front_free hl')
          have hfull := hend.resolve_left (List.ne_nil_of_mem hmem)
          rw [Aio.isQueueFull, Aio.queueUsage, decide_eq_true_eq, hk.queueSize] at hfull
          have hne : (w.submitLoop w.ioSet).aio.keys ≠ [] := by
            intro hnil
            have := congrArg List.length hnil
            rw [Aio.keys, List.length_append, List.length_map, List.length_nil] at this
            omega
          rw [← hk.list] at E'
          obtain ⟨w₂, hw₂, Q₂, E₂, hk₂, hio₂, -, hlt⟩ := waitAny_spec Q' E' hne
          rw [← hk₂.list] at E₂
          have hq₂ : 0 < w₂.aio.queueSize := by
            rw [hk₂.queueSize, hk.queueSize]
            exact hq
          obtain ⟨w', owes₃, hw', hQ, hE, hk', hfree⟩ := ih Q₂ E₂ hq₂ (hk₂.list.trans hl') (by
            rw [hc] at hlt
            rw [hio₂]
            omega)
          exact ⟨w', owes₃, by rw [hw₂, Option.bind_some, hw'], hQ, hE, (hk.trans hk₂).trans hk', hfree⟩
      next hst =>
        obtain ⟨hQ, hE, hk, hfree⟩ := tryErase_spec Q (E.drop_overwritten Q hl hst) hst
        exact ⟨_, owes, rfl, hQ, hE, hk, hfree⟩
      next hst =>
        obtain ⟨w', hw, hQ, hE, hk, hfree⟩ := waitFor_spec Q E hl hst
        exact ⟨w', owes, hw, hQ, hE, hk, hfree⟩

def Status.dec (st : Status) : Status := { st with nOverlapped := st.nOverlapped - 1 }

def Status.isReady (st : Status) : Bool := st.nOverlapped = 0 && st.state = .init

theorem Status.isReady_dec {st : Status} : st.dec.isReady = true ↔ st.nOverlapped - 1 = 0 ∧
    st.state = .init := by
  rw [isReady, Bool.and_eq_true, decide_eq_true_eq, decide_eq_true_eq]
  rfl

/-- `release` for several IOs: the counters go down and the ready ones are pushed. -/
theorem foldl_release {xs : List Nat} (hn : xs.Nodup) (w : AsyncBdevWriter γ) :
    ∃ ioSet, xs.foldl AsyncBdevWriter.release w = { w with
        status := fun i => if i ∈ xs then (w.status i).dec else w.status i
        ioSet := ioSet
        totalSize := w.totalSize + ((xs.filter fun i => (w.status i).dec.isReady).map fun i =>
          (w.ios i).size).sum } ∧
      ioSet.Perm ((xs.filter fun i => (w.status i).dec.isReady) ++ w.ioSet) ∧
      (w.ioSet.Pairwise (fun i j => w.offset i ≤ w.offset j) →
        ioSet.Pairwise fun i j => w.offset i ≤ w.offset j) := by
  induction xs generalizing w with
  | nil =>
      refine ⟨w.ioSet, ?_, .refl _, id⟩
      simp
  | cons x xs ih =>
      obtain ⟨hx, hxs⟩ := List.nodup_cons.mp hn
      have hstep : ∃ ioSet, w.release x = { w with
            status := Function.update w.status x (w.status x).dec
            ioSet := ioSet
            totalSize := w.totalSize + (([x].filter fun i => (w.status i).dec.isReady).map fun i =>
              (w.ios i).size).sum } ∧
          ioSet.Perm (([x].filter fun i => (w.status i).dec.isReady) ++ w.ioSet) ∧
          (w.ioSet.Pairwise (fun i j => w.offset i ≤ w.offset j) →
            ioSet.Pairwise fun i j => w.offset i ≤ w.offset j) := by
        rw [AsyncBdevWriter.release]
        dsimp only
        by_cases hr : (w.status x).dec.isReady = true
        · have hr' := Status.isReady_dec.mp hr
          have hone : ([x].filter fun i => (w.status i).dec.isReady) = [x] := List.filter_cons_of_pos hr
          rw [hone]
          refine ⟨insertIo w.offset x w.ioSet, ?_, perm_insertIo _ _ _, fun h => insertIo_ordered h x⟩
          rw [if_pos hr', AsyncBdevWriter.push]
          simp only [List.map_cons, List.map_nil, List.sum_cons, List.sum_nil, Nat.add_zero]
          rfl
        · have hr' := fun h => hr (Status.isReady_dec.mpr h)
          have hnone : ([x].filter fun i => (w.status i).dec.isReady) = [] := List.filter_cons_of_neg hr
          rw [hnone]
          exact ⟨w.ioSet, if_neg hr', .refl _, id⟩
      obtain ⟨ioSet₁, h₁, hp₁, ho₁⟩ := hstep
      have hold : ∀ i ∈ xs, Function.update w.status x (w.status x).dec i = w.status i := by
        intro i hi
        apply Function.update_of_ne
        rintro rfl
        exact hx hi
      obtain ⟨ioSet, h, hp, ho⟩ := ih hxs (w.release x)
      have hfilter : (xs.filter fun i => ((w.release x).status i).dec.isReady) =
          xs.filter fun i => (w.status i).dec.isReady := by
        apply List.filter_congr
        intro i hi
        rw [h₁]
        dsimp only
        rw [hold i hi]
      rw [hfilter] at h hp
      refine ⟨ioSet, ?_, ?_, ?_⟩
      · rw [List.foldl_cons, h, h₁]
        have hcons : (x :: xs).filter (fun i => (w.status i).dec.isReady) =
            [x].filter (fun i => (w.status i).dec.isReady) ++ xs.filter fun i =>
            (w.status i).dec.isReady := by
          rw [← List.filter_append, List.singleton_append]
        rw [hcons, List.map_append, List.sum_append]
        dsimp only
        congr 1
        · funext i
          by_cases hi : i ∈ xs
          · rw [if_pos hi, if_pos (List.mem_cons_of_mem x hi), hold i hi]
          · rw [if_neg hi]
            by_cases hix : i = x
            · subst hix
              rw [if_pos List.mem_cons_self, Function.update_self]
            · rw [if_neg (by simp [hix, hi]), Function.update_of_ne hix]
        · rw [Nat.add_assoc]
      · rw [h₁] at hp
        refine hp.trans ((hp₁.append_left _).trans ?_)
        have hcons : (x :: xs).filter (fun i => (w.status i).dec.isReady) =
            [x].filter (fun i => (w.status i).dec.isReady) ++ xs.filter fun i =>
            (w.status i).dec.isReady := by
          rw [← List.filter_append, List.singleton_append]
        rw [hcons, ← List.append_assoc]
        exact List.perm_append_comm.append_right _
      · intro hw
        rw [h₁] at ho
        exact ho (ho₁ hw)

/-- The front leaves the serializer; the counters of those behind it that it overlaps go down. -/
theorem Counted.del (C : Counted w) {f : Nat} {rest : List Nat} (hl : w.list = f :: rest) :
    ∃ xs ioSet : List Nat, xs.Nodup ∧ (∀ i, i ∈ xs ↔ i ∈ rest ∧
      (w.ios f).isOverlapped (w.ios i) = true) ∧
      (∀ i ∈ xs, (w.status i).nOverlapped ≠ 0) ∧
      w.delIoAndPushReadyIos f = some { w with
        set := w.set.erase f
        maxSize := if w.set.erase f = [] then 0 else w.maxSize
        status := fun i => if i ∈ xs then (w.status i).dec else w.status i
        ioSet := ioSet
        totalSize := w.totalSize + ((xs.filter fun i => (w.status i).dec.isReady).map fun i =>
          (w.ios i).size).sum } ∧
      ioSet.Perm ((xs.filter fun i => (w.status i).dec.isReady) ++ w.ioSet) ∧
      (w.ioSet.Pairwise (fun i j => w.offset i ≤ w.offset j) →
      ioSet.Pairwise fun i j => w.offset i ≤ w.offset j) ∧
      Counted { w with
        list := rest
        set := w.set.erase f
        maxSize := if w.set.erase f = [] then 0 else w.maxSize
        status := fun i => if i ∈ xs then (w.status i).dec else w.status i } := by
  have hf : f ∈ w.list := hl ▸ List.mem_cons_self
  have hsub : ∀ i ∈ rest, i ∈ w.list := fun i hi => hl ▸ List.mem_cons_of_mem f hi
  have hsorted := C.sorted
  rw [hl] at hsorted
  obtain ⟨hlt, hrest⟩ := List.pairwise_cons.mp hsorted
  have hmem : ∀ i, i ∈ w.set ↔ i = f ∨ i ∈ rest := by
    intro i
    rw [C.set_perm.mem_iff, hl, List.mem_cons]
  have hset : (w.set.erase f).Perm rest := by
    have h := C.set_perm.erase f
    rwa [hl, List.erase_cons_head] at h
  have herase := AsyncBdevWriter.erase_eq C.set_sorted (C.set_perm.mem_iff.mpr hf) (by
    intro j hj
    rcases (hmem j).mp hj with rfl | hj
    · exact le_rfl
    · exact (hlt j hj).le)
  have hmax : ∀ i ∈ rest, (w.ios i).size ≤ if w.set.erase f = [] then 0 else w.maxSize := by
    intro i hi
    rw [if_neg (List.ne_nil_of_mem (hset.mem_iff.mpr hi))]
    exact C.maxSize i (hsub i hi)
  have hsort' : Sorted w.offset (w.set.erase f) := C.set_sorted.sublist List.erase_sublist
  rw [AsyncBdevWriter.delIoAndPushReadyIos, herase, Option.map_some]
  have hxs := AsyncBdevWriter.overlappedIos_eq
    (w := { w with set := w.set.erase f, maxSize := if w.set.erase f = [] then 0 else w.maxSize })
    (C.valid f hf) hsort' (fun j hj => C.valid j (hsub j (hset.mem_iff.mp hj)))
    (fun j hj => hmax j (hset.mem_iff.mp hj))
  dsimp only at hxs ⊢
  rw [hxs]
  have hn : ((w.set.erase f).filter fun j => (w.ios f).isOverlapped (w.ios j)).Nodup :=
    (hset.nodup_iff.mpr hrest.nodup).filter _
  have hmemx : ∀ i, i ∈ (w.set.erase f).filter (fun j => (w.ios f).isOverlapped (w.ios j)) ↔
      i ∈ rest ∧ (w.ios f).isOverlapped (w.ios i) = true := by
    intro i
    rw [List.mem_filter, hset.mem_iff]
  generalize (w.set.erase f).filter (fun j => (w.ios f).isOverlapped (w.ios j)) = xs at hn hmemx ⊢
  obtain ⟨ioSet, hfold, hperm, hord⟩ := foldl_release hn
    { w with set := w.set.erase f, maxSize := if w.set.erase f = [] then 0 else w.maxSize }
  have hcount : ∀ i ∈ rest, (w.status i).nOverlapped =
      (if (w.ios f).isOverlapped (w.ios i) then 1 else 0) +
        (rest.filter fun j => decide (j < i) && (w.ios i).isOverlapped (w.ios j)).length := by
    intro i hi
    rw [C.count i (hsub i hi), hl, List.filter_cons, Io.isOverlapped_comm (C.valid f hf)
      (C.valid i (hsub i hi))]
    cases (w.ios i).isOverlapped (w.ios f) <;> simp [hlt i hi, Nat.add_comm]
  have hdec : ∀ i ∈ rest, (if i ∈ xs then (w.status i).dec else w.status i).nOverlapped =
      (rest.filter fun j => decide (j < i) && (w.ios i).isOverlapped (w.ios j)).length := by
    intro i hi
    have hc := hcount i hi
    by_cases hix : i ∈ xs
    · rw [if_pos hix, Status.dec]
      rw [if_pos ((hmemx i).mp hix).2] at hc
      dsimp only
      omega
    · rw [if_neg hix]
      rwa [if_neg fun h => hix ((hmemx i).mpr ⟨hi, h⟩), Nat.zero_add] at hc
  have hpos : ∀ i ∈ xs, (w.status i).nOverlapped ≠ 0 := by
    intro i hi
    obtain ⟨hir, hio⟩ := (hmemx i).mp hi
    have hc := hcount i hir
    rw [if_pos hio] at hc
    omega
  exact ⟨xs, ioSet, hn, hmemx, hpos, congrArg some hfold, hperm, hord,
    ⟨hrest, fun i hi => C.fresh i (hsub i hi), fun i hi => C.valid i (hsub i hi), hset, hsort',
    hmax, hdec⟩⟩

/-- The front leaves the serializer; whoever waited for it only is ready. -/
theorem delIo_spec (Q : Queued w) {f : Nat} {rest : List Nat} (E : Engine w owes rest img)
    (hl : w.list = f :: rest) (hfree : f ∉ w.ioSet) :
    ∃ w', w.delIoAndPushReadyIos f = some w' ∧ w'.list = w.list ∧
      Queued { w' with list := rest, processingSize := w'.processingSize - (w'.ios f).size } ∧
      Engine { w' with list := rest, processingSize := w'.processingSize - (w'.ios f).size } owes
      rest img ∧
      w'.bufferSize = w.bufferSize ∧ w'.aio.queueSize = w.aio.queueSize := by
  have hsub : ∀ i ∈ rest, i ∈ w.list := fun i hi => hl ▸ List.mem_cons_of_mem f hi
  have hsorted := Q.sorted
  rw [hl] at hsorted
  obtain ⟨hlt, -⟩ := List.pairwise_cons.mp hsorted
  obtain ⟨xs, ioSet, hn, hmemx, hpos, hdel, hperm, hord, C'⟩ := Q.toCounted.del hl
  rw [hdel]
  have hstate : ∀ i, (if i ∈ xs then (w.status i).dec else w.status i).state = (w.status i).state := by
    intro i
    split <;> rfl
  have hkey : ∀ i, (if i ∈ xs then (w.status i).dec else w.status i).aioKey = (w.status i).aioKey := by
    intro i
    split <;> rfl
  refine ⟨_, rfl, rfl, ⟨⟨C'.sorted, C'.fresh, C'.valid, C'.set_perm, C'.set_sorted, C'.maxSize,
    C'.count⟩, ?_,
    hord Q.ordered, ?_, ?_, ?_, ?_, ?_, ?_⟩, ⟨E.ok, ?_, ?_, ?_, E.image⟩, rfl, rfl⟩
  · dsimp only
    rw [hperm.nodup_iff, List.nodup_append]
    refine ⟨hn.filter _, Q.nodup, ?_⟩
    rintro i hi _ hj rfl
    exact hpos i (List.mem_of_mem_filter hi) (Q.ready i hj).2.1
  · intro i hi
    dsimp only
    rw [hstate]
    rcases List.mem_append.mp (hperm.mem_iff.mp hi) with hi | hi
    · obtain ⟨hix, hr⟩ := List.mem_filter.mp hi
      obtain ⟨h0, hinit⟩ := Status.isReady_dec.mp hr
      refine ⟨((hmemx i).mp hix).1, ?_, by rw [hinit]; nofun⟩
      rw [if_pos hix]
      exact h0
    · obtain ⟨hil, hi0, hst⟩ := Q.ready i hi
      rw [hl] at hil
      have hir : i ∈ rest := (List.mem_cons.mp hil).resolve_left fun h => hfree (h ▸ hi)
      refine ⟨hir, ?_, hst⟩
      rw [if_neg fun h => hpos i h hi0]
      exact hi0
  · intro i hi hinit h0
    dsimp only at hinit h0 ⊢
    rw [hstate] at hinit
    rw [hperm.mem_iff, List.mem_append]
    by_cases hix : i ∈ xs
    · left
      rw [if_pos hix] at h0
      exact List.mem_filter.mpr ⟨hix, Status.isReady_dec.mpr ⟨h0, hinit⟩⟩
    · right
      rw [if_neg hix] at h0
      exact Q.waiting i (hsub i hi) hinit h0
  · intro i hi hst
    dsimp only at hst ⊢
    rw [hstate] at hst
    have h0 := Q.started i (hsub i hi) hst
    rw [if_neg fun h => hpos i h h0]
    exact h0
  · intro i hi hst
    dsimp only at hst
    rw [hstate] at hst
    obtain ⟨j, hj, hij, hcover⟩ := Q.overwritten i (hsub i hi) hst
    rw [hl] at hj
    refine ⟨j, (List.mem_cons.mp hj).resolve_left ?_, hij, hcover⟩
    rintro rfl
    exact absurd (hlt i hi) (Nat.lt_asymm hij)
  · dsimp only
    rw [Q.processingSize, hl, List.map_cons, List.sum_cons, Nat.add_sub_cancel_left]
  · dsimp only
    rw [(hperm.map _).sum_eq, List.map_append, List.sum_append, Q.totalSize, Nat.add_comm]
  · intro k
    simp only [hstate, hkey]
    exact E.keys k
  · simp only [hstate, hkey]
    exact E.inj
  · simp only [hstate, hkey]
    exact E.owes_eq

/-- The state between two operations: written in their order, the IOs in processing make
`img` of what is on the device. -/
structure Sound (w : AsyncBdevWriter γ) (img : Nat → γ) : Prop where
  queued : Queued w
  engine : ∃ owes, Engine w owes w.list img
  buffer : 2 ≤ w.bufferSize
  queue : 2 ≤ w.aio.queueSize

theorem Sound.waitForAnIoCompletion (S : Sound w img) {f : Nat} {rest : List Nat}
    (hl : w.list = f :: rest) :
    ∃ w', w.waitForAnIoCompletion = some w' ∧ Sound w' img ∧ w'.list = rest := by
  obtain ⟨owes, E⟩ := S.engine
  have hq : 0 < w.aio.queueSize := Nat.lt_of_lt_of_le Nat.two_pos S.queue
  obtain ⟨w₁, owes₁, h₁, Q₁, E₁, hk, hfree⟩ :=
    forceCompleteLoop_spec S.queued E hq hl (Nat.lt_succ_self _)
  have hl₁ : w₁.list = f :: rest := hk.list.trans hl
  obtain ⟨w₂, h₂, hl₂, Q₂, E₂, hb, hs⟩ := delIo_spec Q₁ E₁ hl₁ hfree
  have hrun : w.waitForAnIoCompletion =
      some { w₂ with list := rest, processingSize := w₂.processingSize - (w₂.ios f).size } := by
    rw [AsyncBdevWriter.waitForAnIoCompletion, hl]
    simp only [AsyncBdevWriter.forceComplete, h₁, h₂, Option.bind_eq_bind, Option.bind_some,
      Option.pure_def, hl₂,
      hl₁, List.tail_cons]
  refine ⟨_, hrun, ⟨Q₂, ⟨owes₁, E₂⟩, ?_, ?_⟩, rfl⟩
  · dsimp only
    rw [hb, hk.bufferSize]
    exact S.buffer
  · dsimp only
    rw [hs, hk.queueSize]
    exact S.queue

theorem Sound.ne_nil_of_many (S : Sound w img) (h : w.hasManyProcessingIos = true) : w.list ≠ [] := by
  obtain ⟨owes, E⟩ := S.engine
  intro hnil
  rw [AsyncBdevWriter.hasManyProcessingIos, Bool.or_eq_true, decide_eq_true_eq, decide_eq_true_eq] at h
  rcases h with h | h
  · have hsum := S.queued.processingSize
    rw [hnil, List.map_nil, List.sum_nil] at hsum
    have := S.buffer
    omega
  · have hpos : 0 < w.aio.pendingIOs.length := by
      have := S.queue
      rw [Aio.queueUsage] at h
      omega
    obtain ⟨d, hd⟩ := List.exists_mem_of_length_pos hpos
    obtain ⟨i, hi, -⟩ := (E.keys d.key).mp (Aio.mem_keys_of_pending hd)
    rw [hnil] at hi
    exact List.not_mem_nil hi

theorem Sound.waitWhileMany (S : Sound w img) {fuel : Nat} (hfuel : w.list.length < fuel) :
    ∃ w', w.waitWhileMany fuel = some w' ∧ Sound w' img ∧ w'.list.length ≤ w.list.length ∧
      (w.hasManyProcessingIos = true → w'.list.length < w.list.length) := by
  induction fuel generalizing w with
  | zero => exact absurd hfuel (Nat.not_lt_zero _)
  | succ fuel ih =>
      rw [AsyncBdevWriter.waitWhileMany]
      split
      next hmany =>
        obtain ⟨f, rest, hl⟩ := List.exists_cons_of_ne_nil (S.ne_nil_of_many hmany)
        obtain ⟨w₁, h₁, S₁, hl₁⟩ := S.waitForAnIoCompletion hl
        rw [hl, List.length_cons] at hfuel ⊢
        obtain ⟨w', h', S', hle, -⟩ := ih S₁ (by rw [hl₁]; omega)
        rw [hl₁] at hle
        exact ⟨w', by rw [h₁, Option.bind_some, h'], S', by omega, fun _ => by omega⟩
      next hmany => exact ⟨w, rfl, S, le_rfl, fun h => absurd h hmany⟩

theorem AsyncBdevWriter.overwrite_eq (io ioX : Io γ) (st : Status) :
    (overwrite io ioX st).nOverlapped = st.nOverlapped ∧ (overwrite io ioX st).aioKey = st.aioKey ∧
      ((overwrite io ioX st).state = .submitted ↔ st.state = .submitted) ∧
      ((overwrite io ioX st).state = .init → st.state = .init) ∧
      ((overwrite io ioX st).state = .overwritten → st.state = .overwritten ∨
      ioX.isOverwrittenBy io = true) := by
  rw [overwrite]
  split
  next h => exact ⟨rfl, rfl, by simp [h.2], nofun, fun _ => .inr h.1⟩
  next => exact ⟨rfl, rfl, .rfl, id, .inl⟩

/-- The statuses after `io` came in at the address `i` and met the IOs of `xs`. -/
def entered (w : AsyncBdevWriter γ) (io : Io γ) (i : Nat) (xs : List Nat) (j : Nat) : Status :=
  if j = i then ⟨0, xs.length, .init⟩
  else if j ∈ xs then AsyncBdevWriter.overwrite io (w.ios j) (w.status j)
  else w.status j

theorem Counted.add_eq (C : Counted w) {io : Io γ} (hio : io.Valid) (processingSize : Nat) :
    ∃ xs : List Nat, xs.Nodup ∧ (∀ j, j ∈ xs ↔ j ∈ w.list ∧ io.isOverlapped (w.ios j) = true) ∧
      AsyncBdevWriter.add { w with
        ios := Function.update w.ios w.next io
        status := Function.update w.status w.next .new
        next := w.next + 1
        list := w.list ++ [w.next]
        processingSize := processingSize } w.next = { w with
          ios := Function.update w.ios w.next io
          status := entered w io w.next xs
          next := w.next + 1
          list := w.list ++ [w.next]
          processingSize := processingSize
          set := insertIo (fun j => (Function.update w.ios w.next io j).offset) w.next w.set
          maxSize := max w.maxSize io.size } := by
  have hset : ∀ j ∈ w.set, j ∈ w.list := fun j hj => C.set_perm.mem_iff.mp hj
  have hold : ∀ j ∈ w.set, Function.update w.ios w.next io j = w.ios j :=
    fun j hj => Function.update_of_ne (C.fresh j (hset j hj)).ne _ _
  have hxs := AsyncBdevWriter.overlappedIos_eq (w := { w with
      ios := Function.update w.ios w.next io
      status := Function.update w.status w.next .new
      next := w.next + 1
      list := w.list ++ [w.next]
      processingSize := processingSize }) hio
    (C.set_sorted.imp_of_mem fun {j k} hj hk h => by
      simp only [AsyncBdevWriter.offset] at h ⊢
      rwa [hold j hj, hold k hk])
    (fun j hj => by
      dsimp only
      rw [hold j hj]
      exact C.valid j (hset j hj))
    (fun j hj => by
      dsimp only
      rw [hold j hj]
      exact C.maxSize j (hset j hj))
  have hfilter : w.set.filter (fun j => io.isOverlapped (Function.update w.ios w.next io j)) =
      w.set.filter fun j => io.isOverlapped (w.ios j) := by
    apply List.filter_congr
    intro j hj
    rw [hold j hj]
  dsimp only at hxs
  rw [hfilter] at hxs
  have hn : (w.set.filter fun j => io.isOverlapped (w.ios j)).Nodup :=
    (C.set_perm.nodup_iff.mpr C.sorted.nodup).filter _
  have hmem : ∀ j, j ∈ w.set.filter (fun j => io.isOverlapped (w.ios j)) ↔
      j ∈ w.list ∧ io.isOverlapped (w.ios j) = true := by
    intro j
    rw [List.mem_filter, C.set_perm.mem_iff]
  refine ⟨_, hn, hmem, ?_⟩
  have hnext : w.next ∉ w.set.filter fun j => io.isOverlapped (w.ios j) :=
    fun h => (C.fresh _ ((hmem _).mp h).1).false
  generalize w.set.filter (fun j => io.isOverlapped (w.ios j)) = xs at hxs hn hmem hnext ⊢
  rw [AsyncBdevWriter.add]
  simp only [Function.update_self, hxs]
  rw [foldl_update (fun x st => AsyncBdevWriter.overwrite io (Function.update w.ios w.next io x) st) hn]
  congr 1
  funext j
  by_cases hj : j = w.next
  · subst hj
    simp only [Function.update_self, if_neg hnext, entered, if_true, Status.new]
  · simp only [Function.update_of_ne hj, entered, if_neg hj]

def AsyncBdevWriter.admitted (w : AsyncBdevWriter γ) (io : Io γ) (xs : List Nat) : AsyncBdevWriter γ :=
  { w with
    ios := Function.update w.ios w.next io
    status := entered w io w.next xs
    next := w.next + 1
    list := w.list ++ [w.next]
    processingSize := w.processingSize + io.size
    set := insertIo (fun j => (Function.update w.ios w.next io j).offset) w.next w.set
    maxSize := max w.maxSize io.size
    ioSet := if xs = [] then insertIo (fun j => (Function.update w.ios w.next io j).offset) w.next
      w.ioSet
      else w.ioSet
    totalSize := if xs = [] then w.totalSize + io.size else w.totalSize }

theorem Queued.enter_eq (Q : Queued w) {io : Io γ} (hio : io.Valid) :
    ∃ xs, xs.Nodup ∧ (∀ j, j ∈ xs ↔ j ∈ w.list ∧ io.isOverlapped (w.ios j) = true) ∧
      w.enter (io.offset, io.data) = w.admitted io xs := by
  obtain ⟨xs, hn, hmem, hadd⟩ := Q.toCounted.add_eq hio (w.processingSize + io.size)
  refine ⟨xs, hn, hmem, ?_⟩
  rw [AsyncBdevWriter.enter, AsyncBdevWriter.admitted]
  dsimp only
  have hlen : io.data.length = io.size := rfl
  rw [hlen, hadd]
  simp only [entered, if_true, List.length_eq_zero_iff]
  split
  next hnil =>
    rw [AsyncBdevWriter.push]
    simp only [Function.update_self]
    rfl
  next hnil => rfl

theorem entered_nOverlapped {io : Io γ} {i j : Nat} {xs : List Nat} (hj : j ≠ i) :
    (entered w io i xs j).nOverlapped = (w.status j).nOverlapped := by
  rw [entered, if_neg hj]
  split
  · exact (AsyncBdevWriter.overwrite_eq _ _ _).1
  · rfl

theorem forall_mem_concat {p : Nat → Prop} {l : List Nat} {i : Nat} (hl : ∀ j ∈ l, p j) (hi : p i) :
    ∀ j ∈ l ++ [i], p j := by
  intro j hj
  rcases List.mem_append.mp hj with hj | hj
  · exact hl j hj
  · rw [List.mem_singleton.mp hj]
    exact hi

/-- The new IO counts those of `xs`; nothing changes for the older ones. -/
theorem Counted.entered (C : Counted w) {io : Io γ} (hio : io.Valid) {xs : List Nat} (hn : xs.Nodup)
    (hmem : ∀ j, j ∈ xs ↔ j ∈ w.list ∧ io.isOverlapped (w.ios j) = true) :
    Counted { w with
      ios := Function.update w.ios w.next io
      status := entered w io w.next xs
      next := w.next + 1
      list := w.list ++ [w.next]
      set := insertIo (fun j => (Function.update w.ios w.next io j).offset) w.next w.set
      maxSize := max w.maxSize io.size } := by
  have hne : ∀ j ∈ w.list, j ≠ w.next := fun j hj => (C.fresh j hj).ne
  have hios : ∀ j ∈ w.list, Function.update w.ios w.next io j = w.ios j :=
    fun j hj => Function.update_of_ne (hne j hj) _ _
  have hself : Function.update w.ios w.next io w.next = io := Function.update_self _ _ _
  have hnew : BdevWriter.entered w io w.next xs w.next = ⟨0, xs.length, .init⟩ := if_pos rfl
  refine ⟨?_, ?_, ?_, ?_, ?_, ?_, ?_⟩
  · exact List.pairwise_append.mpr ⟨C.sorted, List.pairwise_singleton _ _, fun j hj k hk => by
      rw [List.mem_singleton.mp hk]
      exact C.fresh j hj⟩
  · exact forall_mem_concat (fun j hj => (C.fresh j hj).trans (Nat.lt_succ_self _)) (Nat.lt_succ_self _)
  · exact forall_mem_concat (fun j hj => by dsimp only; rw [hios j hj]; exact C.valid j hj)
      (by dsimp only; rwa [hself])
  · exact (perm_insertIo _ _ _).trans ((C.set_perm.cons _).trans (List.perm_append_singleton _ _).symm)
  · apply Sorted.insertIo
    · apply C.set_sorted.imp_of_mem
      intro i j hi hj hij
      simp only [AsyncBdevWriter.offset] at hij ⊢
      rwa [hios i (C.set_perm.mem_iff.mp hi), hios j (C.set_perm.mem_iff.mp hj)]
    · exact fun j hj => C.fresh j (C.set_perm.mem_iff.mp hj)
  · refine forall_mem_concat (fun j hj => ?_) ?_
    · dsimp only
      rw [hios j hj]
      exact (C.maxSize j hj).trans (le_max_left _ _)
    · dsimp only
      rw [hself]
      exact le_max_right _ _
  · -- nothing that came in before is after the new one
    refine forall_mem_concat (fun j hj => ?_) ?_
    · dsimp only
      rw [entered_nOverlapped (hne j hj), C.count j hj, List.filter_append, List.length_append,
        hios j hj]
      have hlast : ([w.next].filter fun k => decide (k < j) &&
          (w.ios j).isOverlapped (Function.update w.ios w.next io k)) = [] := by
        rw [List.filter_eq_nil_iff]
        intro k hk
        rw [List.mem_singleton.mp hk]
        simp [Nat.lt_asymm (C.fresh j hj)]
      rw [hlast, List.length_nil, Nat.add_zero]
      congr 1
      apply List.filter_congr
      intro k hk
      rw [hios k hk]
    · dsimp only
      rw [hnew, hself, List.filter_append, List.length_append]
      have hlast : ([w.next].filter fun k => decide (k < w.next) &&
          io.isOverlapped (Function.update w.ios w.next io k)) = [] := by
        rw [List.filter_eq_nil_iff]
        intro k hk
        rw [List.mem_singleton.mp hk]
        simp
      rw [hlast, List.length_nil, Nat.add_zero]
      apply List.Perm.length_eq
      rw [List.perm_ext_iff_of_nodup hn (C.sorted.nodup.filter _)]
      intro k
      rw [hmem, List.mem_filter, Bool.and_eq_true, decide_eq_true_eq]
      constructor
      · rintro ⟨hk, hover⟩
        exact ⟨hk, C.fresh k hk, by rwa [hios k hk]⟩
      · rintro ⟨hk, -, hover⟩
        exact ⟨hk, by rwa [hios k hk] at hover⟩

section Admitted

variable {io : Io γ} {xs : List Nat}

theorem admitted_ios_self : (w.admitted io xs).ios w.next = io := Function.update_self _ _ _

theorem admitted_status_self : (w.admitted io xs).status w.next = ⟨0, xs.length, .init⟩ := if_pos rfl

theorem Counted.admitted_ios (C : Counted w) {j : Nat} (hj : j ∈ w.list) :
    (w.admitted io xs).ios j = w.ios j :=
  Function.update_of_ne (C.fresh j hj).ne _ _

theorem Counted.admitted_map (C : Counted w) (io : Io γ) (xs : List Nat) {δ : Type} (g : Io γ → δ) :
    (w.admitted io xs).list.map (fun j => g ((w.admitted io xs).ios j)) =
      w.list.map (fun j => g (w.ios j)) ++ [g io] := by
  change (w.list ++ [w.next]).map _ = _
  rw [List.map_append, List.map_singleton, admitted_ios_self]
  refine congrArg (· ++ [g io]) (List.map_congr_left fun j hj => ?_)
  rw [C.admitted_ios hj]

theorem Counted.admitted_status (C : Counted w) (io : Io γ) (xs : List Nat) {j : Nat} (hj : j ∈ w.list) :
    ((w.admitted io xs).status j).nOverlapped = (w.status j).nOverlapped ∧
      ((w.admitted io xs).status j).aioKey = (w.status j).aioKey ∧
      (((w.admitted io xs).status j).state = .submitted ↔ (w.status j).state = .submitted) ∧
      (((w.admitted io xs).status j).state = .init → (w.status j).state = .init) ∧
      (((w.admitted io xs).status j).state = .overwritten →
        (w.status j).state = .overwritten ∨ (w.ios j).isOverwrittenBy io = true) := by
  have hst : (w.admitted io xs).status j =
      if j ∈ xs then AsyncBdevWriter.overwrite io (w.ios j) (w.status j) else w.status j :=
        if_neg (C.fresh j hj).ne
  rw [hst]
  split
  · exact AsyncBdevWriter.overwrite_eq _ _ _
  · exact ⟨rfl, rfl, .rfl, id, .inl⟩

theorem Counted.admitted_submitted (C : Counted w) {j : Nat} (hj : j ∈ (w.admitted io xs).list)
    (hst : ((w.admitted io xs).status j).state = .submitted) :
    j ∈ w.list ∧ (w.status j).state = .submitted ∧ ((w.admitted io xs).status j).aioKey =
      (w.status j).aioKey := by
  rcases List.mem_append.mp hj with hj | hj
  · obtain ⟨-, hkey, hsub, -⟩ := C.admitted_status io xs hj
    exact ⟨hj, hsub.mp hst, hkey⟩
  · rw [List.mem_singleton.mp hj, admitted_status_self] at hst
    cases hst

theorem mem_admitted_ioSet {j : Nat} : j ∈ (w.admitted io xs).ioSet ↔ (xs = [] ∧ j = w.next) ∨
    j ∈ w.ioSet := by
  rw [AsyncBdevWriter.admitted]
  dsimp only
  split
  next h => rw [mem_insertIo]; simp [h]
  next h => simp [h]

theorem Queued.admitted (Q : Queued w) (hio : io.Valid) (hn : xs.Nodup)
    (hmem : ∀ j, j ∈ xs ↔ j ∈ w.list ∧ io.isOverlapped (w.ios j) = true) :
    Queued (w.admitted io xs) := by
  have hready : ∀ j ∈ w.ioSet, (w.admitted io xs).ios j = w.ios j :=
    fun j hj => Q.admitted_ios (Q.ready j hj).1
  have hordered : w.ioSet.Pairwise fun i j => ((w.admitted io xs).ios i).offset ≤
      ((w.admitted io xs).ios j).offset := by
    apply Q.ordered.imp_of_mem
    intro i j hi hj hij
    rw [hready i hi, hready j hj]
    exact hij
  have hsize : (w.ioSet.map fun j => ((w.admitted io xs).ios j).size) = w.ioSet.map fun j =>
      (w.ios j).size := by
    apply List.map_congr_left
    intro j hj
    rw [hready j hj]
  have C' := Q.toCounted.entered hio hn hmem
  refine ⟨⟨C'.sorted, C'.fresh, C'.valid, C'.set_perm, C'.set_sorted, C'.maxSize, C'.count⟩, ?_, ?_,
    ?_, ?_, ?_, ?_, ?_, ?_⟩
  · rw [AsyncBdevWriter.admitted]
    dsimp only
    split
    next h =>
      rw [(perm_insertIo _ _ _).nodup_iff, List.nodup_cons]
      exact ⟨fun hi => (Q.fresh _ (Q.ready _ hi).1).false, Q.nodup⟩
    next h => exact Q.nodup
  · change (if xs = [] then _ else _ : List Nat).Pairwise _
    split
    next h => exact insertIo_ordered hordered _
    next h => exact hordered
  · intro j hj
    rcases mem_admitted_ioSet.mp hj with ⟨hnil, rfl⟩ | hj
    · refine ⟨List.mem_append_right _ (List.mem_singleton_self _), ?_, ?_⟩
      · rw [admitted_status_self, hnil, List.length_nil]
      · rw [admitted_status_self]
        nofun
    · obtain ⟨hjl, hj0, hjs⟩ := Q.ready j hj
      obtain ⟨h₁, -, h₂, -⟩ := Q.admitted_status io xs hjl
      exact ⟨List.mem_append_left _ hjl, h₁.trans hj0, fun h => hjs (h₂.mp h)⟩
  · refine forall_mem_concat (fun j hj hinit h0 => ?_) fun _ h0 => ?_
    · obtain ⟨h₁, -, -, h₂, -⟩ := Q.admitted_status io xs hj
      exact mem_admitted_ioSet.mpr (.inr (Q.waiting j hj (h₂ hinit) (h₁.symm.trans h0)))
    · rw [admitted_status_self, List.length_eq_zero_iff] at h0
      exact mem_admitted_ioSet.mpr (.inl ⟨h0, rfl⟩)
  · intro j hj hsub
    obtain ⟨hj, hst, -⟩ := Q.admitted_submitted hj hsub
    exact (Q.admitted_status _ _ hj).1.trans (Q.started j hj hst)
  · refine forall_mem_concat (fun j hj hover => ?_) fun hover => ?_
    · rcases (Q.admitted_status _ _ hj).2.2.2.2 hover with h | h
      · obtain ⟨k, hk, hjk, hcover⟩ := Q.overwritten j hj h
        refine ⟨k, List.mem_append_left _ hk, hjk, ?_⟩
        rwa [Q.admitted_ios hj, Q.admitted_ios hk]
      · refine ⟨w.next, List.mem_append_right _ (List.mem_singleton_self _), Q.fresh j hj, ?_⟩
        rw [Q.admitted_ios hj, admitted_ios_self]
        exact Io.content_of_isOverwrittenBy (Q.valid j hj) hio h
    · rw [admitted_status_self] at hover
      cases hover
  · rw [Q.admitted_map _ _ Io.size, List.sum_append, List.sum_singleton, ← Q.processingSize]
    rfl
  · change (if xs = [] then _ else _) = ((if xs = [] then _ else _ : List Nat).map _).sum
    split
    next h =>
      rw [((perm_insertIo _ _ _).map _).sum_eq, List.map_cons, List.sum_cons, admitted_ios_self,
        hsize, Q.totalSize,
        Nat.add_comm]
    next h => rw [hsize, Q.totalSize]

theorem Engine.admitted (C : Counted w) (E : Engine w owes w.list img) :
    Engine (w.admitted io xs) owes (w.list ++ [w.next]) (write io.content img) := by
  refine ⟨E.ok, fun k => ?_, fun j hj k hk hjst hkst heq => ?_, fun j hj hjst => ?_, ?_⟩
  · change k ∈ w.aio.keys ++ w.doneSet ↔ _
    rw [E.keys k]
    constructor
    · rintro ⟨j, hj, hjst, hk⟩
      obtain ⟨-, h₁, h₂, -⟩ := C.admitted_status io xs hj
      exact ⟨j, List.mem_append_left _ hj, h₂.mpr hjst, h₁.trans hk⟩
    · rintro ⟨j, hj, hjst, hk⟩
      obtain ⟨hj, hst, hkey⟩ := C.admitted_submitted hj hjst
      exact ⟨j, hj, hst, hkey.symm.trans hk⟩
  · obtain ⟨hj, hjst, hjk⟩ := C.admitted_submitted hj hjst
    obtain ⟨hk, hkst, hkk⟩ := C.admitted_submitted hk hkst
    exact E.inj j hj k hk hjst hkst (hjk.symm.trans (heq.trans hkk))
  · obtain ⟨hj, hst, hkey⟩ := C.admitted_submitted hj hjst
    rw [hkey, C.admitted_ios hj]
    exact E.owes_eq j hj hst
  · have hmap := C.admitted_map io xs Io.content
    change write (overlay ((w.admitted io xs).list.map _)) w.aio.target = _
    rw [hmap, overlay_append, overlay_singleton, ← write_write, E.image]

end Admitted

theorem Sound.enter (S : Sound w img) {io : Io γ} (hio : io.Valid) :
    Sound (w.enter (io.offset, io.data)) (write io.content img) ∧
      (w.enter (io.offset, io.data)).list.length = w.list.length + 1 := by
  obtain ⟨owes, E⟩ := S.engine
  obtain ⟨xs, hn, hmem, heq⟩ := S.queued.enter_eq hio
  rw [heq]
  refine ⟨⟨S.queued.admitted hio hn hmem, ⟨owes, E.admitted S.queued.toCounted⟩, S.buffer, S.queue⟩, ?_⟩
  change (w.list ++ [w.next]).length = _
  rw [List.length_append, List.length_singleton]

/-- The IOs executed one by one. -/
def execute (device : Nat → γ) (ios : List (Nat × List γ)) : Nat → γ :=
  ios.foldl (fun img io => write (stretch io.1 io.2) img) device

def Accepted (ios : List (Nat × List γ)) : Prop := ∀ io ∈ ios, Io.Valid ⟨io.1, io.2⟩

theorem Sound.foldl_enter (S : Sound w img) {ios : List (Nat × List γ)} (hios : Accepted ios) :
    Sound (ios.foldl AsyncBdevWriter.enter w) (execute img ios) ∧
      (ios.foldl AsyncBdevWriter.enter w).list.length = w.list.length + ios.length := by
  induction ios generalizing w img with
  | nil => exact ⟨S, rfl⟩
  | cons io ios ih =>
      obtain ⟨S₁, h₁⟩ := S.enter (hios io List.mem_cons_self)
      obtain ⟨S', h'⟩ := ih S₁ fun io' h => hios io' (List.mem_cons_of_mem _ h)
      refine ⟨S', ?_⟩
      rw [List.foldl_cons, h', h₁, List.length_cons]
      omega

theorem Sound.submit (S : Sound w img) :
    Sound w.submit img ∧ w.submit.list = w.list ∧ (w.submit.ioSet = [] ∨
      w.submit.hasManyProcessingIos = true) := by
  obtain ⟨owes, E⟩ := S.engine
  obtain ⟨owes', Q', E', hk, hend, -⟩ := submitLoop_spec S.queued E rfl
  rw [← hk.list] at E'
  refine ⟨⟨Q', ⟨owes', E'⟩, ?_, ?_⟩, hk.list, hend.imp_right ?_⟩
  · rw [AsyncBdevWriter.submit, hk.bufferSize]
    exact S.buffer
  · rw [AsyncBdevWriter.submit, hk.queueSize]
    exact S.queue
  · intro hfull
    rw [Aio.isQueueFull, decide_eq_true_eq] at hfull
    rw [AsyncBdevWriter.hasManyProcessingIos, Bool.or_eq_true, decide_eq_true_eq, decide_eq_true_eq]
    exact .inr ((Nat.div_le_self _ _).trans hfull)

/-- A turn that leaves a ready IO behind has filled the engine, and the next one waits. -/
theorem Sound.processIosLoop (S : Sound w img) (force : Bool) {fuel : Nat} {ios : List (Nat × List γ)}
    (hios : Accepted ios) (hfuel : w.list.length + ios.length < fuel ∨
      ios = [] ∧ w.hasManyProcessingIos = true ∧ w.list.length ≤ fuel) :
    ∃ w', w.processIosLoop force fuel ios = some w' ∧ Sound w' (execute img ios) ∧
      (force = true → w'.ioSet = []) := by
  induction fuel generalizing w img ios with
  | zero =>
      rcases hfuel with h | ⟨-, hmany, h⟩
      · exact absurd h (Nat.not_lt_zero _)
      · exact absurd (List.length_eq_zero_iff.mp (Nat.le_zero.mp h)) (S.ne_nil_of_many hmany)
  | succ fuel ih =>
      obtain ⟨w₁, h₁, S₁, hle, hlt⟩ := S.waitWhileMany (Nat.lt_succ_self _)
      obtain ⟨S₂, hlen₂⟩ := S₁.foldl_enter hios
      rw [AsyncBdevWriter.processIosLoop, h₁, Option.bind_eq_bind, Option.bind_some]
      generalize hw₂ : ios.foldl AsyncBdevWriter.enter w₁ = w₂ at S₂ hlen₂ ⊢
      cases force with
      | false =>
          simp only [Bool.false_or, Bool.not_false, Bool.true_or, if_true]
          split
          · exact ⟨_, rfl, S₂.submit.1, nofun⟩
          · exact ⟨_, rfl, S₂, nofun⟩
      | true =>
          obtain ⟨S₃, hl₃, hend⟩ := S₂.submit
          simp only [Bool.true_or, Bool.not_true, Bool.false_or, if_true]
          by_cases hnil : w₂.submit.ioSet = []
          · rw [if_pos (List.isEmpty_iff.mpr hnil)]
            exact ⟨_, rfl, S₃, fun _ => hnil⟩
          · rw [if_neg fun h => hnil (List.isEmpty_iff.mp h)]
            have hnone : Accepted ([] : List (Nat × List γ)) := fun _ h => absurd h List.not_mem_nil
            have hleft : w₂.submit.list.length ≤ fuel := by
              rw [hl₃]
              rcases hfuel with h | ⟨rfl, hmany, h⟩
              · omega
              · have := hlt hmany
                rw [List.length_nil] at hlen₂
                omega
            obtain ⟨w', h', S', hready⟩ := ih S₃ hnone (.inr ⟨rfl, hend.resolve_left hnil, hleft⟩)
            exact ⟨w', h', S', fun _ => hready rfl⟩

theorem Sound.waitForAllLoop (S : Sound w img) {fuel : Nat} (hfuel : w.list.length < fuel) :
    ∃ w', w.waitForAllLoop fuel = some w' ∧ Sound w' img ∧ w'.list = [] := by
  induction fuel generalizing w with
  | zero => exact absurd hfuel (Nat.not_lt_zero _)
  | succ fuel ih =>
      rw [AsyncBdevWriter.waitForAllLoop]
      split
      next hnil => exact ⟨w, rfl, S, hnil⟩
      next hne =>
        obtain ⟨f, rest, hl⟩ := List.exists_cons_of_ne_nil hne
        obtain ⟨w₁, h₁, S₁, hl₁⟩ := S.waitForAnIoCompletion hl
        rw [hl, List.length_cons] at hfuel
        obtain ⟨w', h', hS', hl'⟩ := ih S₁ (by rw [hl₁]; omega)
        exact ⟨w', by rw [h₁, Option.bind_some, h'], hS', hl'⟩

theorem Sound.waitForAll (S : Sound w img) {ios : List (Nat × List γ)} (hios : Accepted ios) :
    ∃ w', w.waitForAll ios = some w' ∧ Sound w' (execute img ios) ∧ w'.list = [] := by
  obtain ⟨w₁, h₁, S₁, -⟩ := S.processIosLoop true hios (.inl (Nat.lt_succ_self _))
  obtain ⟨w', h', S', hl⟩ := S₁.waitForAllLoop (Nat.lt_succ_self _)
  refine ⟨w', ?_, S', hl⟩
  rw [AsyncBdevWriter.waitForAll, AsyncBdevWriter.processIos, h₁, Option.bind_some,
    AsyncBdevWriter.waitForAllProcessingIos, h']

theorem Sound.run (S : Sound w img) {c : Call γ} (hc : Accepted c.fetched) :
    ∃ w', c.run w = some w' ∧ Sound w' (execute img c.fetched) := by
  cases c with
  | submit ios =>
      obtain ⟨w', h', S', -⟩ := S.processIosLoop false hc (.inl (Nat.lt_succ_self _))
      exact ⟨w', h', S'⟩
  | waitForAll ios =>
      obtain ⟨w', h', S', -⟩ := S.waitForAll hc
      exact ⟨w', h', S'⟩

theorem Sound.runs (S : Sound w img) {calls : List (Call γ)} (hc : ∀ c ∈ calls, Accepted c.fetched) :
    ∃ w', calls.foldlM Call.run w = some w' ∧ Sound w' (execute img (calls.flatMap Call.fetched)) := by
  induction calls generalizing w img with
  | nil => exact ⟨w, rfl, S⟩
  | cons c cs ih =>
      obtain ⟨w₁, h₁, S₁⟩ := S.run (hc c List.mem_cons_self)
      obtain ⟨w', h', S'⟩ := ih S₁ fun c' h => hc c' (List.mem_cons_of_mem _ h)
      refine ⟨w', ?_, ?_⟩
      · rw [List.foldlM_cons, h₁, Option.bind_eq_bind, Option.bind_some, h']
      · rwa [List.flatMap_cons, execute, List.foldl_append]

structure Drained (w : AsyncBdevWriter γ) : Prop where
  list : w.list = []
  ioSet : w.ioSet = []
  set : w.set = []
  doneSet : w.doneSet = []
  pendingIOs : w.aio.pendingIOs = []
  completedIOs : w.aio.completedIOs = []
  processingSize : w.processingSize = 0
  totalSize : w.totalSize = 0

theorem Sound.drained (S : Sound w img) (hnil : w.list = []) : Drained w ∧ w.aio.target = img := by
  have Q := S.queued
  obtain ⟨owes, E⟩ := S.engine
  have hset : w.set = [] := by
    have := Q.set_perm
    rw [hnil] at this
    exact this.eq_nil
  have hready : w.ioSet = [] := by
    rw [List.eq_nil_iff_forall_not_mem]
    intro i hi
    have := (Q.ready i hi).1
    rw [hnil] at this
    exact List.not_mem_nil this
  have hkeys : w.aio.keys ++ w.doneSet = [] := by
    rw [List.eq_nil_iff_forall_not_mem]
    intro k hk
    obtain ⟨i, hi, -⟩ := (E.keys k).mp hk
    rw [hnil] at hi
    exact List.not_mem_nil hi
  obtain ⟨haio, hdone⟩ := List.append_eq_nil_iff.mp hkeys
  obtain ⟨hpending, hcompleted⟩ := List.append_eq_nil_iff.mp haio
  have himg := E.image
  have hprocessing := Q.processingSize
  have htotal := Q.totalSize
  rw [hnil] at himg hprocessing
  rw [hready] at htotal
  exact ⟨⟨hnil, hready, hset, hdone, List.map_eq_nil_iff.mp hpending, hcompleted, hprocessing,
    htotal⟩, himg⟩

/-- With no IO in processing the device may be given another content. -/
theorem Sound.retarget (S : Sound w img) (hnil : w.list = []) (target : Nat → γ) :
    Sound { w with aio := { w.aio with target := target } } target := by
  obtain ⟨hdrained, -⟩ := S.drained hnil
  obtain ⟨owes, E⟩ := S.engine
  refine ⟨{ S.queued with }, ⟨owes, ⟨{ E.ok with executed := ?_, completed := ?_ }, E.keys, E.inj,
    E.owes_eq, ?_⟩⟩, S.buffer, S.queue⟩
  · intro d hd
    have hpending := hdrained.pendingIOs
    rw [hpending] at hd
    exact absurd hd List.not_mem_nil
  · intro k hk
    rw [hdrained.completedIOs, hdrained.doneSet] at hk
    exact absurd hk List.not_mem_nil
  · rw [hnil]
    rfl

theorem Sound.init {bufferSize : Nat} (hb : 2 ^ 10 ≤ bufferSize) (device : Nat → γ)
    (schedule : Nat → List Completion) : Sound (init bufferSize device schedule) device := by
  refine ⟨⟨⟨.nil, nofun, nofun, .refl _, .nil, nofun, nofun⟩, .nil, .nil, nofun, nofun, nofun,
    nofun, rfl, rfl⟩,
    ⟨fun _ _ => none, ⟨Aio.Ok.init _ _ _ _, ?_, nofun, nofun, rfl⟩⟩, ?_, ?_⟩
  · intro k
    simp [BdevWriter.init, Aio.init, Aio.keys]
  · exact (by decide : 2 ≤ 2 ^ 10).trans hb
  · have hdiv : 2 ≤ bufferSize / 2 ^ 9 := by
      rw [Nat.le_div_iff_mul_le (by decide)]
      exact hb
    exact le_min (by decide) hdiv

/-- Whatever the engine does, and in whatever order it completes the IOs, the device ends
up as if they had been executed one by one, and no queue keeps anything. -/
theorem asyncBdevWriter_in_order (bufferSize : Nat) (hb : 2 ^ 10 ≤ bufferSize) (device : Nat → γ)
    (schedule : Nat → List Completion) (calls : List (Call γ)) (hcalls : ∀ c ∈ calls, Accepted c.fetched)
    (ios : List (Nat × List γ)) (hios : Accepted ios) :
    ∃ w w', calls.foldlM Call.run (init bufferSize device schedule) = some w ∧
      w.waitForAll ios = some w' ∧
      w'.aio.target = execute device (calls.flatMap Call.fetched ++ ios) ∧ Drained w' := by
  obtain ⟨w, hw, S⟩ := (Sound.init hb device schedule).runs hcalls
  obtain ⟨w', hw', S', hnil⟩ := S.waitForAll hios
  obtain ⟨hdrained, htarget⟩ := S'.drained hnil
  refine ⟨w, w', hw, hw', ?_, hdrained⟩
  rw [htarget, execute, execute, execute, List.foldl_append]

def threeIos : List (Nat × List Nat) := [(0, [1, 1, 1, 1]), (2, [2, 2]), (1, [3, 3])]

/-- Two calls with IOs that overlap; the IO that was submitted last is executed first. -/
theorem asyncBdevWriter_in_order_three :
    ∃ w w', [Call.submit threeIos].foldlM Call.run
        (init 1024 (fun _ => 0) fun _ => [.execute 2, .execute 1, .report 1]) = some w ∧
      w.waitForAll [(0, [4])] = some w' ∧ (List.range 5).map w'.aio.target = [4, 3, 3, 2, 0] ∧
      Drained w' := by
  have hvalid : ∀ (n : Nat) (d : List Nat), n ≤ 2 → d.length ≤ 4 → 0 < d.length → Io.Valid ⟨n, d⟩ := by
    intro n d hn hd h0
    refine ⟨h0, ?_, ?_⟩ <;> simp only [Io.size] <;> omega
  obtain ⟨w, w', hw, hw', htarget, hdrained⟩ := asyncBdevWriter_in_order 1024 le_rfl (fun _ => 0)
    (fun _ => [.execute 2, .execute 1, .report 1]) [Call.submit threeIos]
    (by
      intro c hc io hio
      rw [List.mem_singleton.mp hc] at hio
      simp only [Call.fetched, threeIos, List.mem_cons, List.not_mem_nil, or_false] at hio
      rcases hio with rfl | rfl | rfl <;> apply hvalid <;> decide)
    [(0, [4])]
    (by
      intro io hio
      rw [List.mem_singleton.mp hio]
      apply hvalid <;> decide)
  refine ⟨w, w', hw, hw', ?_, hdrained⟩
  rw [htarget]
  rfl

/-- An IO of 4 GiB is not seen to overlap the one behind it, and the engine exchanges the two. -/
theorem not_asyncBdevWriter_in_order :
    ¬∀ (bufferSize : Nat), 2 ^ 10 ≤ bufferSize → ∀ (device : Nat → Nat) (schedule : Nat →
      List Completion)
      (calls : List (Call Nat)) (ios : List (Nat × List Nat)),
      ∃ w w', calls.foldlM Call.run (init bufferSize device schedule) = some w ∧
      w.waitForAll ios = some w' ∧
        w'.aio.target = execute device (calls.flatMap Call.fetched ++ ios) ∧ Drained w' := by
  intro h
  obtain ⟨d, hd, hd0⟩ : ∃ d : List Nat, d.length = 2 ^ 32 ∧ d[0]? = some 0 :=
    ⟨List.replicate (2 ^ 32) 0, List.length_replicate, by rw [List.getElem?_replicate_of_lt (by decide)]⟩
  obtain ⟨w, w', hw, hw', ht, -⟩ := h (2 ^ 22) (by decide) (fun _ => 0)
    (fun _ => [.execute 2, .report 1, .report 2]) [] [(0, d), (0, [7])]
  cases hw
  -- Both are ready at once, and both are submitted.
  simp [AsyncBdevWriter.waitForAll, AsyncBdevWriter.processIos, AsyncBdevWriter.processIosLoop,
    AsyncBdevWriter.waitWhileMany, AsyncBdevWriter.hasManyProcessingIos, Aio.queueUsage,
    Aio.MAX_AIO_REQ_NR, Aio.init,
    AsyncBdevWriter.enter, AsyncBdevWriter.add, AsyncBdevWriter.overlappedIos,
    AsyncBdevWriter.offset, init, insertIo,
    AsyncBdevWriter.push, Io.isOverlapped, BdevWriter.isOverlapped, Io.size, Status.new, hd,
    Function.update,
    AsyncBdevWriter.submit, AsyncBdevWriter.submitLoop, AsyncBdevWriter.submitIo, Aio.isQueueFull,
    Aio.prepare] at hw'
  simp [AsyncBdevWriter.waitForAllProcessingIos, AsyncBdevWriter.waitForAllLoop,
    AsyncBdevWriter.waitForAnIoCompletion,
    AsyncBdevWriter.forceComplete, AsyncBdevWriter.forceCompleteLoop, AsyncBdevWriter.waitFor,
    Aio.waitFor,
    Aio.waitForLoop, Aio.wait_, Aio.happen, Aio.execute, Aio.report,
    AsyncBdevWriter.delIoAndPushReadyIos,
    AsyncBdevWriter.erase, AsyncBdevWriter.offset, AsyncBdevWriter.overlappedIos, Io.isOverlapped,
    BdevWriter.isOverlapped, Io.size, hd] at hw'
  rw [← hw'] at ht
  have h0 := congrFun ht 0
  simp [write, execute, Io.content, stretch, hd0] at h0

end WalbTools.BdevWriter
