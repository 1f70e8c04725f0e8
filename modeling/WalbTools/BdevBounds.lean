import WalbTools.IoQueue

namespace WalbTools.BdevWriter

open Overlay AioUtil

variable {γ : Type}

inductive DeviceIo (γ : Type) where
  | pwrite (offset : Nat) (data : List γ)
  | discard (offset size : Nat)

/-- What a device makes of its content when so many bytes from an offset are discarded. -/
abbrev Discarding (γ : Type) := Nat → Nat → (Nat → γ) → Nat → γ

namespace DeviceIo

def isDiscard : DeviceIo γ → Bool
  | .pwrite _ _ => false
  | .discard _ _ => true

def apply (discarded : Discarding γ) (img : Nat → γ) : DeviceIo γ → Nat → γ
  | .pwrite offset data => write (stretch offset data) img
  | .discard offset size => discarded offset size img

def applyAll (discarded : Discarding γ) (img : Nat → γ) (ios : List (DeviceIo γ)) : Nat → γ :=
  ios.foldl (apply discarded) img

theorem applyAll_append (discarded : Discarding γ) (img : Nat → γ) (ios more : List (DeviceIo γ)) :
    applyAll discarded img (ios ++ more) = applyAll discarded (applyAll discarded img ios) more :=
  List.foldl_append

end DeviceIo

/-- The logical blocks of a device of `sizeB` bytes that `getBlockDeviceSize(fd) << 9` stands
for. -/
def deviceSizeLb (sizeB : Nat) : Nat := sizeB * 2 ^ 9 % 2 ^ 64

def issueDiscard (offLb sizeLb : Nat) : DeviceIo γ :=
  .discard (offLb * 2 ^ 9 % 2 ^ 64) (sizeLb * 2 ^ 9 % 2 ^ 64)

inductive BdevCall (γ : Type) where
  | prepare (p : PrepareCall γ)
  | discard (offLb sizeLb : Nat)
  | submit
  | waitForAll

structure SimpleBdevWriter (γ : Type) where
  bdevSizeLb : Nat
  ioQ : List (PrepareCall γ)
  issued : List (DeviceIo γ)

namespace SimpleBdevWriter

def init (sizeB : Nat) : SimpleBdevWriter γ := ⟨deviceSizeLb sizeB, [], []⟩

def isClipped (w : SimpleBdevWriter γ) (offLb sizeLb : Nat) : Bool :=
  w.bdevSizeLb < (offLb + sizeLb) % 2 ^ 64

def prepare (w : SimpleBdevWriter γ) (p : PrepareCall γ) : Bool × SimpleBdevWriter γ :=
  if w.isClipped p.offLb p.sizeLb then (false, w) else (true, { w with ioQ := w.ioQ ++ [p] })

def submit (w : SimpleBdevWriter γ) : SimpleBdevWriter γ :=
  { w with
    ioQ := [], issued := w.issued ++ w.ioQ.map fun p => .pwrite (p.offLb * 2 ^ 9 % 2 ^ 64) p.data }

def discard (w : SimpleBdevWriter γ) (offLb sizeLb : Nat) : Bool × SimpleBdevWriter γ :=
  if w.isClipped offLb sizeLb then (false, w)
    else (true, { w with issued := w.issued ++ [issueDiscard offLb sizeLb] })

def step (w : SimpleBdevWriter γ) : BdevCall γ → Bool × SimpleBdevWriter γ
  | .prepare p => w.prepare p
  | .discard offLb sizeLb => w.discard offLb sizeLb
  | .submit => (true, w.submit)
  | .waitForAll => (true, w)

end SimpleBdevWriter

/-- An IO that the program carries out itself, beside those that the engine is working on. -/
def Writer.give (w : Writer γ) (discarded : Discarding γ) (io : DeviceIo γ) : Writer γ :=
  { w with engine := { w.engine with aio := { w.engine.aio with
    target := io.apply discarded w.engine.aio.target } } }

/-- When all IOs are done an IO of the program's own comes behind them. -/
theorem Waiting.give {w : Writer γ} {img : Nat → γ} (W : Waiting w img) (discarded : Discarding γ)
    (io : DeviceIo γ) : ∃ w', w.waitForAll = some w' ∧ Waiting (w'.give discarded io)
    (io.apply discarded img) ∧
      w'.bdevSizeLb = w.bdevSizeLb ∧ w'.fetched = [] := by
  obtain ⟨img₀, S, himg⟩ := W.engine
  obtain ⟨engine, hengine, S', hnil⟩ := S.waitForAll W.accepted
  have htarget : engine.aio.target = img := (S'.drained hnil).2.trans himg
  have hgiven := S'.retarget hnil (io.apply discarded engine.aio.target)
  refine ⟨{ w with fetched := [], engine := engine }, ?_, ⟨nofun, _, hgiven, ?_⟩, rfl, rfl⟩
  · rw [Writer.waitForAll, hengine, Option.map_some]
  · rw [htarget]
    rfl

/-- The asynchronous writer with what its device makes of discards and those it was given. -/
structure DiscardWriter (γ : Type) extends Writer γ where
  discarded : Discarding γ
  discards : List (DeviceIo γ)

namespace DiscardWriter

def init (sizeB bufferSize : Nat) (device : Nat → γ) (discarded : Discarding γ)
    (schedule : Nat → List Completion) : DiscardWriter γ :=
  ⟨.init (deviceSizeLb sizeB) bufferSize device schedule, discarded, []⟩

/-- The size is a parameter of 32 bits. -/
def discard (w : DiscardWriter γ) (offLb sizeLb : Nat) : Option (Bool × DiscardWriter γ) :=
  if w.isClipped offLb (sizeLb % 2 ^ 32) then some (false, w)
  else w.waitForAll.map fun w' =>
    let io := issueDiscard offLb (sizeLb % 2 ^ 32)
    (true, ⟨w'.give w.discarded io, w.discarded, w.discards ++ [io]⟩)

def step (w : DiscardWriter γ) : BdevCall γ → Option (Bool × DiscardWriter γ)
  | .prepare p => some ((w.prepare p).1, { w with toWriter := (w.prepare p).2 })
  | .discard offLb sizeLb => w.discard offLb sizeLb
  | .submit => w.submit.map fun w' => (true, { w with toWriter := w' })
  | .waitForAll => w.waitForAll.map fun w' => (true, { w with toWriter := w' })

/-- The IOs of the asynchronous engine that were submitted, and the discards. -/
def Issued (w : DiscardWriter γ) (io : DeviceIo γ) : Prop :=
  io ∈ w.discards ∨ ∃ i, (w.engine.status i).state = .submitted ∧
    io = .pwrite (w.engine.offset i) (w.engine.ios i).data

end DiscardWriter

def DeviceIo.Within (sizeB : Nat) : DeviceIo γ → Prop
  | .pwrite offset data => offset + data.length ≤ sizeB / 2 ^ 9 * 2 ^ 9
  | .discard offset size => offset + size ≤ sizeB / 2 ^ 9 * 2 ^ 9

def BdevCall.range : BdevCall γ → Option (Nat × Nat)
  | .prepare p => some (p.offLb, p.sizeLb)
  | .discard offLb sizeLb => some (offLb, sizeLb)
  | _ => none

/-- The size of a discard as the asynchronous writer gets it. -/
def BdevCall.narrow : BdevCall γ → BdevCall γ
  | .discard offLb sizeLb => .discard offLb (sizeLb % 2 ^ 32)
  | c => c

def BdevCall.InRange (sizeB : Nat) (c : BdevCall γ) : Prop := ∀ r ∈ c.range, r.1 + r.2 ≤ sizeB / 2 ^ 9

/-- It is in the device, or it is behind the bound of 512 times the size in bytes. -/
def BdevCall.Guarded (sizeB : Nat) (c : BdevCall γ) : Prop :=
  c.InRange sizeB ∨ ∀ r ∈ c.range, deviceSizeLb sizeB < (r.1 + r.2) % 2 ^ 64

namespace AsyncBdevWriter

section

variable {w w' : AsyncBdevWriter γ} {i : Nat}

theorem ios_submitIo (i : Nat) : (w.submitIo i).ios = w.ios := by
  rw [submitIo]
  split <;> rfl

theorem ios_submitLoop (is : List Nat) : (submitLoop is w).ios = w.ios := by
  induction is generalizing w with
  | nil => rfl
  | cons i is ih =>
      rw [submitLoop]
      split
      · rfl
      · rw [ih, ios_submitIo]

theorem ios_submit : w.submit.ios = w.ios := ios_submitLoop _

theorem ios_tryErase : (w.tryErase i).ios = w.ios := by
  rw [tryErase]
  split <;> rfl

theorem ios_waitFor (h : w.waitFor i = some w') : w'.ios = w.ios := by
  rw [waitFor] at h
  split at h
  · cases h
    rfl
  · obtain ⟨aio, -, rfl⟩ := Option.map_eq_some_iff.1 h
    rfl

theorem ios_waitAny (h : w.waitAny = some w') : w'.ios = w.ios := by
  obtain ⟨⟨keys, aio⟩, -, rfl⟩ := Option.map_eq_some_iff.1 h
  rfl

theorem ios_forceCompleteLoop {fuel : Nat} (h : forceCompleteLoop i fuel w = some w') :
    w'.ios = w.ios := by
  induction fuel generalizing w with
  | zero => cases h
  | succ fuel ih =>
      rw [forceCompleteLoop] at h
      split at h
      · dsimp only at h
        split at h
        · exact (ios_waitFor h).trans ios_submit
        · obtain ⟨w₁, h₁, h⟩ := Option.bind_eq_some_iff.1 h
          exact (ih h).trans ((ios_waitAny h₁).trans ios_submit)
      · cases h
        exact ios_tryErase
      · exact ios_waitFor h

theorem ios_foldl_release (xs : List Nat) : (xs.foldl release w).ios = w.ios := by
  induction xs generalizing w with
  | nil => rfl
  | cons x xs ih =>
      rw [List.foldl_cons, ih, release]
      dsimp only
      split <;> rfl

theorem ios_delIoAndPushReadyIos (h : w.delIoAndPushReadyIos i = some w') : w'.ios = w.ios := by
  obtain ⟨set, -, rfl⟩ := Option.map_eq_some_iff.1 h
  exact ios_foldl_release _

theorem ios_waitForAnIoCompletion (h : w.waitForAnIoCompletion = some w') : w'.ios = w.ios := by
  rw [waitForAnIoCompletion] at h
  split at h
  · cases h
  · obtain ⟨w₁, h₁, h⟩ := Option.bind_eq_some_iff.1 h
    obtain ⟨w₂, h₂, h⟩ := Option.bind_eq_some_iff.1 h
    cases h
    exact (ios_delIoAndPushReadyIos h₂).trans (ios_forceCompleteLoop h₁)

theorem ios_waitWhileMany {fuel : Nat} (h : waitWhileMany fuel w = some w') : w'.ios = w.ios := by
  induction fuel generalizing w with
  | zero => cases h
  | succ fuel ih =>
      rw [waitWhileMany] at h
      split at h
      · obtain ⟨w₁, h₁, h⟩ := Option.bind_eq_some_iff.1 h
        exact (ih h).trans (ios_waitForAnIoCompletion h₁)
      · cases h
        rfl

theorem ios_waitForAllLoop {fuel : Nat} (h : waitForAllLoop fuel w = some w') : w'.ios = w.ios := by
  induction fuel generalizing w with
  | zero => cases h
  | succ fuel ih =>
      rw [waitForAllLoop] at h
      split at h
      · cases h
        rfl
      · obtain ⟨w₁, h₁, h⟩ := Option.bind_eq_some_iff.1 h
        exact (ih h).trans (ios_waitForAnIoCompletion h₁)

theorem ios_foldl_enter {P : Io γ → Prop} (hw : ∀ i, P (w.ios i)) {fetched : List (Nat × List γ)}
    (hf : ∀ io ∈ fetched, P ⟨io.1, io.2⟩) (i : Nat) : P ((fetched.foldl enter w).ios i) := by
  induction fetched generalizing w with
  | nil => exact hw i
  | cons io fetched ih =>
      obtain ⟨hio, hf⟩ := List.forall_mem_cons.1 hf
      refine ih (fun j => ?_) hf
      have hios : (w.enter io).ios = Function.update w.ios w.next ⟨io.1, io.2⟩ := by
        rw [enter]
        split <;> rfl
      rw [hios]
      exact (Function.forall_update_iff w.ios fun _ => P).2 ⟨hio, fun j _ => hw j⟩ j

theorem ios_processIosLoop {P : Io γ → Prop} (hw : ∀ i, P (w.ios i)) {force : Bool} {fuel : Nat}
    {fetched : List (Nat × List γ)} (hf : ∀ io ∈ fetched, P ⟨io.1, io.2⟩)
    (h : w.processIosLoop force fuel fetched = some w') (i : Nat) : P (w'.ios i) := by
  induction fuel generalizing w fetched with
  | zero => cases h
  | succ fuel ih =>
      rw [processIosLoop] at h
      obtain ⟨w₁, h₁, h⟩ := Option.bind_eq_some_iff.1 h
      have hentered : ∀ i, P ((fetched.foldl enter w₁).ios i) :=
        ios_foldl_enter (by rw [ios_waitWhileMany h₁]; exact hw) hf
      have hsubmitted : ∀ i, P ((if force || (fetched.foldl enter
          w₁).hasEnoughReadyIos then (fetched.foldl enter w₁).submit
            else fetched.foldl enter w₁).ios i) := by
        split
        · rw [ios_submit]
          exact hentered
        · exact hentered
      dsimp only at h
      generalize (if force || (fetched.foldl enter w₁).hasEnoughReadyIos then (fetched.foldl enter
        w₁).submit
        else fetched.foldl enter w₁) = w₂ at h hsubmitted
      split at h
      · cases h
        exact hsubmitted i
      · exact ih hsubmitted (fun _ h => absurd h List.not_mem_nil) h

theorem ios_waitForAll {P : Io γ → Prop} (hw : ∀ i, P (w.ios i)) {fetched : List (Nat × List γ)}
    (hf : ∀ io ∈ fetched, P ⟨io.1, io.2⟩) (h : w.waitForAll fetched = some w') (i : Nat) :
    P (w'.ios i) := by
  obtain ⟨w₁, h₁, h⟩ := Option.bind_eq_some_iff.1 h
  rw [ios_waitForAllLoop h]
  exact ios_processIosLoop hw hf h₁ i

end

end AsyncBdevWriter

section

variable {sizeB offLb sizeLb : Nat}

theorem bytes_of_inRange (hsize : sizeB < 2 ^ 64) (h : offLb + sizeLb ≤ sizeB / 2 ^ 9) :
    offLb * 2 ^ 9 % 2 ^ 64 + sizeLb * 2 ^ 9 ≤ sizeB / 2 ^ 9 * 2 ^ 9 ∧
      sizeLb * 2 ^ 9 % 2 ^ 64 = sizeLb * 2 ^ 9 := by
  omega

theorem within_issueDiscard (hsize : sizeB < 2 ^ 64) (h : offLb + sizeLb ≤ sizeB / 2 ^ 9) :
    (issueDiscard offLb sizeLb : DeviceIo γ).Within sizeB := by
  obtain ⟨hle, heq⟩ := bytes_of_inRange hsize h
  rw [issueDiscard, DeviceIo.Within, heq]
  exact hle

/-- A guarded call that is let in is in the device, and one that is not in the device is not let
in. -/
theorem BdevCall.Guarded.clipped {c : BdevCall γ} (hc : c.Guarded sizeB)
    (hr : c.range = some (offLb, sizeLb)) :
    (¬deviceSizeLb sizeB < (offLb + sizeLb) % 2 ^ 64 → offLb + sizeLb ≤ sizeB / 2 ^ 9) ∧
      (¬c.InRange sizeB → deviceSizeLb sizeB < (offLb + sizeLb) % 2 ^ 64) :=
  ⟨fun hin => hc.elim (fun h => h _ hr) fun h => absurd (h _ hr) hin,
    fun hout => hc.resolve_left hout _ hr⟩

theorem BdevCall.inRange_of_range_eq_none {c : BdevCall γ} (hr : c.range = none) : c.InRange sizeB := by
  intro r h
  rw [hr] at h
  cases h

namespace SimpleBdevWriter

structure Bounded (sizeB : Nat) (w : SimpleBdevWriter γ) : Prop where
  sizeLb : w.bdevSizeLb = deviceSizeLb sizeB
  queued : ∀ p ∈ w.ioQ, p.offLb + p.sizeLb ≤ sizeB / 2 ^ 9
  issued : ∀ io ∈ w.issued, io.Within sizeB

theorem bounded_init (sizeB : Nat) : Bounded sizeB (init sizeB : SimpleBdevWriter γ) :=
  ⟨rfl, nofun, nofun⟩

theorem Bounded.step {w : SimpleBdevWriter γ} (B : Bounded sizeB w) (hsize : sizeB < 2 ^ 64)
    {c : BdevCall γ}
    (hc : c.Guarded sizeB) : Bounded sizeB (w.step c).2 ∧
      (¬c.InRange sizeB → w.step c = (false, w)) := by
  cases c with
  | prepare p =>
      obtain ⟨hin, hout⟩ := hc.clipped rfl
      rw [SimpleBdevWriter.step, SimpleBdevWriter.prepare, isClipped, B.sizeLb]
      refine ⟨?_, fun h => if_pos (decide_eq_true (hout h))⟩
      split
      next => exact B
      next hclip =>
        refine ⟨rfl, ?_, B.issued⟩
        exact List.forall_mem_append.2 ⟨B.queued, List.forall_mem_singleton.2
          (hin (by simpa using hclip))⟩
  | discard offLb sizeLb =>
      obtain ⟨hin, hout⟩ := hc.clipped rfl
      rw [SimpleBdevWriter.step, SimpleBdevWriter.discard, isClipped, B.sizeLb]
      refine ⟨?_, fun h => if_pos (decide_eq_true (hout h))⟩
      split
      next => exact B
      next hclip =>
        refine ⟨rfl, B.queued, List.forall_mem_append.2 ⟨B.issued, List.forall_mem_singleton.2 ?_⟩⟩
        exact within_issueDiscard hsize (hin (by simpa using hclip))
  | submit =>
      refine ⟨⟨B.sizeLb, fun _ h => absurd h List.not_mem_nil,
        List.forall_mem_append.2 ⟨B.issued, fun io hio => ?_⟩⟩,
        fun h => absurd (BdevCall.inRange_of_range_eq_none rfl) h⟩
      obtain ⟨p, hp, rfl⟩ := List.mem_map.1 hio
      rw [DeviceIo.Within, p.length_data]
      exact (bytes_of_inRange hsize (B.queued p hp)).1
  | waitForAll => exact ⟨B, fun h => absurd (BdevCall.inRange_of_range_eq_none rfl) h⟩

theorem Bounded.run {w : SimpleBdevWriter γ} (B : Bounded sizeB w) (hsize : sizeB < 2 ^ 64)
    {calls : List (BdevCall γ)}
    (hc : ∀ c ∈ calls, c.Guarded sizeB) : Bounded sizeB (calls.foldl (fun w c => (w.step c).2) w) := by
  induction calls generalizing w with
  | nil => exact B
  | cons c cs ih =>
      obtain ⟨hhead, htail⟩ := List.forall_mem_cons.1 hc
      exact ih (B.step hsize hhead).1 htail

end SimpleBdevWriter

namespace DiscardWriter

structure Bounded (sizeB : Nat) (w : DiscardWriter γ) : Prop where
  sizeLb : w.bdevSizeLb = deviceSizeLb sizeB
  fetched : ∀ io ∈ w.fetched, io.offset + io.size ≤ sizeB / 2 ^ 9 * 2 ^ 9
  ios : ∀ i, (w.engine.ios i).offset + (w.engine.ios i).size ≤ sizeB / 2 ^ 9 * 2 ^ 9
  discards : ∀ io ∈ w.discards, io.Within sizeB

theorem bounded_init (sizeB bufferSize : Nat) (device : Nat → γ) (discarded : Discarding γ)
    (schedule : Nat → List Completion) :
    Bounded sizeB (init sizeB bufferSize device discarded schedule) :=
      ⟨rfl, nofun, fun _ => Nat.zero_le _, nofun⟩

theorem Bounded.within {w : DiscardWriter γ} (B : Bounded sizeB w) {io : DeviceIo γ}
    (h : w.Issued io) : io.Within sizeB := by
  rcases h with h | ⟨i, -, rfl⟩
  · exact B.discards io h
  · exact B.ios i

theorem addFetched_within {bound : Nat} (hbound : bound < 2 ^ 64) {fetched : List (FetchedIo γ)}
    {src : FetchedIo γ}
    (hf : ∀ io ∈ fetched, io.offset + io.size ≤ bound) (hsrc : src.offset + src.size ≤ bound) :
    ∀ io ∈ addFetched fetched src, io.offset + io.size ≤ bound := by
  rcases addFetched_cases fetched src with ⟨dst, rest, merged, rfl, hmerged, hadd⟩ | hadd
  · obtain ⟨hdst, hrest⟩ := List.forall_mem_cons.1 hf
    obtain ⟨-, hoffset, hdata⟩ := tryMerge_eq_some hmerged
    rw [hadd]
    refine List.forall_mem_cons.2 ⟨?_, hrest⟩
    rw [hdata, Io.size, List.length_append]
    rw [Nat.mod_eq_of_lt (hdst.trans_lt hbound), Io.size] at hoffset
    rw [Io.size] at hsrc
    change dst.offset + (dst.data.length + src.data.length) ≤ bound
    omega
  · rw [hadd]
    exact List.forall_mem_append.2 ⟨hf, List.forall_mem_singleton.2 hsrc⟩

/-- A call that returns keeps the bounds, and one that is out of range does nothing. -/
theorem Bounded.step {w : DiscardWriter γ} (B : Bounded sizeB w) (hsize : sizeB < 2 ^ 64)
    {c : BdevCall γ}
    (hc : c.narrow.Guarded sizeB) : (∀ r, w.step c = some r → Bounded sizeB r.2) ∧
      (¬c.narrow.InRange sizeB → w.step c = some (false, w)) := by
  have hbound : sizeB / 2 ^ 9 * 2 ^ 9 < 2 ^ 64 := (Nat.div_mul_le_self _ _).trans_lt hsize
  have hhanded : ∀ io ∈ w.handed, io.1 + (Io.mk io.1 io.2).size ≤ sizeB / 2 ^ 9 * 2 ^ 9 := by
    intro io hio
    obtain ⟨f, hf, rfl⟩ := List.mem_map.1 hio
    exact B.fetched f hf
  have hwait : ∀ w', w.waitForAll = some w' → Bounded sizeB ⟨w', w.discarded, w.discards⟩ := by
    intro w' h
    obtain ⟨engine, hengine, rfl⟩ := Option.map_eq_some_iff.1 h
    refine ⟨B.sizeLb, fun _ h => absurd h List.not_mem_nil, ?_, B.discards⟩
    exact AsyncBdevWriter.ios_waitForAll (P := fun io => io.offset + io.size ≤ _) B.ios hhanded hengine
  cases c with
  | prepare p =>
      obtain ⟨hin, hout⟩ := hc.clipped rfl
      rw [DiscardWriter.step, Writer.prepare, Writer.isClipped, B.sizeLb]
      refine ⟨?_, fun h => by rw [if_pos (decide_eq_true (hout h))]⟩
      rintro r ⟨⟩
      split
      next => exact B
      next hclip =>
        have hbytes := (bytes_of_inRange hsize (hin (by simpa using hclip))).1
        refine ⟨rfl, addFetched_within hbound B.fetched ?_, B.ios, B.discards⟩
        rw [Io.size, PrepareCall.io, p.length_data]
        exact hbytes
  | discard offLb sizeLb =>
      obtain ⟨hin, hout⟩ := hc.clipped rfl
      rw [DiscardWriter.step, DiscardWriter.discard, Writer.isClipped, B.sizeLb]
      refine ⟨fun r hr => ?_, fun h => if_pos (decide_eq_true (hout h))⟩
      split at hr
      next =>
        cases hr
        exact B
      next hclip =>
        obtain ⟨w', hw', rfl⟩ := Option.map_eq_some_iff.1 hr
        have B' := hwait w' hw'
        refine ⟨B'.sizeLb, B'.fetched, B'.ios, List.forall_mem_append.2 ⟨B.discards,
          List.forall_mem_singleton.2 ?_⟩⟩
        exact within_issueDiscard hsize (hin (by simpa using hclip))
  | submit =>
      refine ⟨fun r hr => ?_, fun h => absurd (BdevCall.inRange_of_range_eq_none rfl) h⟩
      obtain ⟨w', hw', rfl⟩ := Option.map_eq_some_iff.1 hr
      obtain ⟨engine, hengine, rfl⟩ := Option.map_eq_some_iff.1 hw'
      refine ⟨B.sizeLb, fun _ h => absurd h List.not_mem_nil, ?_, B.discards⟩
      exact AsyncBdevWriter.ios_processIosLoop (P := fun io => io.offset + io.size ≤ _) B.ios
        hhanded hengine
  | waitForAll =>
      refine ⟨fun r hr => ?_, fun h => absurd (BdevCall.inRange_of_range_eq_none rfl) h⟩
      obtain ⟨w', hw', rfl⟩ := Option.map_eq_some_iff.1 hr
      exact hwait w' hw'

theorem Bounded.run {w w' : DiscardWriter γ} (B : Bounded sizeB w) (hsize : sizeB < 2 ^ 64)
    {calls : List (BdevCall γ)}
    (hc : ∀ c ∈ calls, c.narrow.Guarded sizeB)
    (h : calls.foldlM (fun w c => (DiscardWriter.step w c).map Prod.snd) w = some w') :
    Bounded sizeB w' := by
  induction calls generalizing w with
  | nil =>
      cases h
      exact B
  | cons c cs ih =>
      obtain ⟨hhead, htail⟩ := List.forall_mem_cons.1 hc
      rw [List.foldlM_cons] at h
      obtain ⟨w₁, h₁, h⟩ := Option.bind_eq_some_iff.1 h
      obtain ⟨r, hr, rfl⟩ := Option.map_eq_some_iff.1 h₁
      exact ih ((B.step hsize hhead).1 r hr) htail h

end DiscardWriter

/-- In a run of guarded calls neither writer gives the device an IO that is not in it, and both
refuse the calls that are out of range. What the asynchronous one issues during a call is among
the IOs that it had submitted or queued. -/
theorem writers_stay_in_device (hsize : sizeB < 2 ^ 64) (calls : List (BdevCall γ))
    (bufferSize : Nat) (device : Nat → γ)
    (discarded : Discarding γ) (schedule : Nat → List Completion) :
    ((∀ c ∈ calls, c.Guarded sizeB) →
      ∀ w, calls.foldl (fun w c => (SimpleBdevWriter.step w c).2) (.init sizeB) = w →
        (∀ io ∈ w.issued, io.Within sizeB) ∧
          ∀ c : BdevCall γ, c.Guarded sizeB → ¬c.InRange sizeB → w.step c = (false, w)) ∧
    ((∀ c ∈ calls, c.narrow.Guarded sizeB) →
      ∀ w, calls.foldlM (fun w c => (DiscardWriter.step w c).map Prod.snd)
      (.init sizeB bufferSize device discarded schedule) = some w →
        (∀ io, w.Issued io → io.Within sizeB) ∧ (∀ io ∈ w.handed,
        (DeviceIo.pwrite io.1 io.2).Within sizeB) ∧
          ∀ c : BdevCall γ, c.narrow.Guarded sizeB → ¬c.narrow.InRange sizeB →
          w.step c = some (false, w)) := by
  refine ⟨fun hc w hw => ?_, fun hc w hw => ?_⟩
  · have B : SimpleBdevWriter.Bounded sizeB w := hw ▸ (SimpleBdevWriter.bounded_init sizeB).run hsize hc
    exact ⟨B.issued, fun c hguard => (B.step hsize hguard).2⟩
  · have B := (DiscardWriter.bounded_init sizeB bufferSize device discarded schedule).run hsize hc hw
    refine ⟨fun io => B.within, fun io hio => ?_, fun c hguard => (B.step hsize hguard).2⟩
    obtain ⟨f, hf, rfl⟩ := List.mem_map.1 hio
    exact B.fetched f hf

theorem writers_stay_in_device_mebi :
    ([BdevCall.discard 0 8].foldl (fun w c => (SimpleBdevWriter.step w c).2)
      (.init (2 ^ 20)) : SimpleBdevWriter Nat).issued =
      [issueDiscard 0 8] ∧ (issueDiscard 0 8 : DeviceIo Nat).Within (2 ^ 20) := by
  obtain ⟨hsimple, -⟩ := @writers_stay_in_device Nat (2 ^ 20) (by decide) [.discard 0 8] 1024
    (fun _ => 0) (fun _ _ img => img) fun _ => []
  have hguarded : ∀ c ∈ [(BdevCall.discard 0 8 : BdevCall Nat)], c.Guarded (2 ^ 20) :=
    List.forall_mem_singleton.2 (Or.inl fun r hr => by cases hr; decide)
  exact ⟨rfl, (hsimple hguarded _ rfl).1 _ (List.mem_singleton_self _)⟩

/-- The first block behind a device of 1 MiB is let in and written. -/
theorem not_writers_stay_in_device : ¬∀ (sizeB : Nat) (calls : List (BdevCall Nat)), sizeB < 2 ^ 64 →
    ∀ io ∈ (calls.foldl (fun w c => (SimpleBdevWriter.step w c).2) (.init sizeB) : SimpleBdevWriter
    Nat).issued,
      io.Within sizeB := by
  intro h
  obtain ⟨p, hoff, hsize, -⟩ := exists_block 2048 0 1
  have hissued : ([.prepare p, .submit].foldl (fun w c => (SimpleBdevWriter.step w c).2)
      (.init (2 ^ 20)) : SimpleBdevWriter Nat).issued =
        [.pwrite (2048 * 2 ^ 9) p.data] := by
    have hclip : (SimpleBdevWriter.init (2 ^ 20) : SimpleBdevWriter Nat).isClipped p.offLb
        p.sizeLb = false := by
      rw [hoff, hsize]
      decide
    rw [List.foldl_cons, List.foldl_cons, List.foldl_nil, SimpleBdevWriter.step,
      SimpleBdevWriter.prepare, hclip]
    simp [SimpleBdevWriter.step, SimpleBdevWriter.submit, SimpleBdevWriter.init, hoff]
  have hwithin := h (2 ^ 20) [.prepare p, .submit] (by decide) (.pwrite (2048 * 2 ^ 9) p.data) (by
    rw [hissued]
    exact List.mem_singleton_self _)
  rw [DeviceIo.Within, p.length_data, hsize] at hwithin
  exact absurd hwithin (by decide)

end

end WalbTools.BdevWriter
