import WalbTools.BdevWriter

namespace WalbTools.BdevWriter

variable {γ : Type}

def Io.Meets (io rhs : Io γ) : Prop :=
  max io.offset rhs.offset < min (io.offset + io.size) (rhs.offset + rhs.size)

instance (io rhs : Io γ) : Decidable (io.Meets rhs) := inferInstanceAs (Decidable (_ < _))

/-- The calls of the serializer: the newest IO comes in, and the oldest one goes. In between
the ready queue starts IOs that are free. -/
inductive SerializerCall (γ : Type) where
  | add (io : Io γ)
  | delIoAndPushReadyIos
  | start (i : Nat)

namespace SerializerCall

def step (w : AsyncBdevWriter γ) : SerializerCall γ → Option (AsyncBdevWriter γ)
  | .add io => some (w.enter (io.offset, io.data))
  | .delIoAndPushReadyIos =>
      match w.list with
      | [] => some w
      | f :: rest =>
          if (w.status f).nOverlapped ≠ 0 then some w
          else
            (w.delIoAndPushReadyIos f).map fun w =>
              { w with list := rest, processingSize := w.processingSize - (w.ios f).size }
  | .start i =>
      if i ∈ w.ioSet then
        some { w with
          status := Function.update w.status i { w.status i with state := .submitted }
          ioSet := w.ioSet.erase i
          totalSize := w.totalSize - (w.ios i).size }
      else some w

def Valid : SerializerCall γ → Prop
  | .add io => io.Valid
  | _ => True

end SerializerCall

structure Exact (w : AsyncBdevWriter γ) : Prop where
  set_perm : w.set.Perm w.list
  count : ∀ l₁ i l₂, w.list = l₁ ++ i :: l₂ →
    (w.status i).nOverlapped = (l₁.filter fun j => decide ((w.ios i).Meets (w.ios j))).length

/-- What a call takes out of the set, and which IOs it sets free. -/
def Frees (w w' : AsyncBdevWriter γ) : SerializerCall γ → Prop
  | .add _ =>
      w'.list = w.list ++ [w.next] ∧
        w'.ioSet.Perm (if (w'.status w.next).nOverlapped = 0 then w.next :: w.ioSet else w.ioSet)
  | .delIoAndPushReadyIos =>
      ∀ f rest, w.list = f :: rest → w'.list = rest ∧ w'.set = w.set.erase f ∧
        w'.ioSet.Perm ((rest.filter fun i => decide ((w.status i).nOverlapped ≠ 0) &&
        (w'.status i).isReady) ++ w.ioSet)
  | .start _ =>
      w'.list = w.list ∧ w'.set = w.set ∧ ∀ i, (w'.status i).nOverlapped = (w.status i).nOverlapped

variable {w : AsyncBdevWriter γ}

theorem Io.meets_iff {io rhs : Io γ} (hio : io.Valid) (hrhs : rhs.Valid) :
    io.Meets rhs ↔ io.isOverlapped rhs = true := by
  have h₁ := hio.pos
  have h₂ := hrhs.pos
  rw [Io.isOverlapped_iff hio hrhs, Io.Meets]
  omega

theorem Counted.exact (C : Counted w) : Exact w := by
  refine ⟨C.set_perm, fun l₁ i l₂ hl => ?_⟩
  have hsorted := C.sorted
  rw [hl, List.pairwise_append] at hsorted
  obtain ⟨-, hi, hlt⟩ := hsorted
  have hmem : ∀ j ∈ l₁ ++ i :: l₂, j ∈ w.list := fun j hj => hl ▸ hj
  have hvalid := C.valid i (hmem i (List.mem_append_right _ List.mem_cons_self))
  have hafter : (i :: l₂).filter (fun j => decide (j < i) && (w.ios i).isOverlapped (w.ios j)) = [] := by
    rw [List.filter_eq_nil_iff]
    intro j hj
    have hle : i ≤ j := by
      rcases List.mem_cons.mp hj with rfl | hj
      · exact le_rfl
      · exact ((List.pairwise_cons.mp hi).1 j hj).le
    simp [not_lt.mpr hle]
  rw [C.count i (hmem i (List.mem_append_right _ List.mem_cons_self)), hl, List.filter_append,
    hafter, List.append_nil]
  congr 1
  apply List.filter_congr
  intro j hj
  have hj' := C.valid j (hmem j (List.mem_append_left _ hj))
  rw [decide_eq_true (hlt j hj i List.mem_cons_self), Bool.true_and, Bool.eq_iff_iff, decide_eq_true_eq,
    Io.meets_iff hvalid hj']

theorem Counted.front (C : Counted w) {f : Nat} {rest : List Nat} (hl : w.list = f :: rest) :
    (w.status f).nOverlapped = 0 := C.exact.count [] f rest hl

theorem Counted.enter (C : Counted w) {io : Io γ} (hio : io.Valid) :
    Counted (w.enter (io.offset, io.data)) ∧ Frees w (w.enter (io.offset, io.data)) (.add io) := by
  obtain ⟨xs, hn, hmem, hadd⟩ := C.add_eq hio (w.processingSize + io.size)
  have C' := C.entered hio hn hmem
  rw [AsyncBdevWriter.enter]
  dsimp only
  rw [show io.data.length = io.size from rfl, hadd]
  dsimp only
  split_ifs with h0
  · refine ⟨⟨C'.sorted, C'.fresh, C'.valid, C'.set_perm, C'.set_sorted, C'.maxSize, C'.count⟩, rfl, ?_⟩
    rw [AsyncBdevWriter.push, if_pos h0]
    exact perm_insertIo _ _ _
  · refine ⟨⟨C'.sorted, C'.fresh, C'.valid, C'.set_perm, C'.set_sorted, C'.maxSize, C'.count⟩, rfl, ?_⟩
    rw [if_neg h0]

theorem Counted.delFront (C : Counted w) {f : Nat} {rest : List Nat} (hl : w.list = f :: rest) :
    ∃ w', SerializerCall.step w .delIoAndPushReadyIos = some w' ∧ Counted w' ∧
      Frees w w' .delIoAndPushReadyIos := by
  obtain ⟨xs, ioSet, hn, hmemx, hpos, hdel, hperm, -, C'⟩ := C.del hl
  have hsorted := C.sorted
  rw [hl] at hsorted
  have hrest := (List.pairwise_cons.mp hsorted).2
  rw [SerializerCall.step, hl]
  dsimp only
  rw [if_neg (not_not.mpr (C.front hl)), hdel, Option.map_some]
  refine ⟨_, rfl, ⟨C'.sorted, C'.fresh, C'.valid, C'.set_perm, C'.set_sorted, C'.maxSize, C'.count⟩,
    fun f' rest' hl' => ?_⟩
  obtain ⟨rfl, rfl⟩ := List.cons.inj (hl.symm.trans hl')
  refine ⟨rfl, rfl, hperm.trans (List.Perm.append_right _ ?_)⟩
  rw [List.perm_ext_iff_of_nodup (hn.filter _) (hrest.nodup.filter _)]
  intro i
  rw [List.mem_filter, List.mem_filter, Bool.and_eq_true, decide_eq_true_eq]
  dsimp only
  by_cases hi : i ∈ xs
  · rw [if_pos hi]
    exact ⟨fun h => ⟨((hmemx i).mp hi).1, hpos i hi, h.2⟩, fun h => ⟨hi, h.2.2⟩⟩
  · rw [if_neg hi]
    refine ⟨fun h => absurd h.1 hi, fun h => absurd h.2.2 ?_⟩
    rw [Status.isReady, Bool.and_eq_true, decide_eq_true_eq]
    exact fun hr => h.2.1 hr.1

theorem Counted.step (C : Counted w) {call : SerializerCall γ} (hc : call.Valid) :
    ∃ w', call.step w = some w' ∧ Counted w' ∧ Frees w w' call := by
  cases call with
  | add io => exact ⟨_, rfl, C.enter hc⟩
  | delIoAndPushReadyIos =>
      cases hl : w.list with
      | nil =>
          refine ⟨w, ?_, C, fun f rest h => ?_⟩
          · rw [SerializerCall.step, hl]
          · cases hl.symm.trans h
      | cons f rest => exact C.delFront hl
  | start i =>
      have hstatus : ∀ j, (Function.update w.status i { w.status i with
          state := .submitted } j).nOverlapped =
            (w.status j).nOverlapped := by
        intro j
        by_cases hj : j = i
        · rw [hj, Function.update_self]
        · rw [Function.update_of_ne hj]
      rw [SerializerCall.step]
      split_ifs
      · exact ⟨_, rfl, ⟨C.sorted, C.fresh, C.valid, C.set_perm, C.set_sorted, C.maxSize,
          fun j hj => (hstatus j).trans (C.count j hj)⟩, rfl, rfl, hstatus⟩
      · exact ⟨w, rfl, C, rfl, rfl, fun _ => rfl⟩

theorem Counted.run (C : Counted w) {calls : List (SerializerCall γ)} (hc : ∀ call ∈ calls, call.Valid) :
    ∃ w', calls.foldlM SerializerCall.step w = some w' ∧ Counted w' := by
  induction calls generalizing w with
  | nil => exact ⟨w, rfl, C⟩
  | cons call calls ih =>
      obtain ⟨w₁, h₁, C₁, -⟩ := C.step (hc call List.mem_cons_self)
      obtain ⟨w', h', C'⟩ := ih C₁ fun call' h => hc call' (List.mem_cons_of_mem _ h)
      refine ⟨w', ?_, C'⟩
      rw [List.foldlM_cons, h₁, Option.bind_eq_bind, Option.bind_some, h']

theorem counted_init (bufferSize : Nat) (device : Nat → γ) (schedule : Nat → List AioUtil.Completion) :
    Counted (init bufferSize device schedule) := ⟨.nil, nofun, nofun, .refl _, .nil, nofun, nofun⟩

/-- In every run the counters are exact, every removal ends with exactly its IO gone, and an IO
is set free when its counter comes to zero. -/
theorem serializer_counts (bufferSize : Nat) (device : Nat → γ)
    (schedule : Nat → List AioUtil.Completion)
    {calls : List (SerializerCall γ)} (hcalls : ∀ call ∈ calls, call.Valid) :
    ∃ w, calls.foldlM SerializerCall.step (init bufferSize device schedule) = some w ∧ Exact w ∧
      (∀ f rest, w.list = f :: rest → (w.status f).nOverlapped = 0) ∧
      ∀ call : SerializerCall γ, call.Valid → ∃ w', call.step w = some w' ∧ Exact w' ∧
      Frees w w' call := by
  obtain ⟨w, hw, C⟩ := (counted_init bufferSize device schedule).run hcalls
  refine ⟨w, hw, C.exact, fun f rest hl => C.front hl, fun call hc => ?_⟩
  obtain ⟨w', hw', C', hfrees⟩ := C.step hc
  exact ⟨w', hw', C'.exact, hfrees⟩

theorem serializer_counts_two :
    ∃ w, [SerializerCall.add ⟨0, [1, 1]⟩, .add ⟨1, [2]⟩].foldlM SerializerCall.step
      (init 1024 (fun _ => 0) fun _ => []) = some w ∧
      Exact w := by
  have hvalid : ∀ call ∈ [SerializerCall.add ⟨0, [1, 1]⟩, .add ⟨1, [2]⟩], call.Valid := by
    intro call hc
    rcases List.mem_pair.mp hc with rfl | rfl
    · exact ⟨by decide, by decide, by decide⟩
    · exact ⟨by decide, by decide, by decide⟩
  obtain ⟨w, hw, hexact, -⟩ := serializer_counts 1024 (fun _ => 0) (fun _ => []) hvalid
  exact ⟨w, hw, hexact⟩

/-- The size 2^32 is taken for 0, so an IO of 4 GiB is not seen. -/
theorem not_serializer_counts :
    ¬∀ (calls : List (SerializerCall Nat)) (w : AsyncBdevWriter Nat),
      calls.foldlM SerializerCall.step (init 1024 (fun _ => 0) fun _ => []) = some w → Exact w := by
  intro h
  obtain ⟨d, hd⟩ : ∃ d : List Nat, d.length = 2 ^ 32 :=
    ⟨List.replicate (2 ^ 32) 0, List.length_replicate⟩
  have hexact := (h [.add ⟨0, d⟩, .add ⟨0, [7]⟩] _ rfl).count [0] 1 []
  simp [AsyncBdevWriter.enter, AsyncBdevWriter.add, AsyncBdevWriter.overlappedIos,
    AsyncBdevWriter.offset, init, insertIo,
    AsyncBdevWriter.push, Io.Meets, Io.isOverlapped, BdevWriter.isOverlapped, Io.size, Status.new,
    hd, Function.update] at hexact

end WalbTools.BdevWriter
