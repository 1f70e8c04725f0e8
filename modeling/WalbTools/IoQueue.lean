import WalbTools.BdevWriter

namespace WalbTools.BdevWriter

open Overlay AioUtil

/-- An IO that is not yet in processing, and the address of its buffer. -/
structure FetchedIo (γ : Type) extends Io γ where
  ptr : Nat

variable {γ : Type}

namespace FetchedIo

def canMerge (io rhs : FetchedIo γ) : Bool :=
  (io.offset + io.size) % 2 ^ 64 = rhs.offset && io.ptr + io.size = rhs.ptr

/-- The bytes behind the buffer of `io` are those of `rhs`. -/
def tryMerge (io rhs : FetchedIo γ) : Option (FetchedIo γ) :=
  if io.canMerge rhs then some { io with data := io.data ++ rhs.data } else none

end FetchedIo

/-- 1 MiB. -/
def maxIoSize : Nat := 2 ^ 20

/-- `IoQueue::tryMerge` -/
def tryMerge (dst src : FetchedIo γ) : Option (FetchedIo γ) :=
  if maxIoSize < (dst.size + src.size) % 2 ^ 64 then none else dst.tryMerge src

def addFetched (fetched : List (FetchedIo γ)) (io : FetchedIo γ) : List (FetchedIo γ) :=
  match fetched with
  | [] => [io]
  | dst :: rest =>
    match tryMerge dst io with
    | some dst => dst :: rest
    | none => dst :: rest ++ [io]

structure PrepareCall (γ : Type) where
  offLb : Nat
  sizeLb : Nat
  ptr : Nat
  data : List γ
  length_data : data.length = sizeLb * 2 ^ 9

def PrepareCall.io (p : PrepareCall γ) : FetchedIo γ := ⟨⟨p.offLb * 2 ^ 9 % 2 ^ 64, p.data⟩, p.ptr⟩

structure Writer (γ : Type) where
  bdevSizeLb : Nat
  fetched : List (FetchedIo γ)
  engine : AsyncBdevWriter γ

inductive WriterCall (γ : Type) where
  | prepare (p : PrepareCall γ)
  | submit
  | waitForAll

namespace Writer

def isClipped (w : Writer γ) (offLb sizeLb : Nat) : Bool := w.bdevSizeLb < (offLb + sizeLb) % 2 ^ 64

def prepare (w : Writer γ) (p : PrepareCall γ) : Bool × Writer γ :=
  if w.isClipped p.offLb p.sizeLb then (false, w)
    else (true, { w with fetched := addFetched w.fetched p.io })

def handed (w : Writer γ) : List (Nat × List γ) := w.fetched.map fun io => (io.offset, io.data)

def submit (w : Writer γ) : Option (Writer γ) :=
  (w.engine.processIos false w.handed).map fun engine => { w with fetched := [], engine := engine }

def waitForAll (w : Writer γ) : Option (Writer γ) :=
  (w.engine.waitForAll w.handed).map fun engine => { w with fetched := [], engine := engine }

def step (w : Writer γ) : WriterCall γ → Option (Writer γ)
  | .prepare p => some (w.prepare p).2
  | .submit => w.submit
  | .waitForAll => w.waitForAll

/-- The IO can be expressed in 32 bits, is not empty and ends within 64 bits, and one that is
joined to the oldest IO of the queue meets none of those in between. -/
def Clear (w : Writer γ) : WriterCall γ → Prop
  | .prepare p => w.isClipped p.offLb p.sizeLb = false →
      0 < p.sizeLb ∧ p.sizeLb < 2 ^ 23 ∧ (p.offLb + p.sizeLb) * 2 ^ 9 < 2 ^ 64 ∧
      ∀ dst rest, w.fetched = dst :: rest → tryMerge dst p.io ≠ none → ∀ io ∈ rest,
      p.io.isOverlapped io.toIo = false
  | _ => True

def Clears : List (WriterCall γ) → Writer γ → Prop
  | [], _ => True
  | c :: cs, w => w.Clear c ∧ ∀ w', w.step c = some w' → Clears cs w'

def accepted (w : Writer γ) : List (WriterCall γ) → List (Nat × List γ)
  | [] => []
  | .prepare p :: cs =>
      if w.isClipped p.offLb p.sizeLb then w.accepted cs
        else (p.offLb * 2 ^ 9, p.data) :: w.accepted cs
  | _ :: cs => w.accepted cs

end Writer

def Writer.init (bdevSizeLb bufferSize : Nat) (device : Nat → γ)
    (schedule : Nat → List Completion) : Writer γ :=
  ⟨bdevSizeLb, [], BdevWriter.init bufferSize device schedule⟩

theorem stretch_append (pos : Nat) (l m : List γ) :
    stretch pos (l ++ m) = cover (stretch (pos + l.length) m) (stretch pos l) := by
  funext a
  rw [stretch, cover, stretch, stretch]
  by_cases hpos : pos ≤ a
  · rw [if_pos hpos, if_pos hpos]
    by_cases hend : pos + l.length ≤ a
    · have hnone : l[a - pos]? = none := List.getElem?_eq_none (by omega)
      rw [if_pos hend, hnone, Option.or_none, List.getElem?_append_right (by omega), Nat.sub_sub]
    · rw [if_neg hend, Option.none_or, List.getElem?_append_left (by omega)]
  · rw [if_neg hpos, if_neg hpos, if_neg (by omega)]
    rfl

theorem execute_append (device : Nat → γ) (l m : List (Nat × List γ)) :
    execute device (l ++ m) = execute (execute device l) m := List.foldl_append

theorem execute_comm {io : Nat × List γ} {l : List (Nat × List γ)}
    (h : ∀ io' ∈ l, Disjoint (stretch io.1 io.2) (stretch io'.1 io'.2)) (device : Nat → γ) :
    execute device (l ++ [io]) = execute device (io :: l) := by
  induction l generalizing device with
  | nil => rfl
  | cons io' l ih =>
      obtain ⟨hd, hl⟩ := List.forall_mem_cons.1 h
      calc execute device (io' :: l ++ [io])
          = execute (write (stretch io'.1 io'.2) device) (l ++ [io]) := rfl
        _ = execute (write (stretch io.1 io.2) (write (stretch io'.1 io'.2) device)) l := ih hl _
        _ = execute (write (stretch io'.1 io'.2) (write (stretch io.1 io.2) device)) l := by
          rw [write_write, write_write, cover_comm hd]
        _ = execute device (io :: io' :: l) := rfl

section

variable {dst src merged : FetchedIo γ} {rest fetched : List (FetchedIo γ)} {w w' : Writer γ}
  {img : Nat → γ}

theorem tryMerge_eq_some (h : tryMerge dst src = some merged) :
    (dst.size + src.size) % 2 ^ 64 ≤ maxIoSize ∧ (dst.offset + dst.size) % 2 ^ 64 = src.offset ∧
      merged = { dst with data := dst.data ++ src.data } := by
  unfold tryMerge FetchedIo.tryMerge at h
  split_ifs at h with hbig hcan
  · rw [FetchedIo.canMerge, Bool.and_eq_true, decide_eq_true_eq] at hcan
    exact ⟨Nat.not_lt.1 hbig, hcan.1, (Option.some.inj h).symm⟩

theorem addFetched_join (h : tryMerge dst src = some merged) :
    addFetched (dst :: rest) src = merged :: rest := by
  rw [addFetched, h]

theorem addFetched_cases (fetched : List (FetchedIo γ)) (src : FetchedIo γ) :
    (∃ dst rest merged, fetched = dst :: rest ∧ tryMerge dst src = some merged ∧
      addFetched fetched src = merged :: rest) ∨
      addFetched fetched src = fetched ++ [src] := by
  cases fetched with
  | nil => exact Or.inr rfl
  | cons dst rest =>
      cases h : tryMerge dst src with
      | none => exact Or.inr (by rw [addFetched, h])
      | some merged => exact Or.inl ⟨dst, rest, merged, rfl, h, addFetched_join h⟩

theorem joined_spec (hdst : dst.Valid) (hsrc : src.Valid) (h : tryMerge dst src = some merged) :
    merged.Valid ∧ ∀ img, write merged.content img = write src.content (write dst.content img) := by
  obtain ⟨hsize, hoffset, rfl⟩ := tryMerge_eq_some h
  rw [Nat.mod_eq_of_lt hdst.end_lt] at hoffset
  have hlen : (dst.data ++ src.data).length = dst.size + src.size := List.length_append
  have hsmall : dst.size + src.size < 2 ^ 64 := by
    have h₁ := hdst.size_lt
    have h₂ := hsrc.size_lt
    omega
  rw [Nat.mod_eq_of_lt hsmall] at hsize
  refine ⟨⟨?_, ?_, ?_⟩, fun img => ?_⟩
  · rw [Io.size, hlen]
    exact Nat.add_pos_left hdst.pos _
  · rw [Io.size, hlen]
    exact hsize.trans_lt (by decide)
  · rw [Io.size, hlen, ← Nat.add_assoc, hoffset]
    exact hsrc.end_lt
  · rw [write_write, Io.content, Io.content, Io.content, stretch_append, ← hoffset, Io.size]

structure Waiting (w : Writer γ) (img : Nat → γ) : Prop where
  valid : ∀ io ∈ w.fetched, io.Valid
  engine : ∃ img₀, Sound w.engine img₀ ∧ execute img₀ w.handed = img

theorem Waiting.accepted (W : Waiting w img) : Accepted w.handed := by
  intro io hio
  obtain ⟨f, hf, rfl⟩ := List.mem_map.1 hio
  exact W.valid f hf

theorem Waiting.add (W : Waiting w img) (hsrc : src.Valid)
    (hclear : ∀ dst rest, w.fetched = dst :: rest → tryMerge dst src ≠ none → ∀ io ∈ rest,
      src.isOverlapped io.toIo = false) :
    Waiting { w with fetched := addFetched w.fetched src } (write src.content img) := by
  obtain ⟨img₀, S, himg⟩ := W.engine
  have happend : execute img₀ (w.handed ++ [(src.offset, src.data)]) = write src.content img := by
    rw [execute_append, himg]
    rfl
  rcases addFetched_cases w.fetched src with ⟨dst, rest, merged, hfetched, hmerged, hadd⟩ | hadd
  · have hvalid := W.valid
    rw [hfetched] at hvalid
    obtain ⟨hdst, hrest⟩ := List.forall_mem_cons.1 hvalid
    obtain ⟨hmvalid, hwrite⟩ := joined_spec hdst hsrc hmerged
    have hapart := hclear dst rest hfetched (by rw [hmerged]; exact Option.some_ne_none _)
    have hdisjoint : ∀ io ∈ rest.map fun io => (io.offset, io.data),
        Disjoint src.content (stretch io.1 io.2) := by
      intro io hio
      obtain ⟨f, hf, rfl⟩ := List.mem_map.1 hio
      exact Io.disjoint_content hsrc (hrest f hf) (hapart f hf)
    refine ⟨?_, img₀, S, ?_⟩
    · dsimp only
      rw [hadd]
      exact List.forall_mem_cons.2 ⟨hmvalid, hrest⟩
    · rw [Writer.handed, hfetched, List.map_cons, List.cons_append] at happend
      rw [Writer.handed, hadd, ← happend]
      calc execute img₀ ((merged :: rest).map fun io => (io.offset, io.data))
          = execute (write merged.content img₀) (rest.map fun io => (io.offset, io.data)) := rfl
        _ = execute (write dst.content img₀) ((src.offset, src.data) :: rest.map fun io =>
          (io.offset, io.data)) := by
          rw [hwrite]
          rfl
        _ = execute (write dst.content img₀) ((rest.map fun io => (io.offset, io.data)) ++
          [(src.offset, src.data)]) :=
          (@execute_comm _ (src.offset, src.data) _ hdisjoint _).symm
  · refine ⟨?_, img₀, S, ?_⟩
    · dsimp only
      rw [hadd]
      exact fun io hio => (List.mem_append.1 hio).elim (W.valid io) fun h =>
        by rwa [List.mem_singleton.1 h]
    · rw [Writer.handed, hadd, List.map_append, ← happend]
      rfl

theorem Waiting.submit (W : Waiting w img) :
    ∃ w', w.submit = some w' ∧ Waiting w' img ∧ w'.bdevSizeLb = w.bdevSizeLb := by
  obtain ⟨img₀, S, himg⟩ := W.engine
  obtain ⟨engine, hengine, S'⟩ := @Sound.run _ _ _ S (.submit w.handed) W.accepted
  refine ⟨{ w with fetched := [], engine := engine }, ?_, ⟨nofun, _, S', himg⟩, rfl⟩
  rw [Writer.submit, show w.engine.processIos false w.handed = some engine from hengine, Option.map_some]

theorem Waiting.waitForAll (W : Waiting w img) : ∃ w', w.waitForAll = some w' ∧ Waiting w' img ∧
    w'.bdevSizeLb = w.bdevSizeLb ∧ w'.engine.aio.target = img := by
  obtain ⟨img₀, S, himg⟩ := W.engine
  obtain ⟨engine, hengine, S', hnil⟩ := S.waitForAll W.accepted
  refine ⟨{ w with fetched := [], engine := engine }, ?_, ⟨nofun, _, S', himg⟩, rfl,
    (S'.drained hnil).2.trans himg⟩
  rw [Writer.waitForAll, hengine, Option.map_some]

theorem Waiting.step (W : Waiting w img) {c : WriterCall γ} (hc : w.Clear c) :
    ∃ w', w.step c = some w' ∧ Waiting w' (execute img (w.accepted [c])) ∧
      w'.bdevSizeLb = w.bdevSizeLb := by
  cases c with
  | prepare p =>
      refine ⟨_, rfl, ?_⟩
      rw [Writer.prepare, Writer.accepted, Writer.accepted]
      cases hclip : w.isClipped p.offLb p.sizeLb with
      | true => exact ⟨W, rfl⟩
      | false =>
          obtain ⟨hpos, hsize, hend, hjoin⟩ := hc hclip
          have hbegin : p.offLb * 2 ^ 9 < 2 ^ 64 :=
            (Nat.mul_le_mul_right _ (Nat.le_add_right _ _)).trans_lt hend
          have hoffset : p.offLb * 2 ^ 9 % 2 ^ 64 = p.offLb * 2 ^ 9 := Nat.mod_eq_of_lt hbegin
          have hlen : p.io.size = p.sizeLb * 2 ^ 9 := p.length_data
          have hvalid : p.io.Valid := by
            refine ⟨by omega, by omega, ?_⟩
            rw [hlen]
            change p.offLb * 2 ^ 9 % 2 ^ 64 + p.sizeLb * 2 ^ 9 < 2 ^ 64
            omega
          have hadd := W.add hvalid hjoin
          have hcontent : p.io.content = stretch (p.offLb * 2 ^ 9) p.data :=
            congrArg (fun offset => stretch offset p.data) hoffset
          rw [hcontent] at hadd
          exact ⟨hadd, rfl⟩
  | submit => exact W.submit
  | waitForAll =>
      obtain ⟨w', hw', W', hsame, -⟩ := W.waitForAll
      exact ⟨w', hw', W', hsame⟩

theorem accepted_eq (h : w'.bdevSizeLb = w.bdevSizeLb) (calls : List (WriterCall γ)) :
    w'.accepted calls = w.accepted calls := by
  induction calls with
  | nil => rfl
  | cons c cs ih =>
      cases c with
      | prepare p => rw [Writer.accepted, Writer.accepted, ih, Writer.isClipped, Writer.isClipped, h]
      | submit => exact ih
      | waitForAll => exact ih

theorem accepted_cons (c : WriterCall γ) (cs : List (WriterCall γ)) :
    w.accepted (c :: cs) = w.accepted [c] ++ w.accepted cs := by
  cases c with
  | prepare p =>
      rw [Writer.accepted, Writer.accepted, Writer.accepted]
      split <;> rfl
  | submit => rfl
  | waitForAll => rfl

theorem Waiting.run (W : Waiting w img) {calls : List (WriterCall γ)} (hc : w.Clears calls) :
    ∃ w', calls.foldlM Writer.step w = some w' ∧ Waiting w' (execute img (w.accepted calls)) := by
  induction calls generalizing w img with
  | nil => exact ⟨w, rfl, W⟩
  | cons c cs ih =>
      obtain ⟨w₁, h₁, W₁, hsame⟩ := W.step hc.1
      obtain ⟨w', h', W'⟩ := ih W₁ (hc.2 w₁ h₁)
      refine ⟨w', ?_, ?_⟩
      · rw [List.foldlM_cons, h₁, Option.bind_eq_bind, Option.bind_some, h']
      · rwa [accepted_cons, execute_append, ← accepted_eq hsame cs]

theorem Waiting.init (bdevSizeLb : Nat) {bufferSize : Nat} (hb : 2 ^ 10 ≤ bufferSize) (device : Nat → γ)
    (schedule : Nat → List Completion) : Waiting (Writer.init bdevSizeLb bufferSize device schedule)
      device :=
  ⟨nofun, device, Sound.init hb device schedule, rfl⟩

/-- In a run whose calls are all clear the device ends up as if the writes had been executed in
the order of `prepare`. -/
theorem prepared_in_order (bdevSizeLb : Nat) {bufferSize : Nat} (hb : 2 ^ 10 ≤ bufferSize)
    (device : Nat → γ)
    (schedule : Nat → List Completion) {calls : List (WriterCall γ)}
    (hc : (Writer.init bdevSizeLb bufferSize device schedule).Clears calls) :
    ∃ w w', calls.foldlM Writer.step (Writer.init bdevSizeLb bufferSize device schedule) = some w ∧
      w.waitForAll = some w' ∧
      w'.engine.aio.target = execute device ((Writer.init bdevSizeLb bufferSize device
      schedule).accepted calls) := by
  obtain ⟨w, hw, W⟩ := (Waiting.init bdevSizeLb hb device schedule).run hc
  obtain ⟨w', hw', -, -, htarget⟩ := W.waitForAll
  exact ⟨w, w', hw, hw', htarget⟩

theorem step_block {p : PrepareCall γ} (hdev : w.bdevSizeLb = 8) (hoff : p.offLb ≤ 1)
    (hsize : p.sizeLb = 1) :
    w.step (.prepare p) = some { w with fetched := addFetched w.fetched p.io } ∧
      w.accepted [.prepare p] = [(p.offLb * 2 ^ 9, p.data)] := by
  have hclip : w.isClipped p.offLb p.sizeLb = false := by
    rw [Writer.isClipped, decide_eq_false_iff_not, hdev, hsize]
    omega
  rw [Writer.step, Writer.prepare, Writer.accepted, hclip]
  exact ⟨rfl, rfl⟩

theorem exists_block (offLb ptr v : Nat) :
    ∃ p : PrepareCall Nat, p.offLb = offLb ∧ p.sizeLb = 1 ∧ p.ptr = ptr ∧ p.data[0]? = some v :=
  ⟨⟨offLb, 1, ptr, List.replicate (2 ^ 9) v, by rw [List.length_replicate, Nat.one_mul]⟩, rfl, rfl,
    rfl, rfl⟩

theorem prepared_in_order_one : ∃ (p : PrepareCall Nat)
    (w w' : Writer Nat), p.offLb = 1 ∧ p.data[0]? = some 2 ∧
    [.prepare p].foldlM Writer.step (Writer.init 8 1024 (fun _ => 0) fun _ => []) = some w ∧
      w.waitForAll = some w' ∧ w'.engine.aio.target 512 = 2 := by
  obtain ⟨p, hoff, hsize, -, hdata⟩ := exists_block 1 4608 2
  have hclears : (Writer.init 8 1024 (fun _ => 0) fun _ => []).Clears [.prepare p] := by
    refine ⟨fun _ => ⟨by rw [hsize]; decide, by rw [hsize]; decide, by rw [hoff, hsize]; decide,
      ?_⟩, fun _ _ => trivial⟩
    exact fun dst rest h => absurd h (List.cons_ne_nil _ _).symm
  obtain ⟨w, w', hw, hw', htarget⟩ := prepared_in_order 8 le_rfl (fun _ => 0) (fun _ => []) hclears
  refine ⟨p, w, w', hoff, hdata, hw, hw', ?_⟩
  rw [htarget, (step_block rfl hoff.le hsize).2, hoff]
  change (stretch 512 p.data 512).getD 0 = 2
  rw [stretch, if_pos le_rfl, Nat.sub_self, hdata]
  rfl

/-- The third write is joined to the first and goes to the device ahead of the second. -/
theorem not_prepared_in_order :
    ¬∀ (calls : List (WriterCall Nat)) (w w' : Writer Nat),
      calls.foldlM Writer.step (Writer.init 8 1024 (fun _ => 0) fun _ => []) = some w →
      w.waitForAll = some w' →
        w'.engine.aio.target = execute (fun _ => 0) ((Writer.init 8 1024 (fun _ => 0) fun _ =>
        []).accepted calls) := by
  intro h
  obtain ⟨p₁, hoff₁, hsize₁, hptr₁, -⟩ := exists_block 0 4096 1
  obtain ⟨p₂, hoff₂, hsize₂, hptr₂, hdata₂⟩ := exists_block 1 0 2
  obtain ⟨p₃, hoff₃, hsize₃, hptr₃, hdata₃⟩ := exists_block 1 4608 3
  have hlen : ∀ {p : PrepareCall Nat}, p.sizeLb = 1 → p.io.size = 2 ^ 9 :=
    fun {p} hp => p.length_data.trans (by rw [hp, Nat.one_mul])
  have hio : ∀ {p : PrepareCall Nat} {n ptr : Nat}, p.offLb = n → p.ptr = ptr →
      p.io = ⟨⟨n * 2 ^ 9 % 2 ^ 64, p.data⟩, ptr⟩ := by
    rintro p n ptr rfl rfl
    rfl
  have hapart : tryMerge p₁.io p₂.io = none := by
    rw [tryMerge, hlen hsize₁, hlen hsize₂, if_neg (by decide), FetchedIo.tryMerge,
      FetchedIo.canMerge, hlen hsize₁,
      hio hoff₁ hptr₁, hio hoff₂ hptr₂, if_neg (by simp)]
  have hjoin : tryMerge p₁.io p₃.io = some ⟨⟨0, p₁.data ++ p₃.data⟩, 4096⟩ := by
    rw [tryMerge, hlen hsize₁, hlen hsize₃, if_neg (by decide), FetchedIo.tryMerge,
      FetchedIo.canMerge, hlen hsize₁,
      hio hoff₁ hptr₁, hio hoff₃ hptr₃, if_pos (by simp)]
    rfl
  have hsecond : addFetched [p₁.io] p₂.io = [p₁.io, p₂.io] := by
    rw [addFetched, hapart]
    rfl
  have hrun : [.prepare p₁, .prepare p₂, .prepare p₃].foldlM Writer.step
      (Writer.init 8 1024 (fun _ => 0) fun _ => []) =
        some ⟨8, [⟨⟨0, p₁.data ++ p₃.data⟩, 4096⟩, p₂.io], init 1024 (fun _ => 0) fun _ => []⟩ := by
    rw [List.foldlM_cons, (step_block rfl (hoff₁.trans_le (by decide)) hsize₁).1,
      Option.bind_eq_bind, Option.bind_some,
      List.foldlM_cons, (step_block rfl hoff₂.le hsize₂).1, Option.bind_eq_bind, Option.bind_some,
      List.foldlM_cons, (step_block rfl hoff₃.le hsize₃).1, Option.bind_eq_bind, Option.bind_some]
    change some ({ (Writer.init 8 1024 (fun _ => 0) fun _ => []) with
      fetched := addFetched (addFetched [p₁.io] p₂.io) p₃.io } : Writer Nat) = _
    rw [hsecond, addFetched_join hjoin]
    rfl
  have hvalid : Accepted [(0, p₁.data ++ p₃.data), (512, p₂.data)] := by
    have h₁ := p₁.length_data
    have h₂ := p₂.length_data
    have h₃ := p₃.length_data
    refine List.forall_mem_cons.2 ⟨⟨?_, ?_, ?_⟩, List.forall_mem_singleton.2 ⟨?_, ?_, ?_⟩⟩ <;>
      simp only [Io.size, List.length_append, h₁, h₂, h₃, hsize₁, hsize₂, hsize₃] <;> decide
  obtain ⟨engine, hengine, S, hnil⟩ :=
    (Sound.init (le_refl 1024) (fun _ => 0) fun _ => []).waitForAll hvalid
  have hwait : Writer.waitForAll ⟨8, [⟨⟨0, p₁.data ++ p₃.data⟩, 4096⟩, p₂.io],
      init 1024 (fun _ => 0) fun _ => []⟩ =
        some ⟨8, [], engine⟩ := by
    rw [hio hoff₂ hptr₂]
    change Option.map _ ((init 1024 (fun _ => 0) fun _ => []).waitForAll [(0, p₁.data ++ p₃.data),
      (512, p₂.data)]) = _
    rw [hengine]
    rfl
  have hat := congrFun (h _ _ _ hrun hwait) 512
  rw [(S.drained hnil).2, accepted_cons, (step_block rfl (hoff₁.trans_le (by decide)) hsize₁).2,
    accepted_cons,
    (step_block rfl hoff₂.le hsize₂).2, (step_block rfl hoff₃.le hsize₃).2, hoff₂, hoff₃] at hat
  change (stretch 512 p₂.data 512).getD _ = (stretch 512 p₃.data 512).getD _ at hat
  rw [stretch, if_pos le_rfl, Nat.sub_self, hdata₂, stretch, if_pos le_rfl, Nat.sub_self, hdata₃,
    Option.getD_some, Option.getD_some] at hat
  exact absurd hat (by decide)

end

end WalbTools.BdevWriter
