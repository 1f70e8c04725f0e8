import WalbTools.Checksum
import WalbTools.LogPack
import WalbTools.Splice

namespace WalbTools.WdevLog

open ByteMemory Layout Splice Overlay
open DiffIo (lbs)
open Queue (calcChecksum)

def SECTOR_TYPE_SUPER : Nat := 1

def WALB_LOG_VERSION : Nat := 2

def INVALID_LSID : Nat := 2 ^ 64 - 1

def DISK_NAME_LEN : Nat := 32

def isValidPbs (pbs : Nat) : Bool := decide (lbs ≤ pbs) && decide (pbs % lbs = 0)

def widths : List Nat := [2, 2, 4, 4, 4, 4, 4, 16, DISK_NAME_LEN, 8, 8, 8, 8]

def namePos : Nat := 40

structure SuperBlock where
  pbs : Nat
  data : Bytes
  length_data : data.length = pbs

structure LogDevice where
  physicalBlockSize : Nat
  image : Nat → UInt8
  physicalBlockSize_lt : physicalBlockSize < 2 ^ 32

namespace SuperBlock

section

variable (pageSize : Nat)

def get1stSuperBlockOffsetStatic (pbs : Nat) : Nat := pageSize / pbs

def getRingBufferOffset (pbs : Nat) : Nat := get1stSuperBlockOffsetStatic pageSize pbs + 1 + 1

def field (s : SuperBlock) (i : Nat) : Nat := (fields widths s.data).getD i 0

def name (s : SuperBlock) : Bytes := (s.data.drop namePos).take DISK_NAME_LEN

def set (s : SuperBlock) (i v : Nat) : SuperBlock :=
  { s with data := setField widths 0 i v s.data, length_data := length_setField.trans s.length_data }

def setAll (s : SuperBlock) (l : List (Nat × Nat)) : SuperBlock := l.foldl (fun s p => s.set p.1 p.2) s

/-- `snprintf(super()->name, DISK_NAME_LEN, "%s", name.c_str())`, which stops at a zero of the
name. -/
def setName (s : SuperBlock) (name : Bytes) : SuperBlock :=
  { s with
    data := splice s.data namePos ((name.takeWhile (· ≠ 0)).take (DISK_NAME_LEN - 1) ++ [0])
    length_data := length_splice.trans s.length_data }

def updateChecksum (s : SuperBlock) : SuperBlock := (s.set 2 0).set 2 (calcChecksum (s.set 2 0).data 0)

/-- `is_valid_super_sector_raw`. The code divides by `logical_bs` without a look at it and dies
when that is zero; here such a sector does not pass. -/
def isValidSuperSectorRaw (s : SuperBlock) : Bool :=
  isValidPbs s.pbs && decide (s.field 0 = SECTOR_TYPE_SUPER) && decide (s.field 1 = WALB_LOG_VERSION) &&
    decide (s.field 4 = s.pbs) && decide (s.field 3 ≤ s.field 4) && decide (s.field 4 % s.field 3 = 0) &&
    decide (s.field 10 ≠ INVALID_LSID) && decide (s.field 11 ≠ INVALID_LSID) &&
      decide (s.field 10 ≤ s.field 11) &&
    s.name.any (· = 0)

def isValid (s : SuperBlock) (isChecksum : Bool) : Bool :=
  if s.isValidSuperSectorRaw = false then false
  else if isChecksum then true
  else decide (calcChecksum s.data 0 = 0)

theorem length_zeros {pbs : Nat} : (List.replicate pbs (0 : UInt8)).length = pbs := List.length_replicate

def init (pbs : Nat) : Except String SuperBlock :=
  if isValidPbs pbs then .ok ⟨pbs, List.replicate pbs 0, length_zeros⟩ else .error "init:invalid pbs"

/-- The fields that `format` sets. `uuid` and `salt` are the random numbers that the code draws. -/
def fill (s : SuperBlock) (ddevLb ldevLb : Nat) (name : Bytes) (uuid salt : Nat) : SuperBlock :=
  (s.setAll [(0, SECTOR_TYPE_SUPER), (1, WALB_LOG_VERSION), (3, lbs), (4, s.pbs), (5, 0), (7, uuid),
    (6, salt),
    (9, ldevLb / (s.pbs / lbs) + (2 ^ 64 - getRingBufferOffset pageSize s.pbs)), (10, 0), (11, 0),
    (12, ddevLb)]).setName name

/-- The exception for a block that is not valid is made but never thrown. -/
def format (pbs ddevLb ldevLb : Nat) (name : Bytes) (uuid salt : Nat) : Except String SuperBlock := do
  let s ← init pbs
  return s.fill pageSize ddevLb ldevLb name uuid salt

def load (dev : LogDevice) : SuperBlock where
  pbs := dev.physicalBlockSize
  data := slice dev.image (get1stSuperBlockOffsetStatic pageSize
    dev.physicalBlockSize * dev.physicalBlockSize)
    dev.physicalBlockSize
  length_data := length_slice

def read (dev : LogDevice) : Except String SuperBlock :=
  if isValidPbs dev.physicalBlockSize then
    if (load pageSize dev).isValid true then .ok (load pageSize dev)
      else .error "super block is invalid."
  else .error "init:invalid pbs"

def write (s : SuperBlock) (dev : LogDevice) : Except String LogDevice :=
  let s := s.updateChecksum
  if s.isValid true then
    .ok { dev with image := poke dev.image (get1stSuperBlockOffsetStatic pageSize s.pbs * s.pbs) s.data }
  else .error "super block is invalid."

end

section

variable {s : SuperBlock} {i v : Nat}

@[simp] theorem pbs_set : (s.set i v).pbs = s.pbs := rfl

@[simp] theorem pbs_setName (n : Bytes) : (s.setName n).pbs = s.pbs := rfl

@[simp] theorem pbs_updateChecksum : s.updateChecksum.pbs = s.pbs := rfl

theorem field_set (hi : i < widths.length) (hp : widths.sum ≤ s.pbs) (j : Nat) :
    (s.set i v).field j = if j = i then v % 256 ^ widths[i] else s.field j := by
  have hset : (fields widths ((setField widths 0 i v s.data).drop 0)).getD j 0 =
      if j = i then v % 256 ^ widths[i] else (fields widths (s.data.drop 0)).getD j 0 :=
    getD_fields_setField hi (by rw [s.length_data, Nat.zero_add]; exact hp) j
  exact hset

@[simp] theorem pbs_setAll (l : List (Nat × Nat)) : (s.setAll l).pbs = s.pbs := by
  induction l generalizing s with
  | nil => rfl
  | cons p l ih => exact ih

theorem field_setAll (l : List (Nat × Nat)) (hl : ∀ p ∈ l, p.1 < widths.length)
    (hp : widths.sum ≤ s.pbs) (j : Nat) :
    (s.setAll l).field j = ((l.reverse.find? fun p => p.1 = j).map fun p =>
      p.2 % 256 ^ widths.getD j 0).getD (s.field j) := by
  induction l generalizing s with
  | nil => rfl
  | cons p l ih =>
      obtain ⟨hi, hl⟩ := List.forall_mem_cons.1 hl
      change ((s.set p.1 p.2).setAll l).field j = _
      rw [ih hl (by rwa [pbs_set]), field_set hi hp, List.reverse_cons, List.find?_append]
      cases l.reverse.find? fun p => p.1 = j with
      | some q => rfl
      | none =>
          by_cases hj : j = p.1
          · subst hj
            rw [if_pos rfl, List.getD_eq_getElem widths 0 hi]
            simp
          · rw [if_neg hj]
            simp [Ne.symm hj]

theorem name_set (hi : i < widths.length) (hne : i ≠ 8) : (s.set i v).name = s.name := by
  refine take_drop_splice_of_disjoint ?_
  rw [length_toLE, List.getD_eq_getElem widths 0 hi, Nat.zero_add]
  revert hne
  revert i
  decide

theorem length_cname (n : Bytes) : ((n.takeWhile (· ≠ 0)).take (DISK_NAME_LEN - 1) ++ [0]).length ≤
    DISK_NAME_LEN := by
  rw [List.length_append, List.length_take, List.length_singleton]
  exact Nat.succ_le_of_lt (Nat.lt_of_le_of_lt (Nat.min_le_left _ _) (by decide))

theorem field_setName (hi : i < widths.length) (hne : i ≠ 8) (n : Bytes) :
    (s.setName n).field i = s.field i := by
  refine getD_fields_splice_of_disjoint hi ?_
  have hlen := length_cname n
  have happart : ∀ j (hj : j < widths.length), j ≠ 8 →
      (widths.take j).sum + widths[j] ≤ namePos ∨ namePos + DISK_NAME_LEN ≤
      (widths.take j).sum := by decide
  obtain hle | hle := happart i hi hne
  · exact .inl hle
  · exact .inr (by omega)

theorem name_setName (hp : widths.sum ≤ s.pbs) (n : Bytes) : (s.setName n).name.any (· = 0) = true := by
  have hlen := length_cname n
  have hread : ((s.setName n).data.drop namePos).take ((n.takeWhile (· ≠ 0)).take
      (DISK_NAME_LEN - 1) ++ [0]).length =
        (n.takeWhile (· ≠ 0)).take (DISK_NAME_LEN - 1) ++ [0] := by
    refine take_drop_splice ?_
    rw [s.length_data]
    refine (Nat.add_le_add_left hlen _).trans (le_trans ?_ hp)
    decide
  have hmem : (0 : UInt8) ∈ (s.setName n).name := by
    have hzero : (0 : UInt8) ∈ (n.takeWhile (· ≠ 0)).take (DISK_NAME_LEN - 1) ++ [0] :=
      List.mem_append_right _ List.mem_cons_self
    rw [← hread] at hzero
    exact List.take_subset_take_left _ hlen hzero
  exact List.any_eq_true.2 ⟨0, hmem, decide_eq_true rfl⟩

theorem calcChecksum_updateChecksum (hp : widths.sum ≤ s.pbs) :
    calcChecksum s.updateChecksum.data 0 = 0 :=
  Checksum.calcChecksum_setField (by decide) rfl (by decide) (by rw [s.length_data]; exact hp)

theorem field_updateChecksum (hp : widths.sum ≤ s.pbs) {j : Nat} (hj : j ≠ 2) :
    s.updateChecksum.field j = s.field j := by
  rw [updateChecksum, field_set (by decide) (by rwa [pbs_set]), if_neg hj, field_set (by decide) hp,
    if_neg hj]

theorem name_updateChecksum : s.updateChecksum.name = s.name := by
  rw [updateChecksum, name_set (by decide) (by decide), name_set (by decide) (by decide)]

theorem isValidSuperSectorRaw_updateChecksum (hp : widths.sum ≤ s.pbs) :
    s.updateChecksum.isValidSuperSectorRaw = s.isValidSuperSectorRaw := by
  rw [isValidSuperSectorRaw, isValidSuperSectorRaw, name_updateChecksum,
    field_updateChecksum hp (by decide),
    field_updateChecksum hp (by decide), field_updateChecksum hp (by decide),
    field_updateChecksum hp (by decide),
    field_updateChecksum hp (by decide), field_updateChecksum hp (by decide)]
  rfl

end

theorem widths_sum_le {pbs : Nat} (hb : isValidPbs pbs = true) : widths.sum ≤ pbs := by
  rw [isValidPbs, Bool.and_eq_true, decide_eq_true_eq] at hb
  exact le_trans (by decide) hb.1

section

variable {pageSize pbs ddevLb ldevLb uuid salt : Nat} {name : Bytes} {s : SuperBlock}

@[simp] theorem pbs_fill : (s.fill pageSize ddevLb ldevLb name uuid salt).pbs = s.pbs := by
  simp only [fill, pbs_setName, pbs_setAll]

theorem isValidSuperSectorRaw_fill (hb : isValidPbs s.pbs = true) (hlt : s.pbs < 2 ^ 32) :
    (s.fill pageSize ddevLb ldevLb name uuid salt).isValidSuperSectorRaw = true := by
  have hp := widths_sum_le hb
  have hname : (s.fill pageSize ddevLb ldevLb name uuid salt).name.any (· = 0) = true :=
    name_setName (by rwa [pbs_setAll]) name
  have hall := field_setAll (s := s) [(0, SECTOR_TYPE_SUPER), (1, WALB_LOG_VERSION), (3, lbs),
    (4, s.pbs), (5, 0), (7, uuid),
    (6, salt), (9, ldevLb / (s.pbs / lbs) + (2 ^ 64 - getRingBufferOffset pageSize s.pbs)), (10, 0),
    (11, 0), (12, ddevLb)]
    (fun p hp => (show ∀ k ∈ [0, 1, 3, 4, 5, 7, 6, 9, 10, 11, 12], k < widths.length by decide) p.1
      (List.mem_map_of_mem hp)) hp
  have hfield : ∀ j, j < widths.length → j ≠ 8 → (s.fill pageSize ddevLb ldevLb name uuid
      salt).field j = _ :=
    fun j hj hne => (field_setName hj hne name).trans (hall j)
  have htype : (s.fill pageSize ddevLb ldevLb name uuid salt).field 0 = SECTOR_TYPE_SUPER :=
    hfield 0 (by decide) (by decide)
  have hversion : (s.fill pageSize ddevLb ldevLb name uuid salt).field 1 = WALB_LOG_VERSION :=
    hfield 1 (by decide) (by decide)
  have hlogical : (s.fill pageSize ddevLb ldevLb name uuid salt).field 3 = lbs :=
    hfield 3 (by decide) (by decide)
  have hphysical : (s.fill pageSize ddevLb ldevLb name uuid salt).field 4 = s.pbs :=
    (hfield 4 (by decide) (by decide)).trans (Nat.mod_eq_of_lt hlt)
  have holdest : (s.fill pageSize ddevLb ldevLb name uuid salt).field 10 = 0 :=
    hfield 10 (by decide) (by decide)
  have hwritten : (s.fill pageSize ddevLb ldevLb name uuid salt).field 11 = 0 :=
    hfield 11 (by decide) (by decide)
  have hblock := hb
  rw [isValidPbs, Bool.and_eq_true, decide_eq_true_eq, decide_eq_true_eq] at hblock
  rw [isValidSuperSectorRaw, pbs_fill, hname, htype, hversion, hlogical, hphysical, holdest,
    hwritten, hb,
    decide_eq_true hblock.1, decide_eq_true hblock.2, decide_eq_true (Eq.refl s.pbs)]
  decide

theorem isValid_true : s.isValid true = s.isValidSuperSectorRaw := by
  rw [isValid]
  cases s.isValidSuperSectorRaw <;> rfl

theorem read_eq {dev : LogDevice} (h : (load pageSize dev).isValidSuperSectorRaw = true) :
    read pageSize dev = .ok (load pageSize dev) := by
  have hpbs : isValidPbs dev.physicalBlockSize = true := by
    simp only [isValidSuperSectorRaw, Bool.and_eq_true] at h
    exact h.1.1.1.1.1.1.1.1.1
  rw [read, if_pos hpbs, isValid_true, if_pos h]

theorem read_ok_iff {dev : LogDevice} : (∃ s, read pageSize dev = .ok s) ↔
    (load pageSize dev).isValidSuperSectorRaw = true := by
  refine ⟨fun ⟨s, hs⟩ => ?_, fun h => ⟨_, read_eq h⟩⟩
  rw [read, isValid_true] at hs
  split_ifs at hs with hpbs hraw
  exact hraw

theorem load_poke {dev : LogDevice} (hpbs : s.pbs = dev.physicalBlockSize) :
    load pageSize { dev with
      image := poke dev.image (get1stSuperBlockOffsetStatic pageSize s.pbs * s.pbs) s.data } =
        s := by
  obtain ⟨pbs, data, hlen⟩ := s
  subst hlen
  simp only [load, ← hpbs]
  congr 1
  exact slice_poke_self

theorem read_write_format {dev : LogDevice}
    (h : format pageSize dev.physicalBlockSize ddevLb ldevLb name uuid salt = .ok s) :
    widths.sum ≤ s.pbs ∧ ∃ dev', write pageSize s dev = .ok dev' ∧
      read pageSize dev' = .ok s.updateChecksum := by
  rw [format, init] at h
  by_cases hb : isValidPbs dev.physicalBlockSize = true
  · rw [if_pos hb] at h
    obtain ⟨hpbs, hraw⟩ : s.pbs = dev.physicalBlockSize ∧ s.isValidSuperSectorRaw = true := by
      cases h
      exact ⟨pbs_fill, isValidSuperSectorRaw_fill hb dev.physicalBlockSize_lt⟩
    have hp : widths.sum ≤ s.pbs := hpbs ▸ widths_sum_le hb
    have hupdated : s.updateChecksum.isValidSuperSectorRaw = true :=
      (isValidSuperSectorRaw_updateChecksum hp).trans hraw
    have hload : load pageSize { dev with image := poke dev.image _ s.updateChecksum.data } =
      s.updateChecksum := load_poke hpbs
    refine ⟨hp, _, by rw [write, isValid_true, if_pos hupdated], ?_⟩
    rw [read_eq (by rw [hload]; exact hupdated), hload]
  · rw [if_neg hb] at h
    cases h

/-- `read` looks at the structure alone, so it accepts exactly the good blocks when no block of
a good structure has a wrong checksum. -/
theorem accepts_good_iff (pageSize : Nat) (dev : LogDevice) :
    (((∃ s, read pageSize dev = .ok s) ↔
        (load pageSize dev).isValidSuperSectorRaw = true ∧ calcChecksum (load pageSize dev).data 0 = 0) ↔
      ((load pageSize dev).isValidSuperSectorRaw = true → calcChecksum (load pageSize dev).data 0 = 0)) ∧
    ∀ (ddevLb ldevLb : Nat) (name : Bytes) (uuid salt : Nat) (s : SuperBlock),
      format pageSize dev.physicalBlockSize ddevLb ldevLb name uuid salt = .ok s →
        ∃ dev' s', write pageSize s dev = .ok dev' ∧ read pageSize dev' = .ok s' ∧
          (∀ j, j ≠ 2 → s'.field j = s.field j) ∧ s'.name = s.name := by
  constructor
  · rw [read_ok_iff]
    exact ⟨fun h hraw => (h.1 hraw).2, fun h => ⟨fun hraw => ⟨hraw, h hraw⟩, And.left⟩⟩
  · intro ddevLb ldevLb name uuid salt s h
    obtain ⟨hp, dev', hwrite, hread⟩ := read_write_format h
    exact ⟨dev', _, hwrite, hread, fun j hj => field_updateChecksum hp hj, name_updateChecksum⟩

def unsealedDevice : LogDevice where
  physicalBlockSize := lbs
  image := fun a => if a = 4096 then 1 else if a = 4098 ∨ a = 4105 ∨ a = 4109 then 2 else 0
  physicalBlockSize_lt := by decide

theorem not_accepts_good : ¬ ∀ (pageSize : Nat) (dev : LogDevice), (∃ s, read pageSize dev = .ok s) ↔
    (load pageSize dev).isValidSuperSectorRaw = true ∧ calcChecksum (load pageSize dev).data 0 = 0 := by
  intro hall
  have hraw : (load 4096 unsealedDevice).isValidSuperSectorRaw = true := by decide +kernel
  have hchecksum : calcChecksum (load 4096 unsealedDevice).data 0 ≠ 0 := by decide +kernel
  exact hchecksum ((hall 4096 unsealedDevice).1 (read_ok_iff.2 hraw)).2

end

end SuperBlock

end WalbTools.WdevLog
