import WalbTools.DiffPack

namespace WalbTools.Compression

open ByteMemory DiffIo DiffPack
open Queue (calcChecksum)

def calcDiffIoChecksum (io : Bytes) : Nat := if io = [] then 0 else calcChecksum io 0

/-- The compression libraries by compression type; `compress` also takes the level
and may decline. -/
structure Codecs where
  compress : Nat → Nat → Bytes → Option Bytes
  uncompress : Nat → Bytes → Option Bytes

structure Codecs.Lawful (Z : Codecs) : Prop where
  uncompress_compress : ∀ t l b e, Z.compress t l b = some e → Z.uncompress t e = some b
  ne_nil : ∀ t l b e, Z.compress t l b = some e → e ≠ []

/-- No library is there: nothing is compressed. -/
def Codecs.declining : Codecs := ⟨fun _ _ _ => none, fun _ e => some e⟩

theorem Codecs.lawful_declining : Codecs.declining.Lawful := ⟨nofun, nofun⟩

section

variable (Z : Codecs)

/-- The compression type that was used, and the output. `WALB_DIFF_CMPR_NONE` copies. -/
def compressData (inData : Bytes) (type level : Nat) : Nat × Bytes :=
  if type = WALB_DIFF_CMPR_NONE then (WALB_DIFF_CMPR_NONE, inData)
  else
    match Z.compress type level inData with
    | some enc => if enc.length < inData.length then (type, enc) else (WALB_DIFF_CMPR_NONE, inData)
    | none => (WALB_DIFF_CMPR_NONE, inData)

def uncompressData (inData : Bytes) (outSize type : Nat) : Except String Bytes :=
  if type = WALB_DIFF_CMPR_NONE then
    if inData.length = outSize then .ok inData else .error "uncompressData:size is invalid"
  else
    match Z.uncompress type inData with
    | none => .error "uncompress"
    | some out => if out.length = outSize then .ok out else .error "uncompressData:size is invalid"

end

variable {Z : Codecs}

structure Compressed (Z : Codecs) (type : Nat) (inData : Bytes) (t : Nat) (out : Bytes) : Prop where
  type_eq : t = type ∨ t = WALB_DIFF_CMPR_NONE
  length_le : out.length ≤ inData.length
  pos : inData ≠ [] → out ≠ []
  uncompress : uncompressData Z out inData.length t = .ok inData

theorem compressed_self (type : Nat) (inData : Bytes) :
    Compressed Z type inData WALB_DIFF_CMPR_NONE inData where
  type_eq := .inr rfl
  length_le := le_rfl
  pos := id
  uncompress := by rw [uncompressData, if_pos rfl, if_pos rfl]

theorem compressData_spec (hZ : Z.Lawful) (inData : Bytes) (type level : Nat) :
    Compressed Z type inData (compressData Z inData type level).1
      (compressData Z inData type level).2 := by
  rw [compressData]
  split_ifs with ht
  · exact compressed_self type inData
  · cases henc : Z.compress type level inData with
    | none => exact compressed_self type inData
    | some enc =>
        dsimp only
        split_ifs with hlt
        · refine ⟨.inl rfl, hlt.le, fun _ => hZ.ne_nil _ _ _ _ henc, ?_⟩
          rw [uncompressData, if_neg ht, hZ.uncompress_compress _ _ _ _ henc]
          exact if_pos rfl
        · exact compressed_self type inData

end WalbTools.Compression
