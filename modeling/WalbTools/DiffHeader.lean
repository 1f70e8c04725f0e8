import WalbTools.Checksum
import WalbTools.Layout

namespace WalbTools.DiffHeader

open ByteMemory Layout Checksum
open Queue (calcChecksum)

def WALB_DIFF_VERSION : Nat := 2

def WALB_DIFF_TYPE_SORTED : Nat := 0

def WALB_DIFF_TYPE_INDEXED : Nat := 1

def UUID_SIZE : Nat := 16

/-- `walb_diff_file_header` but for its checksum. -/
structure DiffFileHeader where
  version : Nat
  type : Nat
  uuid : Bytes
  deriving DecidableEq

namespace DiffFileHeader

def size : Nat := 32

def zeroUuid : Bytes := List.replicate UUID_SIZE 0

def init : DiffFileHeader := ⟨WALB_DIFF_VERSION, WALB_DIFF_TYPE_SORTED, zeroUuid⟩

def setUuid (h : DiffFileHeader) (uuid : Bytes) : DiffFileHeader := { h with uuid := uuid }

def toBytes (h : DiffFileHeader) : Bytes :=
  sealed [] (layout [(2, h.version), (1, h.type), (1, 0), (4, 0), (4, 0)] ++ h.uuid)

def ofBytes (raw : Bytes) : DiffFileHeader :=
  match fields [4, 2, 1] raw with
  | [_, version, type] => ⟨version, type, (raw.drop 16).take UUID_SIZE⟩
  | _ => init

def verify (raw : Bytes) (h : DiffFileHeader) : Except String Unit :=
  if calcChecksum raw 0 ≠ 0 then .error "invalid checksum"
  else if h.version ≠ WALB_DIFF_VERSION then .error "invalid walb diff version"
  else .ok ()

def isIndexed (h : DiffFileHeader) : Except String Bool :=
  if h.type = WALB_DIFF_TYPE_SORTED then .ok false
  else if h.type = WALB_DIFF_TYPE_INDEXED then .ok true
  else .error "Invalid type"

def readFrom (file : Bytes) : Except String (DiffFileHeader × Bytes) :=
  if file.length < size then .error "EofError"
  else
    match verify (file.take size) (ofBytes (file.take size)) with
    | .error e => .error e
    | .ok () => .ok (ofBytes (file.take size), file.drop size)

/-- The fields have the widths of the file's, and the version is the current one. -/
structure Fits (h : DiffFileHeader) : Prop where
  version : h.version = WALB_DIFF_VERSION
  type : h.type < 2 ^ 8
  uuid : h.uuid.length = UUID_SIZE

variable {h : DiffFileHeader}

theorem length_toBytes (hfit : h.Fits) : h.toBytes.length = size := by
  rw [toBytes, length_sealed, List.length_append, length_layout, hfit.uuid]
  rfl

theorem verify_toBytes (hfit : h.Fits) : verify h.toBytes h = .ok () := by
  rw [verify, toBytes, calcChecksum_sealed rfl, if_neg (not_not.2 rfl), if_neg (not_not.2 hfit.version)]

theorem ofBytes_toBytes (hfit : h.Fits) : ofBytes h.toBytes = h := by
  obtain ⟨version, type, uuid⟩ := h
  have hv : version = WALB_DIFF_VERSION := hfit.version
  have ht : type < 2 ^ 8 := hfit.type
  have hu : uuid.length = UUID_SIZE := hfit.uuid
  generalize hc : calcChecksum (([] : Bytes) ++ toLE 4 0 ++
    (layout [(2, version), (1, type), (1, 0), (4, 0), (4, 0)] ++ uuid)) 0 = c
  have hclt : c < 256 ^ 4 := by
    rw [← hc]
    exact Queue.QueueFile.calcChecksum_lt _ _
  have hbytes : toBytes ⟨version, type, uuid⟩ =
      layout [(4, c), (2, version), (1, type)] ++ (layout [(1, 0), (4, 0), (4, 0)] ++ uuid) := by
    rw [toBytes, sealed, hc]
    simp only [layout_cons, List.append_assoc, List.nil_append]
    rfl
  have hfields : fields [4, 2, 1] (toBytes ⟨version, type, uuid⟩) = [c, version, type] := by
    rw [hbytes]
    apply fields_layout [(4, c), (2, version), (1, type)]
    simp only [Fit, List.forall_mem_cons]
    refine ⟨hclt, ?_, ht, fun _ hf => absurd hf List.not_mem_nil⟩
    rw [hv]
    decide
  have huuid : ((toBytes ⟨version, type, uuid⟩).drop 16).take UUID_SIZE = uuid := by
    rw [hbytes, ← List.append_assoc,
      List.drop_left' (by rw [List.length_append, length_layout, length_layout]; rfl)]
    exact List.take_of_length_le hu.le
  rw [ofBytes, hfields, huuid]

theorem readFrom_toBytes (hfit : h.Fits) (rest : Bytes) :
    readFrom (h.toBytes ++ rest) = .ok (h, rest) := by
  have hlen := length_toBytes hfit
  rw [readFrom, if_neg (by rw [List.length_append]; omega), List.take_left' hlen, List.drop_left' hlen,
    ofBytes_toBytes hfit, verify_toBytes hfit]

end DiffFileHeader

end WalbTools.DiffHeader
