import WalbTools.Queue
import WalbTools.Splice

namespace WalbTools.Checksum

open ByteMemory Splice
open Queue (checksumPartial checksumFinish calcChecksum)

/-- The sum of the words of `data`, the last of which may be cut. -/
def wordSum : Bytes → Nat
  | b₀ :: b₁ :: b₂ :: b₃ :: data => ofLE [b₀, b₁, b₂, b₃] + wordSum data
  | data => ofLE data

def sealed (pre post : Bytes) : Bytes := pre ++ toLE 4 (calcChecksum (pre ++ toLE 4 0 ++ post) 0) ++ post

variable {pre post : Bytes}

theorem checksumPartial_eq (data : Bytes) {csum : Nat} (h : csum < 2 ^ 32) :
    checksumPartial data csum = (csum + wordSum data) % 2 ^ 32 := by
  induction data using wordSum.induct generalizing csum with
  | case1 b₀ b₁ b₂ b₃ data ih =>
      rw [checksumPartial, ih (Nat.mod_lt _ (by decide)), wordSum]
      omega
  | case2 data hshort =>
      rw [wordSum]
      · cases data with
        | nil => exact (Nat.mod_eq_of_lt h).symm
        | cons b data =>
            rw [checksumPartial]
            · exact hshort
            · exact List.cons_ne_nil b data
      · exact hshort

theorem wordSum_append (rest : Bytes) (h : pre.length % 4 = 0) :
    wordSum (pre ++ rest) = wordSum pre + wordSum rest := by
  induction pre using wordSum.induct with
  | case1 b₀ b₁ b₂ b₃ data ih =>
      rw [List.cons_append, List.cons_append, List.cons_append, List.cons_append, wordSum, ih,
        wordSum, Nat.add_assoc]
      simp only [List.length_cons] at h
      omega
  | case2 data hshort =>
      match data, hshort, h with
      | [], _, _ => exact (Nat.zero_add _).symm
      | b₀ :: b₁ :: b₂ :: b₃ :: data, hshort, _ => exact absurd rfl (hshort b₀ b₁ b₂ b₃ data)

theorem wordSum_toLE (n : Nat) (rest : Bytes) :
    wordSum (toLE 4 n ++ rest) = n % 2 ^ 32 + wordSum rest := by
  have hword : ofLE (toLE 4 n) = n % 2 ^ 32 := ofLE_toLE 4 n
  rw [← hword]
  rfl

theorem calcChecksum_sealed (h : pre.length % 4 = 0) : calcChecksum (sealed pre post) 0 = 0 := by
  have hzero := checksumPartial_eq (pre ++ toLE 4 0 ++ post) (show 0 < 2 ^ 32 by decide)
  rw [List.append_assoc, wordSum_append _ h, wordSum_toLE] at hzero
  rw [sealed, calcChecksum, calcChecksum, checksumPartial_eq _ (by decide), List.append_assoc,
    List.append_assoc,
    wordSum_append _ h, wordSum_toLE, hzero]
  simp only [checksumFinish]
  omega

theorem length_sealed : (sealed pre post).length = pre.length + 4 + post.length := by
  rw [sealed, List.length_append, List.length_append, length_toLE]

/-- A field that takes the checksum of the block in which it is zero makes that of the block
zero. -/
theorem calcChecksum_setField {ws : List Nat} {i : Nat} {data : Bytes} (hi : i < ws.length)
    (hwidth : ws[i] = 4)
    (hpos : (ws.take i).sum % 4 = 0) (hlen : ws.sum ≤ data.length) :
    calcChecksum (setField ws 0 i (calcChecksum (setField ws 0 i 0 data) 0)
      (setField ws 0 i 0 data)) 0 = 0 := by
  have hend : (ws.take i).sum + 4 ≤ data.length := by
    have hle := sum_take_add_le hi hi
    rw [List.take_length] at hle
    omega
  have hset : ∀ (t : Bytes) c, t.length = data.length →
      setField ws 0 i c t = t.take (ws.take i).sum ++ toLE 4 c ++ t.drop ((ws.take i).sum + 4) :=
        fun t c ht => by
    rw [setField, Nat.zero_add, List.getD_eq_getElem ws 0 hi, hwidth,
      splice_eq_append (by rw [length_toLE, ht]; exact hend),
      length_toLE]
  have htake : (data.take (ws.take i).sum).length = (ws.take i).sum := List.length_take_of_le (by omega)
  have hpre : (setField ws 0 i 0 data).take (ws.take i).sum = data.take (ws.take i).sum := by
    rw [hset data 0 rfl, List.append_assoc, List.take_left' htake]
  have hpost : (setField ws 0 i 0 data).drop ((ws.take i).sum + 4) =
      data.drop ((ws.take i).sum + 4) := by
    rw [hset data 0 rfl]
    exact List.drop_left' (by rw [List.length_append, htake, length_toLE])
  rw [hset (setField ws 0 i 0 data) _ length_setField, hpre, hpost, hset data 0 rfl]
  exact calcChecksum_sealed (by rw [htake]; exact hpos)

end WalbTools.Checksum
