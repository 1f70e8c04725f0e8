import WalbTools.ByteMemory

namespace WalbTools.Layout

open ByteMemory

def layout (fs : List (Nat × Nat)) : Bytes := fs.flatMap fun f => toLE f.1 f.2

def fields : List Nat → Bytes → List Nat
  | [], _ => []
  | w :: ws, bytes => ofLE (bytes.take w) :: fields ws (bytes.drop w)

def Fit (fs : List (Nat × Nat)) : Prop := ∀ f, f ∈ fs → f.2 < 256 ^ f.1

variable {fs gs : List (Nat × Nat)}

theorem layout_cons (f : Nat × Nat) : layout (f :: fs) = toLE f.1 f.2 ++ layout fs := List.flatMap_cons

theorem layout_append : layout (fs ++ gs) = layout fs ++ layout gs := List.flatMap_append

theorem length_layout : (layout fs).length = (fs.map Prod.fst).sum := by
  induction fs with
  | nil => rfl
  | cons f fs ih => rw [layout_cons, List.length_append, length_toLE, ih, List.map_cons, List.sum_cons]

theorem fields_layout (fs : List (Nat × Nat)) (h : Fit fs) (rest : Bytes) :
    fields (fs.map Prod.fst) (layout fs ++ rest) = fs.map Prod.snd := by
  induction fs with
  | nil => rfl
  | cons f fs ih =>
      obtain ⟨hf, hfs⟩ := List.forall_mem_cons.1 h
      have hlen := length_toLE f.1 f.2
      rw [layout_cons, List.append_assoc, List.map_cons, fields, List.take_append_of_le_length hlen.ge,
        List.take_of_length_le hlen.le, ofLE_toLE_of_lt hf, List.drop_append_of_le_length hlen.ge,
        List.drop_of_length_le hlen.le, List.nil_append, ih hfs, List.map_cons]

end WalbTools.Layout
