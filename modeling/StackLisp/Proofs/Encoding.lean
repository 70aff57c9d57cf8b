import StackLisp.Instruction

/-! Decoding undoes the encoding of instructions that fit, at every offset and in front of any other
code. -/
namespace StackLisp

namespace Opcode

theorem number_lt (op : Opcode) : op.number < 88 := by
  cases op with
  | wide f => cases f <;> decide
  | compact f i => cases f <;> simp only [number, Family.number] <;> omega
  | _ => decide

theorem ofNumber?_number (op : Opcode) : ofNumber? op.number = some op := by
  cases op with
  | wide f => cases f <;> rfl
  | compact f i =>
    revert i
    cases f <;> decide
  | _ => rfl

theorem operandCount_le (op : Opcode) : op.operandCount ≤ 2 := by
  cases op with
  | wide f => cases f <;> decide
  | compact f i => cases f <;> simp [operandCount, Family.extraOperands]
  | _ => decide

/-- The push form of a load has as many operands and is none of the codes that move control. -/
theorem pushForm_spec {op op' : Opcode} (h : op.pushForm = some op') :
    op'.operandCount = op.operandCount ∧ op.isJump = false ∧ op'.isJump = false := by
  cases op with
  | wide f => cases f <;> simp_all [pushForm, Family.pushForm] <;> subst h <;> decide
  | compact f i =>
    cases f <;> simp_all [pushForm, Family.pushForm] <;> subst h <;>
      simp [operandCount, Family.extraOperands, isJump]
  | _ => simp_all [pushForm] <;> subst h <;> decide

end Opcode

namespace Instruction

/-- Instructions one behind the other, the first at the given offset. -/
def placeFrom (offset : Nat) : List Instruction → List Placed
  | [] => []
  | i :: rest => ⟨offset, i⟩ :: placeFrom (offset + i.size) rest

/-- The number of bytes of a piece of code. -/
def totalSize : List Instruction → Nat
  | [] => 0
  | i :: rest => i.size + totalSize rest

@[simp] theorem totalSize_nil : totalSize [] = 0 := rfl

@[simp] theorem totalSize_cons (i : Instruction) (is : List Instruction) :
    totalSize (i :: is) = i.size + totalSize is := rfl

@[simp] theorem totalSize_append (is js : List Instruction) :
    totalSize (is ++ js) = totalSize is + totalSize js := by
  induction is with
  | nil => simp
  | cons i is ih => simp [ih, Nat.add_assoc]

theorem size_pos (i : Instruction) : 0 < i.size := by
  unfold size
  omega

@[simp] theorem length_bytes (i : Instruction) : i.bytes.length = i.size := by
  simp [bytes, size, Nat.add_comm]

@[simp] theorem length_encode (is : List Instruction) : (encode is).length = totalSize is := by
  induction is with
  | nil => rfl
  | cons i is ih => simp_all [encode]

@[simp] theorem placeFrom_append (offset : Nat) (is js : List Instruction) :
    placeFrom offset (is ++ js) = placeFrom offset is ++ placeFrom (offset + totalSize is) js := by
  induction is generalizing offset with
  | nil => rfl
  | cons i is ih => simp [placeFrom, ih, Nat.add_assoc]

theorem map_instr_placeFrom (offset : Nat) (is : List Instruction) :
    (placeFrom offset is).map Placed.instr = is := by
  induction is generalizing offset with
  | nil => rfl
  | cons i is ih => rw [placeFrom, List.map_cons, ih]

theorem mem_placeFrom_bounds {offset : Nat} {is : List Instruction} {p : Placed}
    (h : p ∈ placeFrom offset is) :
    offset ≤ p.offset ∧ p.offset + p.instr.size ≤ offset + totalSize is := by
  induction is generalizing offset with
  | nil => simp [placeFrom] at h
  | cons i is ih =>
    simp only [placeFrom, List.mem_cons] at h
    rcases h with rfl | h
    · simp only [totalSize_cons]
      omega
    · have bounds := ih h
      simp only [totalSize_cons]
      omega

theorem instr_mem_of_placed {offset : Nat} {is : List Instruction} {p : Placed}
    (h : p ∈ placeFrom offset is) : p.instr ∈ is := by
  have hmap := List.mem_map_of_mem (f := Placed.instr) h
  rwa [map_instr_placeFrom] at hmap

@[simp] theorem getLast?_placeFrom (offset : Nat) (is : List Instruction) :
    (placeFrom offset is).getLast?.map Placed.instr = is.getLast? := by
  rcases List.eq_nil_or_concat is with rfl | ⟨init, i, rfl⟩
  · rfl
  · simp [placeFrom]

/-- What follows an instruction that fits does not matter for decoding it. -/
theorem decodeFrom_bytes {i : Instruction} (h : i.Fits) (offset : Nat) (rest : Bytes) :
    decodeFrom offset (i.bytes ++ rest) =
      (⟨offset, i⟩ :: (decodeFrom (offset + i.size) rest).1,
        (decodeFrom (offset + i.size) rest).2) := by
  obtain ⟨op, operands⟩ := i
  obtain ⟨hlen, hbyte⟩ := h
  have hop : Opcode.ofNumber? op.number.toUInt8.toNat = some op := by
    have hlt : op.number < 256 := Nat.lt_trans op.number_lt (by decide)
    rw [show op.number.toUInt8.toNat = op.number from by simpa using hlt]
    exact op.ofNumber?_number
  have hle := op.operandCount_le
  simp only [bytes, List.cons_append]
  rw [decodeFrom]
  simp only [hop]
  match operands, hlen, hbyte with
  | [], hlen, _ =>
    simp only [List.length_nil] at hlen
    simp [← hlen, size]
  | [x], hlen, hbyte =>
    simp only [List.length_cons, List.length_nil] at hlen
    have hx : x < 256 := hbyte x (by simp)
    simp [← hlen, size, Nat.mod_eq_of_lt hx]
  | [x, y], hlen, hbyte =>
    simp only [List.length_cons, List.length_nil] at hlen
    have hx : x < 256 := hbyte x (by simp)
    have hy : y < 256 := hbyte y (by simp)
    simp [← hlen, size, Nat.mod_eq_of_lt hx, Nat.mod_eq_of_lt hy]
  | _ :: _ :: _ :: _, hlen, _ =>
    simp only [List.length_cons] at hlen
    omega

theorem decodeFrom_encode {is : List Instruction} (h : ∀ i ∈ is, i.Fits) (offset : Nat)
    (rest : Bytes) :
    decodeFrom offset (encode is ++ rest) =
      (placeFrom offset is ++ (decodeFrom (offset + totalSize is) rest).1,
        (decodeFrom (offset + totalSize is) rest).2) := by
  induction is generalizing offset with
  | nil => simp [encode, placeFrom]
  | cons i is ih =>
    have hi : i.Fits := h i (by simp)
    have his := ih (fun j hj => h j (by simp [hj])) (offset + i.size)
    have hcons : encode (i :: is) ++ rest = i.bytes ++ (encode is ++ rest) := by
      simp [encode]
    rw [hcons, decodeFrom_bytes hi, his]
    simp [placeFrom, Nat.add_assoc]

/-- Code that was put together from instructions that fit splits into them. -/
theorem decodeFrom_zero_encode {is : List Instruction} (h : ∀ i ∈ is, i.Fits) :
    decodeFrom 0 (encode is) = (placeFrom 0 is, none) := by
  have hd := decodeFrom_encode h 0 []
  simp only [List.append_nil, decodeFrom] at hd
  exact hd

theorem decode_encode {is : List Instruction} (h : ∀ i ∈ is, i.Fits) :
    decode (encode is) = .ok (placeFrom 0 is) := by
  rw [decode, decodeFrom_zero_encode h]

end Instruction
end StackLisp
