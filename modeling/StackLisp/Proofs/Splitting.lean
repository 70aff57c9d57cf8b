import StackLisp.Instruction.Walk
import StackLisp.Proofs.Encoding

/-! Code as a row of instructions. Every byte sequence begins with complete instructions and then
ends, or goes on with a byte where no instruction can start. Decoding undoes encoding on the
sequences of the first kind and is refused on the others, and a walk through code meets the complete
instructions in both cases. -/
namespace StackLisp

theorem Opcode.number_of_ofNumber? {n : Nat} {op : Opcode} (h : ofNumber? n = some op) :
    op.number = n := by
  have hsmall : ∀ m < 88, (ofNumber? m).all (fun op => op.number = m) = true := by decide
  by_cases hn : n < 88
  · have hnumber := hsmall n hn
    rw [h] at hnumber
    simpa using hnumber
  · -- there are no codes above the plain ones
    have hnone : ofNumber? n = none := by
      unfold ofNumber?
      rw [if_neg (by omega), if_neg (by omega)]
      apply List.getElem?_eq_none
      have hlength : plain.length = 24 := rfl
      omega
    rw [hnone] at h
    cases h

namespace Instruction

/-- Why no instruction starts the given bytes, which stand at the offset `n`: the first byte is no
operation code, or it has too few operands. -/
inductive Blocked (n : Nat) : Bytes → DecodeFault → Prop where
  | unknown {b : UInt8} {rest : Bytes} : Opcode.ofNumber? b.toNat = none →
      Blocked n (b :: rest) (.unknown b.toNat n)
  | truncated {b : UInt8} {op : Opcode} {rest : Bytes} : Opcode.ofNumber? b.toNat = some op →
      rest.length < op.operandCount → Blocked n (b :: rest) (.truncated op n)

/-- The offset of code lies behind complete instructions. -/
def Boundary (code : Bytes) (n : Nat) : Prop :=
  ∃ is, (∀ i ∈ is, i.Fits) ∧ encode is <+: code ∧ totalSize is = n

/-- Each instruction starts behind those before it, the first at `n`. -/
def Adjacent (n : Nat) (ps : List Placed) : Prop :=
  ∀ front p back, ps = front ++ p :: back → p.offset = n + totalSize (front.map Placed.instr)

variable {n : Nat} {code rest : Bytes} {fault : DecodeFault} {i : Instruction}
  {is : List Instruction} {ps : List Placed}

/-! ### Offsets -/

theorem adjacent_placeFrom (n : Nat) (is : List Instruction) : Adjacent n (placeFrom n is) := by
  intro front p back h
  induction is generalizing n front with
  | nil =>
    have hlength := congrArg List.length h
    rw [List.length_append, List.length_cons] at hlength
    cases hlength
  | cons i is ih =>
    rw [placeFrom] at h
    cases front with
    | nil =>
      cases h
      rfl
    | cons q front =>
      rw [List.cons_append, List.cons.injEq] at h
      obtain ⟨rfl, htail⟩ := h
      have hoffset := ih (n + i.size) front htail
      rw [hoffset, List.map_cons, totalSize_cons, Nat.add_assoc]

/-- Instructions that start one behind the other are placed so. -/
theorem Adjacent.eq_placeFrom (h : Adjacent n ps) : ps = placeFrom n (ps.map Placed.instr) := by
  induction ps generalizing n with
  | nil => rfl
  | cons p ps ih =>
    have hfirst : p.offset = n := h [] p ps rfl
    have hrest : Adjacent (n + p.instr.size) ps := by
      intro front q back hps
      have hoffset := h (p :: front) q back (by rw [hps, List.cons_append])
      rw [hoffset, List.map_cons, totalSize_cons, Nat.add_assoc]
    rw [List.map_cons, placeFrom, ← ih hrest, ← hfirst]

/-! ### Every byte sequence is a row of instructions and a rest -/

/-- The instruction of a code whose operands are there. -/
theorem exists_bytes {b : UInt8} {op : Opcode} (hop : Opcode.ofNumber? b.toNat = some op)
    (hrest : op.operandCount ≤ rest.length) :
    ∃ (i : Instruction) (left : Bytes), i.Fits ∧ b :: rest = i.bytes ++ left := by
  refine ⟨⟨op, (rest.take op.operandCount).map UInt8.toNat⟩, rest.drop op.operandCount, ⟨?_, ?_⟩,
    ?_⟩
  · rw [List.length_map, List.length_take, Nat.min_eq_left hrest]
  · intro o ho
    obtain ⟨c, -, rfl⟩ := List.mem_map.1 ho
    exact c.toNat_lt
  · have hcode : b.toNat.toUInt8 = b := UInt8.ofNat_toNat
    have hback : ∀ bs : Bytes, (bs.map UInt8.toNat).map Nat.toUInt8 = bs := by
      intro bs
      rw [List.map_map]
      exact (List.map_congr_left fun c _ => UInt8.ofNat_toNat).trans (List.map_id bs)
    rw [bytes, Opcode.number_of_ofNumber? hop, hcode, hback, List.cons_append,
      List.take_append_drop]

theorem first_instruction (code : Bytes) : code = [] ∨
    (∃ (i : Instruction) (left : Bytes), i.Fits ∧ code = i.bytes ++ left) ∨
      ∀ n, ∃ fault, Blocked n code fault := by
  cases code with
  | nil => exact .inl rfl
  | cons b rest =>
    cases hop : Opcode.ofNumber? b.toNat with
    | none => exact .inr (.inr fun n => ⟨_, .unknown hop⟩)
    | some op =>
      by_cases hrest : op.operandCount ≤ rest.length
      · exact .inr (.inl (exists_bytes hop hrest))
      · exact .inr (.inr fun n => ⟨_, .truncated hop (Nat.lt_of_not_le hrest)⟩)

/-- Complete instructions can be split off until nothing is left or none starts. -/
theorem exists_split (code : Bytes) : ∃ is rest, (∀ i ∈ is, i.Fits) ∧ code = encode is ++ rest ∧
    (rest = [] ∨ ∀ n, ∃ fault, Blocked n rest fault) := by
  induction hlength : code.length using Nat.strongRecOn generalizing code with
  | ind m ih =>
    rcases first_instruction code with hnil | ⟨i, left, hi, hcode⟩ | hblocked
    · exact ⟨[], code, List.forall_mem_nil _, rfl, .inl hnil⟩
    · have hshorter : left.length < m := by
        have hpos := i.size_pos
        rw [← hlength, hcode, List.length_append, length_bytes]
        omega
      obtain ⟨is, rest, his, hleft, hrest⟩ := ih left.length hshorter left rfl
      refine ⟨i :: is, rest, List.forall_mem_cons.2 ⟨hi, his⟩, ?_, hrest⟩
      have hencode : encode (i :: is) = i.bytes ++ encode is := List.flatMap_cons
      rw [hcode, hleft, hencode, List.append_assoc]
    · exact ⟨[], code, List.forall_mem_nil _, rfl, .inr hblocked⟩

/-! ### Decoding -/

theorem Blocked.decodeFrom_eq (h : Blocked n code fault) :
    decodeFrom n code = ([], some fault) := by
  cases h with
  | unknown hop =>
    rw [decodeFrom]
    simp only [hop]
  | @truncated b op rest hop hfew =>
    rw [decodeFrom]
    simp only [hop]
    have hcount := op.operandCount_le
    split
    · next hzero => omega
    · next hone => rw [List.length_cons, hone] at hfew; omega
    · next htwo => rw [List.length_cons, List.length_cons, htwo] at hfew; omega
    · rfl

theorem decode_blocked (his : ∀ i ∈ is, i.Fits) (h : Blocked (totalSize is) rest fault) :
    decode (encode is ++ rest) = .error fault := by
  have hd := decodeFrom_encode his 0 rest
  rw [Nat.zero_add, h.decodeFrom_eq] at hd
  rw [decode, hd]

/-- Only encoded instructions can be decoded. -/
theorem exists_encode_of_decode (h : decode code = .ok ps) :
    ∃ is, (∀ i ∈ is, i.Fits) ∧ encode is = code ∧ placeFrom 0 is = ps := by
  obtain ⟨is, rest, his, rfl, hend | hblocked⟩ := exists_split code
  · rw [hend, List.append_nil, decode_encode his] at h
    cases h
    exact ⟨is, his, by rw [hend, List.append_nil], rfl⟩
  · obtain ⟨fault, hfault⟩ := hblocked (totalSize is)
    rw [decode_blocked his hfault] at h
    cases h

theorem decode_eq_ok_iff : decode code = .ok ps ↔
    (∀ p ∈ ps, p.instr.Fits) ∧ encode (ps.map Placed.instr) = code ∧ Adjacent 0 ps := by
  constructor
  · intro h
    obtain ⟨is, his, rfl, rfl⟩ := exists_encode_of_decode h
    rw [map_instr_placeFrom]
    exact ⟨fun p hp => his _ (instr_mem_of_placed hp), rfl, adjacent_placeFrom 0 is⟩
  · rintro ⟨hfits, hcode, hadjacent⟩
    have hfits' : ∀ i ∈ ps.map Placed.instr, i.Fits := by
      intro i hi
      obtain ⟨p, hp, rfl⟩ := List.mem_map.1 hi
      exact hfits p hp
    rw [← hcode, decode_encode hfits', ← hadjacent.eq_placeFrom]

theorem decode_eq_error_iff : decode code = .error fault ↔
    ∃ n, Boundary code n ∧ Blocked n (code.drop n) fault := by
  constructor
  · intro h
    obtain ⟨is, rest, his, rfl, hend | hblocked⟩ := exists_split code
    · rw [hend, List.append_nil, decode_encode his] at h
      cases h
    · obtain ⟨fault', hfault⟩ := hblocked (totalSize is)
      rw [decode_blocked his hfault] at h
      cases h
      refine ⟨totalSize is, ⟨is, his, List.prefix_append _ _, rfl⟩, ?_⟩
      rwa [← length_encode, List.drop_left, length_encode]
  · rintro ⟨n, ⟨is, his, ⟨rest, rfl⟩, rfl⟩, hblocked⟩
    rw [← length_encode, List.drop_left, length_encode] at hblocked
    exact decode_blocked his hblocked

/-! ### Walking -/

theorem startingAt?_bytes {front : Bytes} (h : i.Fits) (hn : n = front.length) (rest : Bytes) :
    startingAt? (front ++ (i.bytes ++ rest)) n = some ⟨n, i⟩ := by
  obtain ⟨op, operands⟩ := i
  obtain ⟨hcount, hbyte⟩ := h
  have hop : Opcode.ofNumber? op.number.toUInt8.toNat = some op := by
    have hlt : op.number < 256 := Nat.lt_trans op.number_lt (by decide)
    have hnumber : op.number.toUInt8.toNat = op.number := by simpa using hlt
    rw [hnumber]
    exact op.ofNumber?_number
  have hoperands : (operands.map Nat.toUInt8).map UInt8.toNat = operands := by
    rw [List.map_map]
    refine (List.map_congr_left fun o ho => ?_).trans (List.map_id operands)
    exact UInt8.toNat_ofNat_of_lt (hbyte o ho)
  have hlength : (operands.map Nat.toUInt8).length = op.operandCount := by
    rw [List.length_map]
    exact hcount
  unfold startingAt?
  rw [hn, List.drop_left, bytes, List.cons_append]
  simp only [hop]
  rw [if_pos (by rw [List.length_append]; omega), ← hlength, List.take_left, hoperands]

theorem Blocked.startingAt?_eq (h : Blocked n (code.drop n) fault) : startingAt? code n = none := by
  unfold startingAt?
  generalize code.drop n = left at h
  cases h with
  | unknown hop => simp only [hop]
  | truncated hop hfew =>
    simp only [hop]
    exact if_neg (Nat.not_le_of_lt hfew)

theorem walkFrom_none (h : startingAt? code n = none) : walkFrom code n = [] := by
  rw [walkFrom]
  split
  · rfl
  · next hsome => cases h.symm.trans hsome

theorem walkFrom_some {p : Placed} (h : startingAt? code n = some p) :
    walkFrom code n = p :: walkFrom code (n + p.instr.size) := by
  rw [walkFrom]
  split
  · next hnone => cases h.symm.trans hnone
  · next hsome =>
    cases h.symm.trans hsome
    rfl

/-- The walk goes through instructions that are complete, whatever stands around them. -/
theorem walkFrom_encode {front : Bytes} (his : ∀ i ∈ is, i.Fits) (hn : n = front.length)
    (rest : Bytes) : walkFrom (front ++ (encode is ++ rest)) n =
      placeFrom n is ++ walkFrom (front ++ (encode is ++ rest)) (n + totalSize is) := by
  induction is generalizing front n with
  | nil => rfl
  | cons i is ih =>
    obtain ⟨hi, his⟩ := List.forall_mem_cons.1 his
    have hcode : front ++ (encode (i :: is) ++ rest) =
        front ++ (i.bytes ++ (encode is ++ rest)) := by
      rw [encode, List.flatMap_cons, List.append_assoc]
      rfl
    have hnext : n + i.size = (front ++ i.bytes).length := by
      rw [List.length_append, length_bytes, hn]
    have hrest := ih his hnext
    rw [List.append_assoc, ← hcode] at hrest
    rw [hcode, walkFrom_some (startingAt?_bytes hi hn _), ← hcode, hrest, placeFrom,
      totalSize_cons, Nat.add_assoc, List.cons_append]

/-- What a walk meets are the complete instructions before the end or the first fault. -/
theorem walk_eq (his : ∀ i ∈ is, i.Fits)
    (hrest : rest = [] ∨ ∀ n, ∃ fault, Blocked n rest fault) :
    walk (encode is ++ rest) = placeFrom 0 is := by
  have hwalk := walkFrom_encode his List.length_nil.symm rest
  have hdrop : (encode is ++ rest).drop (totalSize is) = rest := by
    rw [← length_encode, List.drop_left]
  have hstop : startingAt? (encode is ++ rest) (totalSize is) = none := by
    rcases hrest with rfl | hblocked
    · unfold startingAt?
      rw [hdrop]
    · obtain ⟨fault, hfault⟩ := hblocked (totalSize is)
      rw [← hdrop] at hfault
      exact hfault.startingAt?_eq
  rw [List.nil_append, Nat.zero_add, walkFrom_none hstop, List.append_nil] at hwalk
  exact hwalk

/-- Complete instructions at the start of code are the first that a walk meets. -/
theorem prefix_walk (his : ∀ i ∈ is, i.Fits) (h : encode is <+: code) :
    placeFrom 0 is <+: walk code := by
  obtain ⟨rest, rfl⟩ := h
  have hwalk := walkFrom_encode his List.length_nil.symm rest
  rw [List.nil_append] at hwalk
  exact ⟨_, hwalk.symm⟩

/-- How a byte sequence splits into instructions. -/
structure Splits (code : Bytes) : Prop where
  /-- Decoding succeeds with the instructions whose bytes make up the sequence, each with its
  operands and at the offset behind those before it. -/
  inverse : ∀ ps, decode code = .ok ps ↔
    (∀ p ∈ ps, p.instr.Fits) ∧ encode (ps.map Placed.instr) = code ∧ Adjacent 0 ps
  /-- All instructions with their operands can be decoded from their bytes. -/
  encoded : ∀ is, (∀ i ∈ is, i.Fits) → encode is = code →
    ∃ ps, decode code = .ok ps ∧ ps.map Placed.instr = is ∧ Adjacent 0 ps
  /-- Decoding fails exactly at an offset behind complete instructions where none starts. -/
  refused : ∀ fault, decode code = .error fault ↔
    ∃ n, Boundary code n ∧ Blocked n (code.drop n) fault
  /-- A walk meets the instructions of the longest part at the front that can be decoded. -/
  longest : ∃ front, front <+: code ∧ decode front = .ok (walk code) ∧
    ∀ part ps, part <+: code → decode part = .ok ps → part <+: front ∧ ps <+: walk code
  complete : ∀ ps, decode code = .ok ps → walk code = ps

/-- Decoding is the inverse of encoding, and both ways through code meet the same instructions. -/
theorem decode_splits (code : Bytes) : Splits code where
  inverse _ := decode_eq_ok_iff
  encoded is his hcode :=
    ⟨placeFrom 0 is, hcode ▸ decode_encode his, map_instr_placeFrom 0 is, adjacent_placeFrom 0 is⟩
  refused _ := decode_eq_error_iff
  longest := by
    obtain ⟨is, rest, his, rfl, hrest⟩ := exists_split code
    have hwalk := walk_eq his hrest
    refine ⟨encode is, List.prefix_append _ _, ?_, ?_⟩
    · rw [hwalk, decode_encode his]
    · intro part ps hpart hps
      obtain ⟨js, hjs, rfl, rfl⟩ := exists_encode_of_decode hps
      have hplaced : placeFrom 0 js <+: walk (encode is ++ rest) := prefix_walk hjs hpart
      refine ⟨?_, hplaced⟩
      have hsplit := hplaced.map Placed.instr
      rw [hwalk, map_instr_placeFrom, map_instr_placeFrom] at hsplit
      obtain ⟨more, rfl⟩ := hsplit
      exact ⟨encode more, List.flatMap_append.symm⟩
  complete ps h := by
    obtain ⟨is, his, rfl, rfl⟩ := exists_encode_of_decode h
    have hwalk := walk_eq his (.inl rfl : ([] : Bytes) = [] ∨ _)
    rwa [List.append_nil] at hwalk

end Instruction
end StackLisp
