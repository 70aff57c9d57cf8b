import StackLisp.Proofs.Emitter
import StackLisp.Proofs.Extent

/-! What a buffer holds. Each operation on it does to the bytes what the operation of the same name
does to a piece of code. -/
namespace StackLisp

open Fragment (op instr)

namespace Fragment

/-- The piece with a mark behind it. -/
def thenMark (f : Fragment) (pos : Position) : Fragment :=
  { f with items := f.items ++ [.mark pos] }

theorem thenMark_append (f g : Fragment) (pos : Position) :
    f.thenMark pos ++ g = f ++ g.marked pos := by
  change Fragment.mk _ _ = Fragment.mk _ _
  simp [thenMark, marked]

@[simp] theorem instructions_thenMark (f : Fragment) (pos : Position) :
    (f.thenMark pos).instructions = f.instructions := by
  simp [instructions, thenMark]

@[simp] theorem size_thenMark (f : Fragment) (pos : Position) :
    (f.thenMark pos).size = f.size := by
  rw [size_eq, size_eq, instructions_thenMark]

theorem landed_append (f g : Fragment) : f.landed ++ g = f ++ g := rfl

theorem code_append (f g : Fragment) : (f ++ g).code = f.code ++ g.code := by
  simp [code]

theorem code_instr (i : Instruction) : (instr i).code = i.bytes := by
  simp [code]

theorem locationsFrom_append_instr (offset : Nat) (items : List Item) (i : Instruction) :
    locationsFrom offset (items ++ [.instr i]) = locationsFrom offset items := by
  fun_induction locationsFrom offset items with
  | case1 => rfl
  | case2 offset j rest ih => exact ih
  | case3 offset p q rest ih => exact ih
  | case4 offset p rest hrest ih =>
    cases rest with
    | nil => rfl
    | cons item rest =>
      cases item with
      | mark q => exact absurd rfl (hrest q rest)
      | instr j => exact congrArg _ ih

/-- Only the sizes of instructions matter for the places of others. -/
theorem locationsFrom_replace (offset : Nat) (items rest : List Item) {i j : Instruction}
    (h : j.size = i.size) :
    locationsFrom offset (items ++ .instr j :: rest) =
      locationsFrom offset (items ++ .instr i :: rest) := by
  fun_induction locationsFrom offset items with
  | case1 =>
    rw [List.nil_append, List.nil_append, locationsFrom, locationsFrom, h]
  | case2 offset k rest ih => exact ih
  | case3 offset p q rest ih => exact ih
  | case4 offset p more hmore ih =>
    cases more with
    | nil => exact congrArg (_ :: ·) ih
    | cons item more =>
      cases item with
      | mark q => exact absurd rfl (hmore q more)
      | instr k => exact congrArg (_ :: ·) ih

/-- A place behind which there is another one, or an instruction, is not replaced. -/
theorem place_cons {offset : Nat} {l : SourceLocation} {ls : List SourceLocation} (pos : Position)
    (h : ls ≠ [] ∨ l.offset ≠ offset) :
    Buffer.place offset pos (l :: ls) = l :: Buffer.place offset pos ls := by
  unfold Buffer.place
  cases ls with
  | nil =>
    have hne : l.offset ≠ offset := by simpa using h
    simp [hne]
  | cons k ks =>
    rw [List.getLast?_cons_cons, List.dropLast_cons_of_ne_nil (List.cons_ne_nil k ks)]
    dsimp only
    split <;> rfl

theorem locationsFrom_append_mark (offset : Nat) (items : List Item) (pos : Position) :
    locationsFrom offset (items ++ [.mark pos]) =
      Buffer.place (offset + (⟨items, false⟩ : Fragment).size) pos
        (locationsFrom offset items) := by
  fun_induction locationsFrom offset items with
  | case1 => rfl
  | case2 offset i rest ih =>
    have hsize : (⟨.instr i :: rest, false⟩ : Fragment).size =
        i.size + (⟨rest, false⟩ : Fragment).size := by
      rw [size_cons, ← size_instr i]
      rfl
    rw [List.cons_append, locationsFrom, ih, hsize, Nat.add_assoc]
  | case3 offset p q rest ih => exact ih
  | case4 offset p rest hrest ih =>
    cases rest with
    | nil => simp [locationsFrom, Buffer.place, size, instructions]
    | cons item rest =>
      cases item with
      | mark q => exact absurd rfl (hrest q rest)
      | instr i =>
        have hsize : (⟨.mark p :: .instr i :: rest, false⟩ : Fragment).size =
            i.size + (⟨rest, false⟩ : Fragment).size := by
          rw [size_cons, size_cons, ← size_instr i]
          exact Nat.zero_add _
        have hpos := i.size_pos
        rw [place_cons]
        · exact congrArg _ ih
        · right
          rw [hsize]
          dsimp only
          omega

end Fragment

namespace Opcode

theorem ofNumber?_byte (o : Opcode) : ofNumber? o.number.toUInt8.toNat = some o := by
  have hlt : o.number < 256 := Nat.lt_trans o.number_lt (by decide)
  have hbyte : o.number.toUInt8.toNat = o.number := UInt8.toNat_ofNat_of_lt hlt
  rw [hbyte, ofNumber?_number]

end Opcode

namespace Buffer

/-- The buffer holds the code of the piece, with a number of jumps that have no target. -/
structure Shows (b : Buffer) (f : Fragment) (pending : Int) : Prop where
  bytes : b.bytes = f.code
  locations : b.locations = f.locations
  last : b.last = f.instructions.getLast?.map fun i => f.size - i.size
  label : b.label = some b.offset ↔ f.landing = true
  behind : ∀ l, b.label = some l → l ≤ b.offset
  pending : b.pending = pending

variable {b : Buffer} {f : Fragment} {n : Int}

theorem shows_empty : ({} : Buffer).Shows {} 0 := by
  refine ⟨rfl, rfl, rfl, ?_, ?_, rfl⟩
  · constructor
    · intro h
      cases h
    · intro h
      cases h
  · intro l h
    cases h

namespace Shows

theorem offset (h : b.Shows f n) : b.offset = f.size := by
  rw [Buffer.offset, h.bytes, Fragment.length_code]

theorem isLabelled (h : b.Shows f n) : b.isLabelled = f.landing := by
  rw [Buffer.isLabelled, Bool.eq_iff_iff, decide_eq_true_iff]
  exact h.label

theorem mark (h : b.Shows f n) (pos : Position) : (b.mark pos).Shows (f.thenMark pos) n := by
  refine ⟨?_, ?_, ?_, h.label, h.behind, h.pending⟩
  · rw [Fragment.code, Fragment.instructions_thenMark]
    exact h.bytes
  · have hsize : b.offset = 0 + (⟨f.items, false⟩ : Fragment).size := by
      rw [h.offset, Nat.zero_add]
      rfl
    rw [Buffer.mark, h.locations, hsize]
    exact (Fragment.locationsFrom_append_mark 0 f.items pos).symm
  · rw [Fragment.instructions_thenMark, Fragment.size_thenMark]
    exact h.last

theorem write (h : b.Shows f n) (i : Instruction) : (b.write i).Shows (f ++ instr i) n := by
  have hlonger : b.offset < (b.write i).offset := by
    have hpos := i.size_pos
    simp only [Buffer.offset, Buffer.write, List.length_append, Instruction.length_bytes]
    omega
  refine ⟨?_, ?_, ?_, ?_, ?_, h.pending⟩
  · rw [Fragment.code_append, Fragment.code_instr, ← h.bytes]
    rfl
  · rw [Fragment.locations, Fragment.items_append]
    exact h.locations.trans (Fragment.locationsFrom_append_instr 0 f.items i).symm
  · simp [Buffer.write, h.offset]
  · constructor
    · intro hl
      have hle := h.behind _ hl
      omega
    · intro h
      cases h
  · intro l hl
    exact Nat.le_trans (h.behind l hl) (Nat.le_of_lt hlonger)

/-- The last instruction, in the buffer and in the piece. -/
theorem lastOp? (h : b.Shows f n) {front : List Item} {i : Instruction}
    (hends : f.EndsWith front i) :
    b.last = some (⟨front, false⟩ : Fragment).size ∧ b.lastOp? = some i.op := by
  have hinstructions := hends.instructions_eq
  have hsize : f.size = (⟨front, false⟩ : Fragment).size + i.size := by
    rw [Fragment.size_eq, Fragment.size_eq, hinstructions]
    simp
  have hlast : b.last = some (⟨front, false⟩ : Fragment).size := by
    rw [h.last, hinstructions, List.getLast?_concat, Option.map_some, hsize, Nat.add_sub_cancel]
  have hcode : b.bytes = (⟨front, false⟩ : Fragment).code ++ i.bytes := by
    rw [h.bytes, Fragment.code, hinstructions, List.flatMap_append]
    simp [Fragment.code]
  refine ⟨hlast, ?_⟩
  rw [Buffer.lastOp?, hlast, Option.bind_some, hcode, ← Fragment.length_code,
    List.getElem?_append_right (Nat.le_refl _), Nat.sub_self]
  exact Opcode.ofNumber?_byte i.op

theorem terminated (h : b.Shows f n) (hends : f.Ends) : b.terminated = f.terminated := by
  obtain ⟨front, i, hi⟩ := hends
  rw [hi.terminated_eq, Buffer.terminated, h.isLabelled, (h.lastOp? hi).2]
  rfl

/-- One byte of an instruction may be changed if the result is an instruction of that size. -/
theorem patch {p q : Fragment} {i j : Instruction} {k : Nat} {byte : UInt8}
    (h : b.Shows (p ++ instr i ++ q) n) (hsize : j.size = i.size) (hk : k < i.size)
    (hbytes : j.bytes = i.bytes.set k byte) :
    ({ b with bytes := b.bytes.set (p.size + k) byte } : Buffer).Shows (p ++ instr j ++ q) n := by
  have htotal : (p ++ instr j ++ q).size = (p ++ instr i ++ q).size := by
    simp [hsize]
  refine ⟨?_, ?_, ?_, ?_, ?_, h.pending⟩
  · have hbefore : p.code.length ≤ p.size + k := by
      rw [Fragment.length_code]
      exact Nat.le_add_right _ _
    have hwithin : p.size + k - p.code.length < i.bytes.length := by
      rw [Fragment.length_code, Instruction.length_bytes]
      omega
    rw [h.bytes, Fragment.append_assoc, Fragment.append_assoc, Fragment.code_append,
      Fragment.code_append, Fragment.code_append, Fragment.code_append, Fragment.code_instr,
      Fragment.code_instr, List.set_append_right _ _ hbefore, List.set_append_left _ _ hwithin,
      Fragment.length_code, Nat.add_sub_cancel_left, hbytes]
  · have hplaces := Fragment.locationsFrom_replace 0 p.items q.items hsize
    rw [h.locations, Fragment.append_assoc, Fragment.append_assoc]
    exact hplaces.symm
  · rw [h.last, htotal]
    cases hq : q.instructions.getLast? with
    | none =>
      have hnone := List.getLast?_eq_none_iff.1 hq
      simp [hnone, hsize]
    | some last =>
      have hlast (x : Instruction) :
          (p ++ instr x ++ q).instructions.getLast? = some last := by
        rw [Fragment.instructions_append, List.getLast?_append, hq]
        rfl
      rw [hlast, hlast]
  · rw [show (p ++ instr j ++ q).landing = (p ++ instr i ++ q).landing from rfl, ← h.label,
      Buffer.offset, Buffer.offset, List.length_set]
  · intro l hl
    rw [Buffer.offset, List.length_set]
    exact h.behind l hl

/-- A push that follows is written, or the load that was written last becomes one that pushes. -/
theorem pushLast? (h : b.Shows f n) (hends : f.Ends) :
    (∃ b', b.pushLast? = some b' ∧ b'.Shows f.pushed n) ∨
      (b.pushLast? = none ∧ f.pushed = f ++ op .push) := by
  obtain ⟨front, i, hi⟩ := hends
  obtain ⟨hlast, hop⟩ := h.lastOp? hi
  rcases hi.pushed_cases with ⟨hlanding, o, ho, hpushed⟩ | ⟨hnone, hpushed⟩
  · left
    have hlabelled : b.isLabelled = false := h.isLabelled.trans hlanding
    have hsplit : f = (⟨front, false⟩ : Fragment) ++ instr i ++ {} := by
      obtain ⟨items, landing⟩ := f
      change landing = false at hlanding
      change items = _ at hi
      rw [hlanding, hi]
      change Fragment.mk _ _ = Fragment.mk _ _
      simp [instr]
    have hresult : f.pushed = (⟨front, false⟩ : Fragment) ++ instr { i with op := o } ++ {} := by
      rw [hpushed]
      change Fragment.mk _ _ = Fragment.mk _ _
      simp [instr]
    rw [hsplit] at h
    have hpatch := h.patch (j := { i with op := o }) rfl i.size_pos rfl
    rw [← hresult] at hpatch
    refine ⟨_, ?_, hpatch⟩
    simp [Buffer.pushLast?, hlabelled, hlast, hop, ho]
  · right
    refine ⟨?_, hpushed⟩
    rcases hnone with hlanding | ho
    · simp [Buffer.pushLast?, h.isLabelled, hlanding]
    · simp [Buffer.pushLast?, hlast, hop, ho]

/-- A jump gets the offset of what follows as its target. -/
theorem land {p q : Fragment} {o : Opcode} {t : Nat} (h : b.Shows (p ++ op o [t] ++ q) n) :
    (b.land (p.size + 1)).Shows (p ++ op o [b.offset] ++ q).landed (n - 1) := by
  have hone : 1 < (⟨o, [t]⟩ : Instruction).size := Nat.lt_succ_self 1
  have hpatch := h.patch (j := ⟨o, [b.offset]⟩) rfl hone rfl
  have hoffset : (b.land (p.size + 1)).offset = b.offset := by
    rw [Buffer.offset, Buffer.land, List.length_set]
    rfl
  refine ⟨hpatch.bytes, hpatch.locations, hpatch.last, ?_, ?_, ?_⟩
  · rw [hoffset]
    exact ⟨fun _ => rfl, fun _ => rfl⟩
  · intro l hl
    cases hl
    exact Nat.le_of_eq hoffset.symm
  · rw [← h.pending]
    rfl

end Shows
end Buffer
end StackLisp
